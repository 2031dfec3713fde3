import DocTemplate.Json.Numeral

/-!
# Reading JSON

`Json.read?` reads a whole text, if it is a JSON text: one value, with blanks
around it. Texts may hold any character but the control characters, which are
written with an escape.

The grammar alone decides what is read. A part that keeps to it and stands for
no value is `unreadable`: a numeral too large for a number, a text with an
escape for half of a surrogate pair, an object with such a name, an array or an
object within `Reader.maxDepth` others.

The readers of parts take the characters of the text from the part on and give
what follows it, together with the fact that it is shorter; this is why reading
ends.
-/

namespace DocTemplate

namespace Json

namespace Reader

/-- How many arrays and objects inside each other have a value. -/
def maxDepth : Nat := 127

/-- What follows a part of `cs` that is not empty. -/
abbrev Rest (cs : List Char) := { rest : List Char // rest.length < cs.length }

/-- The characters between the parts of a text. -/
def isBlank (c : Char) : Bool :=
  c = ' ' || c = '\n' || c = '\t' || c = '\r'

/-- The text from its first part on. -/
def skipBlanks (cs : List Char) : List Char :=
  cs.dropWhile isBlank

theorem length_skipBlanks_le (cs : List Char) : (skipBlanks cs).length ≤ cs.length :=
  (List.dropWhile_sublist isBlank).length_le

/-- The value of a hexadecimal digit. -/
def hexDigit? (c : Char) : Option Nat :=
  if c.isDigit then some (c.toNat - '0'.toNat)
  else if 'a' ≤ c ∧ c ≤ 'f' then some (c.toNat - 'a'.toNat + 10)
  else if 'A' ≤ c ∧ c ≤ 'F' then some (c.toNat - 'A'.toNat + 10)
  else none

/-- The value of four hexadecimal digits. -/
def hex4? (a b c d : Char) : Option Nat := do
  return 4096 * (← hexDigit? a) + 256 * (← hexDigit? b) + 16 * (← hexDigit? c) + (← hexDigit? d)

/-- The character of an escape of one letter. -/
def escaped? : Char → Option Char
  | '"' => some '"'
  | '\\' => some '\\'
  | '/' => some '/'
  | 'b' => some '\x08'
  | 'f' => some '\x0c'
  | 'n' => some '\n'
  | 'r' => some '\r'
  | 't' => some '\t'
  | _ => none

/-- The character of a code unit that is no surrogate. -/
def unit? (n : Nat) : Option Char :=
  if 0xD800 ≤ n ∧ n ≤ 0xDFFF then none else some (Char.ofNat n)

/-- The character of a surrogate pair. -/
def pair? (high low : Nat) : Option Char :=
  if 0xD800 ≤ high ∧ high ≤ 0xDBFF ∧ 0xDC00 ≤ low ∧ low ≤ 0xDFFF then
    some (Char.ofNat (0x10000 + 0x400 * (high - 0xD800) + (low - 0xDC00)))
  else
    none

/-- The rest of a text after its opening quote, and what follows its closing
    quote. A character stands for its number and an escape for a number that
    may be half of a surrogate pair; `read` holds the numbers read so far, the
    last one first. -/
def quoted? (read : List Nat) : List Char → Option (List Nat × List Char)
  | [] => none
  | '"' :: cs => some (read.reverse, cs)
  | '\\' :: 'u' :: a :: b :: c :: d :: cs =>
    match hex4? a b c d with
    | some n => quoted? (n :: read) cs
    | none => none
  | '\\' :: c :: cs =>
    match escaped? c with
    | some x => quoted? (x.toNat :: read) cs
    | none => none
  | c :: cs => if c = '\\' ∨ c.toNat < 0x20 then none else quoted? (c.toNat :: read) cs

/-- The closing quote is gone. -/
theorem length_lt_of_quoted? {read numbers : List Nat} {cs rest : List Char}
    (h : quoted? read cs = some (numbers, rest)) : rest.length < cs.length := by
  fun_induction quoted? read cs with
  | case1 => cases h
  | case2 => cases h; exact Nat.lt_succ_self _
  | case3 _ _ _ _ _ _ _ _ ih => have := ih h; simp only [List.length_cons]; omega
  | case4 => cases h
  | case5 _ _ _ _ _ _ ih => have := ih h; simp only [List.length_cons]; omega
  | case6 => cases h
  | case7 => cases h
  | case8 _ _ _ _ _ _ _ ih => have := ih h; simp only [List.length_cons]; omega

/-- The characters that numbers stand for, two halves of a surrogate pair in a
    row for one; `read` holds the characters found so far, the last one first. -/
def characters? (read : List Char) : List Nat → Option (List Char)
  | [] => some read.reverse
  | [n] => (unit? n).map fun c => (c :: read).reverse
  | n :: m :: rest =>
    match pair? n m with
    | some c => characters? (c :: read) rest
    | none =>
      match unit? n with
      | some c => characters? (c :: read) (m :: rest)
      | none => none

/-- The text that numbers stand for. -/
def text? (numbers : List Nat) : Option String :=
  (characters? [] numbers).map String.ofList

/-- A member, whose name is given by its numbers. -/
def member? (m : List Nat × Json) : Option (String × Json) :=
  (text? m.1).map fun name => (name, m.2)

/-- The object of some members. -/
def object (members : List (List Nat × Json)) : Json :=
  orUnreadable ((members.mapM member?).map obj)

/-- An array or an object, with at most `depth` inside each other from it on. -/
def nested (depth : Nat) (v : Json) : Json :=
  if depth = 0 then unreadable else v

/-- What follows a word is shorter than the text. -/
theorem length_lt_append (c : Char) (word rest : List Char) :
    rest.length < (c :: word ++ rest).length := by
  rw [List.length_append, List.length_cons]
  omega

/-- A word or a numeral in front of a text. -/
def scalar? : (cs : List Char) → Option (Json × Rest cs)
  | 't' :: 'r' :: 'u' :: 'e' :: rest =>
    some (.bool true, ⟨rest, length_lt_append 't' ['r', 'u', 'e'] rest⟩)
  | 'f' :: 'a' :: 'l' :: 's' :: 'e' :: rest =>
    some (.bool false, ⟨rest, length_lt_append 'f' ['a', 'l', 's', 'e'] rest⟩)
  | 'n' :: 'u' :: 'l' :: 'l' :: rest =>
    some (.null, ⟨rest, length_lt_append 'n' ['u', 'l', 'l'] rest⟩)
  | cs =>
    match h : NumeralText.read? cs with
    | none => none
    | some (t, rest) => some (orUnreadable t.value?, ⟨rest, NumeralText.length_lt_of_read? h⟩)

mutual

/-- The value in front of a text, with at most `depth` arrays and objects
    inside each other. -/
def value? (depth : Nat) (cs : List Char) : Option (Json × Rest cs) :=
  have hle := length_skipBlanks_le cs
  match h : skipBlanks cs with
  | [] => none
  | '"' :: text =>
    match ht : quoted? [] text with
    | none => none
    | some (numbers, r) =>
      some (orUnreadable ((text? numbers).map str), ⟨r, by
        have hr := length_lt_of_quoted? ht
        simp only [h, List.length_cons] at hle
        omega⟩)
  | '[' :: text =>
    match h' : skipBlanks text with
    | ']' :: r =>
      some (nested depth (.arr []), ⟨r, by
        have := length_skipBlanks_le text
        simp only [h, h', List.length_cons] at hle this
        omega⟩)
    | _ =>
      match items? (depth - 1) text with
      | none => none
      | some (items, ⟨r, hr⟩) =>
        some (nested depth (.arr items),
          ⟨r, by simp only [h, List.length_cons] at hle; omega⟩)
  | '\x7b' :: text =>
    match h' : skipBlanks text with
    | '\x7d' :: r =>
      some (nested depth (.obj []), ⟨r, by
        have := length_skipBlanks_le text
        simp only [h, h', List.length_cons] at hle this
        omega⟩)
    | _ =>
      match members? (depth - 1) text with
      | none => none
      | some (members, ⟨r, hr⟩) =>
        some (nested depth (object members),
          ⟨r, by simp only [h, List.length_cons] at hle; omega⟩)
  | c :: text =>
    match scalar? (c :: text) with
    | none => none
    | some (v, ⟨r, hr⟩) => some (v, ⟨r, by rw [h] at hle; omega⟩)
termination_by 2 * cs.length
decreasing_by
  all_goals
    simp only [h, List.length_cons] at hle
    omega

/-- The items of an array, one at least, up to its end. -/
def items? (depth : Nat) (cs : List Char) : Option (List Json × Rest cs) :=
  match value? depth cs with
  | none => none
  | some (v, ⟨rest, hrest⟩) =>
    have hle := length_skipBlanks_le rest
    match h : skipBlanks rest with
    | ']' :: r => some ([v], ⟨r, by simp only [h, List.length_cons] at hle; omega⟩)
    | ',' :: r =>
      match items? depth r with
      | none => none
      | some (vs, ⟨r', hr'⟩) =>
        some (v :: vs, ⟨r', by simp only [h, List.length_cons] at hle; omega⟩)
    | _ => none
termination_by 2 * cs.length + 1
decreasing_by
  · omega
  · simp only [h, List.length_cons] at hle
    omega

/-- The members of an object, one at least, up to its end; a name is the
    numbers it is written by. -/
def members? (depth : Nat) (cs : List Char) :
    Option (List (List Nat × Json) × Rest cs) :=
  have hle := length_skipBlanks_le cs
  match h : skipBlanks cs with
  | '"' :: text =>
    match hname : quoted? [] text with
    | none => none
    | some (name, afterName) =>
      have hlt := length_lt_of_quoted? hname
      have hle' := length_skipBlanks_le afterName
      match h' : skipBlanks afterName with
      | ':' :: afterColon =>
        match value? depth afterColon with
        | none => none
        | some (v, ⟨rest, hrest⟩) =>
          have hle'' := length_skipBlanks_le rest
          match h'' : skipBlanks rest with
          | '\x7d' :: r => some ([(name, v)], ⟨r, by
              simp only [h, h', h'', List.length_cons] at hle hle' hle''; omega⟩)
          | ',' :: r =>
            match members? depth r with
            | none => none
            | some (more, ⟨r', hr'⟩) => some ((name, v) :: more, ⟨r', by
                simp only [h, h', h'', List.length_cons] at hle hle' hle''; omega⟩)
          | _ => none
      | _ => none
  | _ => none
termination_by 2 * cs.length
decreasing_by
  · simp only [h, h', List.length_cons] at hle hle'
    omega
  · simp only [h, h', h'', List.length_cons] at hle hle' hle''
    omega

end

end Reader

open Reader in
/-- What a whole text holds, given by its characters. -/
def ofChars? (cs : List Char) : Option Json :=
  match value? maxDepth cs with
  | some (v, ⟨rest, _⟩) => if skipBlanks rest = [] then some v else none
  | none => none

/-- What a whole text holds. -/
def read? (s : String) : Option Json :=
  ofChars? s.toList

end Json

end DocTemplate
