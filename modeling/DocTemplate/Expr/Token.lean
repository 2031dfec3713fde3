import DocTemplate.Number.Notation
import DocTemplate.Number.Word
import DocTemplate.Value.Basic

/-!
# Tokens of expressions

The text of an expression is cut into tokens from the left, each as long as
possible. Blanks (spaces, tabs and line ends) separate tokens and count for
nothing else, except that a token remembers whether one is before it.

* A name is an ASCII letter or an underscore, then letters, digits and
  underscores.
* A numeral is digits, perhaps with a point and more digits; without a point it
  must fit an integer value.
* A text stands between quotes: straight or typographic single quotes or
  typographic double quotes, with the closing quote doubled inside, or straight
  double quotes, where a backslash comes before a quote, a backslash, `n` or `t`.

`Token.scan?` fails if some part of the text is no token.
-/

namespace DocTemplate

/-- The signs of expressions. -/
inductive Mark where
  | query | queryDot | dot | colon | comma | semicolon
  | openParen | closeParen | openBracket | closeBracket
  | bang | bars | ampersands | equals | unequal
  | less | lessEqual | greater | greaterEqual
  | plus | minus | star | slash | percent
  deriving DecidableEq, Repr

/-- A token. -/
inductive Token where
  /-- A name, keywords included. -/
  | name (s : String)
  /-- An integer as it is written. -/
  | int (n : Int64)
  /-- A number as it is written. -/
  | float (x : Float)
  /-- A text between quotes. -/
  | string (s : String)
  /-- The word for the scope, `#this`. -/
  | this
  /-- A sign. -/
  | mark (m : Mark)

/-- A token with what is before it. -/
structure Lexeme where
  token : Token
  /-- Whether there is a blank before the token. -/
  spaced : Bool

namespace Token

/-- A character between tokens. -/
def isBlank (c : Char) : Bool :=
  c = ' ' || c = '\t' || c = '\n' || c = '\r'

/-- A character that names may start with. -/
def startsName (c : Char) : Bool :=
  c.isAlpha || c = '_'

/-- A character of names. -/
def inName (c : Char) : Bool :=
  c.isAlphanum || c = '_'

/-- What follows a token of `cs`. -/
abbrev Rest (cs : List Char) := { rest : List Char // rest.length < cs.length }

/-- The rest of a text between quotes of which the closing one is doubled
    inside; `read` holds the characters read so far, the last one first. -/
def quotedTail? (close : Char) (read : List Char) : (cs : List Char) → Option (String × Rest cs)
  | [] => none
  | [c] => if c = close then some (String.ofList read.reverse, ⟨[], Nat.lt_add_one _⟩) else none
  | c :: d :: cs =>
    if c = close then
      if d = close then
        (quotedTail? close (close :: read) cs).map fun (s, ⟨r, hr⟩) =>
          (s, ⟨r, by simp only [List.length_cons]; omega⟩)
      else
        some (String.ofList read.reverse, ⟨d :: cs, Nat.lt_add_one _⟩)
    else
      (quotedTail? close (c :: read) (d :: cs)).map fun (s, ⟨r, hr⟩) =>
        (s, ⟨r, by simp only [List.length_cons] at hr ⊢; omega⟩)

/-- The character that a backslash and a letter stand for. -/
def escaped? : Char → Option Char
  | '"' => some '"'
  | '\\' => some '\\'
  | 'n' => some '\n'
  | 't' => some '\t'
  | _ => none

/-- The rest of a text between straight double quotes. -/
def escapedTail? (read : List Char) : (cs : List Char) → Option (String × Rest cs)
  | [] => none
  | '"' :: cs => some (String.ofList read.reverse, ⟨cs, Nat.lt_add_one _⟩)
  | '\\' :: c :: cs =>
    match escaped? c with
    | some x => (escapedTail? (x :: read) cs).map fun (s, ⟨r, hr⟩) =>
        (s, ⟨r, Nat.lt_add_right 2 hr⟩)
    | none => none
  | c :: cs =>
    if c = '\\' then none
    else (escapedTail? (c :: read) cs).map fun (s, ⟨r, hr⟩) => (s, ⟨r, Nat.lt_add_right 1 hr⟩)

/-- The value of a numeral with a fraction or without. -/
def numeral? (whole : List Char) : Option (List Char) → Option Token
  | none => (Word.ofNat? (Number.ofDigits whole)).map int
  | some fraction => some (float (Number.ofDecimal
      ⟨Number.ofDigits (whole ++ fraction), -(fraction.length : Int)⟩))

/-- The digits after a point in front of a text, if there are both. -/
def fraction? : List Char → Option (List Char × List Char)
  | '.' :: cs =>
    match cs.takeWhile Char.isDigit with
    | [] => none
    | ds => some (ds, cs.dropWhile Char.isDigit)
  | _ => none

/-- A sign in front of a text. -/
def mark? : (cs : List Char) → Option (Mark × Rest cs)
  | '?' :: '.' :: r => some (.queryDot, ⟨r, Nat.lt_add_right 1 (Nat.lt_add_one _)⟩)
  | '|' :: '|' :: r => some (.bars, ⟨r, Nat.lt_add_right 1 (Nat.lt_add_one _)⟩)
  | '&' :: '&' :: r => some (.ampersands, ⟨r, Nat.lt_add_right 1 (Nat.lt_add_one _)⟩)
  | '=' :: '=' :: r => some (.equals, ⟨r, Nat.lt_add_right 1 (Nat.lt_add_one _)⟩)
  | '!' :: '=' :: r => some (.unequal, ⟨r, Nat.lt_add_right 1 (Nat.lt_add_one _)⟩)
  | '<' :: '=' :: r => some (.lessEqual, ⟨r, Nat.lt_add_right 1 (Nat.lt_add_one _)⟩)
  | '>' :: '=' :: r => some (.greaterEqual, ⟨r, Nat.lt_add_right 1 (Nat.lt_add_one _)⟩)
  | '?' :: r => some (.query, ⟨r, Nat.lt_add_one _⟩)
  | '.' :: r => some (.dot, ⟨r, Nat.lt_add_one _⟩)
  | ':' :: r => some (.colon, ⟨r, Nat.lt_add_one _⟩)
  | ',' :: r => some (.comma, ⟨r, Nat.lt_add_one _⟩)
  | ';' :: r => some (.semicolon, ⟨r, Nat.lt_add_one _⟩)
  | '(' :: r => some (.openParen, ⟨r, Nat.lt_add_one _⟩)
  | ')' :: r => some (.closeParen, ⟨r, Nat.lt_add_one _⟩)
  | '[' :: r => some (.openBracket, ⟨r, Nat.lt_add_one _⟩)
  | ']' :: r => some (.closeBracket, ⟨r, Nat.lt_add_one _⟩)
  | '!' :: r => some (.bang, ⟨r, Nat.lt_add_one _⟩)
  | '<' :: r => some (.less, ⟨r, Nat.lt_add_one _⟩)
  | '>' :: r => some (.greater, ⟨r, Nat.lt_add_one _⟩)
  | '+' :: r => some (.plus, ⟨r, Nat.lt_add_one _⟩)
  | '-' :: r => some (.minus, ⟨r, Nat.lt_add_one _⟩)
  | '*' :: r => some (.star, ⟨r, Nat.lt_add_one _⟩)
  | '/' :: r => some (.slash, ⟨r, Nat.lt_add_one _⟩)
  | '%' :: r => some (.percent, ⟨r, Nat.lt_add_one _⟩)
  | _ => none

theorem length_dropWhile_le (p : Char → Bool) (cs : List Char) :
    (cs.dropWhile p).length ≤ cs.length :=
  (List.dropWhile_sublist p).length_le

theorem length_fraction?_lt {cs ds r : List Char} (h : fraction? cs = some (ds, r)) :
    r.length < cs.length := by
  unfold fraction? at h
  split at h
  · rename_i cs
    split at h
    · cases h
    · have := length_dropWhile_le Char.isDigit cs
      simp only [Option.some.injEq, Prod.mk.injEq] at h
      rw [← h.2, List.length_cons]
      omega
  · cases h

/-- The token in front of a text. -/
def next? : (cs : List Char) → Option (Token × Rest cs)
  | [] => none
  | '\'' :: cs => (quotedTail? '\'' [] cs).map fun (s, ⟨r, hr⟩) =>
      (string s, ⟨r, by simp only [List.length_cons]; omega⟩)
  | '‘' :: cs => (quotedTail? '’' [] cs).map fun (s, ⟨r, hr⟩) =>
      (string s, ⟨r, by simp only [List.length_cons]; omega⟩)
  | '“' :: cs => (quotedTail? '”' [] cs).map fun (s, ⟨r, hr⟩) =>
      (string s, ⟨r, by simp only [List.length_cons]; omega⟩)
  | '"' :: cs => (escapedTail? [] cs).map fun (s, ⟨r, hr⟩) =>
      (string s, ⟨r, by simp only [List.length_cons]; omega⟩)
  -- Whatever follows the word is a token of its own.
  | '#' :: 't' :: 'h' :: 'i' :: 's' :: cs =>
    some (this, ⟨cs, by simp only [List.length_cons]; omega⟩)
  | c :: cs =>
    have hn := length_dropWhile_le inName cs
    have hd := length_dropWhile_le Char.isDigit cs
    if startsName c then
      some (name (String.ofList (c :: cs.takeWhile inName)),
        ⟨cs.dropWhile inName, by simp only [List.length_cons]; omega⟩)
    else if c.isDigit then
      let whole := c :: cs.takeWhile Char.isDigit
      match h : fraction? (cs.dropWhile Char.isDigit) with
      | some (ds, r) => (numeral? whole (some ds)).map fun t =>
          (t, ⟨r, by have := length_fraction?_lt h; simp only [List.length_cons]; omega⟩)
      | none => (numeral? whole none).map fun t =>
          (t, ⟨cs.dropWhile Char.isDigit, by simp only [List.length_cons]; omega⟩)
    else
      (mark? (c :: cs)).map fun (m, rest) => (mark m, rest)

/-- The tokens of a text; `spaced` says whether a blank is before it. -/
def scanFrom? (spaced : Bool) (cs : List Char) : Option (List Lexeme) :=
  match cs with
  | [] => some []
  | c :: rest =>
    if isBlank c then
      scanFrom? true rest
    else
      match next? (c :: rest) with
      | none => none
      | some (token, ⟨r, _⟩) => (scanFrom? false r).map fun more => ⟨token, spaced⟩ :: more
termination_by cs.length
decreasing_by
  · simp only [List.length_cons]
    omega
  · assumption

/-- The tokens of a text. -/
def scan? (s : String) : Option (List Lexeme) :=
  scanFrom? false s.toList

end Token

end DocTemplate
