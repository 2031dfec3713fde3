import DocTemplate.Json.Basic
import DocTemplate.Number.Notation

/-!
# Writing JSON

A value is written in one line without blanks (`Json.compact`), or over several
lines with two blanks for each level (`Json.pretty`). Members keep their order.
In texts the quote, the backslash and the control characters are written with
an escape, the shortest there is; all other characters stand for themselves.
-/

namespace DocTemplate

namespace Json

/-- A hexadecimal digit. -/
def hexChar (n : Nat) : Char :=
  if n < 10 then Char.ofNat ('0'.toNat + n) else Char.ofNat ('a'.toNat + (n - 10))

/-- A character within a text. -/
def escape (c : Char) : List Char :=
  match c with
  | '"' => ['\\', '"']
  | '\\' => ['\\', '\\']
  | '\x08' => ['\\', 'b']
  | '\x0c' => ['\\', 'f']
  | '\n' => ['\\', 'n']
  | '\r' => ['\\', 'r']
  | '\t' => ['\\', 't']
  | c =>
    if c.toNat < 0x20 then
      ['\\', 'u', '0', '0', hexChar (c.toNat / 16), hexChar (c.toNat % 16)]
    else
      [c]

/-- A text with its quotes. -/
def quote (s : String) : List Char :=
  '"' :: (s.toList.flatMap escape ++ ['"'])

/-- An integer. -/
def integer (n : Int) : List Char :=
  if n < 0 then '-' :: Number.digitChars n.natAbs else Number.digitChars n.natAbs

/-- A number; what is not a number has no numeral. -/
def numeral (x : Float) : List Char :=
  if x.isFinite then (Number.text x).toList else ['n', 'u', 'l', 'l']

/-- A value without parts; for what stands for no value there is null. -/
def scalar : Json → List Char
  | null | unreadable => ['n', 'u', 'l', 'l']
  | bool true => ['t', 'r', 'u', 'e']
  | bool false => ['f', 'a', 'l', 's', 'e']
  | int n => integer n
  | float x => numeral x
  | str s => quote s
  | arr _ | obj _ => []

mutual

/-- The value in one line, as characters. -/
def compactChars : Json → List Char
  | arr items => '[' :: ([','].intercalate (compactItems items) ++ [']'])
  | obj members => '\x7b' :: ([','].intercalate (compactMembers members) ++ ['\x7d'])
  | v => scalar v

/-- The items of an array, each in one line. -/
def compactItems : List Json → List (List Char)
  | [] => []
  | v :: vs => compactChars v :: compactItems vs

/-- The members of an object, each in one line. -/
def compactMembers : List (String × Json) → List (List Char)
  | [] => []
  | (k, v) :: rest => (quote k ++ ':' :: compactChars v) :: compactMembers rest

end

/-- The value in one line. -/
def compact (j : Json) : String :=
  String.ofList j.compactChars

/-- A new line at a level. -/
def newline (level : Nat) : List Char :=
  '\n' :: List.replicate (2 * level) ' '

/-- Parts between brackets, each on a line of the next level. -/
def block (level : Nat) (opening closing : Char) (parts : List (List Char)) : List Char :=
  if parts.isEmpty then
    [opening, closing]
  else
    opening :: newline (level + 1) ++ (',' :: newline (level + 1)).intercalate parts ++
      newline level ++ [closing]

mutual

/-- The value over several lines, at a level, as characters. -/
def prettyChars (level : Nat) : Json → List Char
  | arr items => block level '[' ']' (prettyItems (level + 1) items)
  | obj members => block level '\x7b' '\x7d' (prettyMembers (level + 1) members)
  | v => scalar v

/-- The items of an array at a level. -/
def prettyItems (level : Nat) : List Json → List (List Char)
  | [] => []
  | v :: vs => prettyChars level v :: prettyItems level vs

/-- The members of an object at a level. -/
def prettyMembers (level : Nat) : List (String × Json) → List (List Char)
  | [] => []
  | (k, v) :: rest => (quote k ++ ':' :: ' ' :: prettyChars level v) :: prettyMembers level rest

end

/-- The value over several lines. -/
def pretty (j : Json) : String :=
  String.ofList (j.prettyChars 0)

end Json

end DocTemplate
