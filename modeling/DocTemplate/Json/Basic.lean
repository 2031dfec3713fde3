/-!
# JSON values

The values of RFC 8259. An object keeps its members in the order they are
written, repeated names included, so what a repetition means is left to the
reader of the object. An integer that fits sixty-four bits, with or without a
sign, stays an integer; every other number is a binary floating-point number.

A text may keep to the grammar and still have parts that stand for no value: a
number that is too large, half of a surrogate pair, brackets within too many
others. Such a part is `unreadable`. It does no harm where nobody looks at it,
and no reader of a value takes it for one.
-/

namespace DocTemplate

/-- A JSON value. -/
inductive Json where
  | null
  | bool (b : Bool)
  | int (n : Int)
  | float (x : Float)
  | str (s : String)
  | arr (items : List Json)
  | obj (members : List (String × Json))
  /-- What is written by the rules and stands for no value. -/
  | unreadable
  deriving Inhabited

namespace Json

/-- The text, of a text. -/
def str? : Json → Option String
  | str s => some s
  | _ => none

/-- The truth value, of such a value. -/
def bool? : Json → Option Bool
  | bool b => some b
  | _ => none

/-- The integer, of an integer within the bounds. -/
def intWithin? (lower upper : Int) : Json → Option Int
  | int n => if lower ≤ n ∧ n ≤ upper then some n else none
  | _ => none

/-- The items, of an array. -/
def arr? : Json → Option (List Json)
  | arr items => some items
  | _ => none

/-- The value, if there is one. -/
def orUnreadable : Option Json → Json
  | some j => j
  | none => unreadable

mutual

/-- Whether every part is a value. -/
def isReadable : Json → Bool
  | unreadable => false
  | arr items => areReadable items
  | obj members => areReadableMembers members
  | _ => true

/-- Whether every part of the items of an array is a value. -/
def areReadable : List Json → Bool
  | [] => true
  | v :: vs => isReadable v && areReadable vs

/-- Whether every part of the members of an object is a value. -/
def areReadableMembers : List (String × Json) → Bool
  | [] => true
  | (_, v) :: rest => isReadable v && areReadableMembers rest

end

/-- An optional text. -/
def ofString? : Option String → Json
  | none => null
  | some s => str s

end Json

end DocTemplate
