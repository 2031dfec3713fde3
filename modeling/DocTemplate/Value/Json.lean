import DocTemplate.Json.Reader
import DocTemplate.Value.Basic

/-!
# Values from JSON

JSON without types of its own: an object is a map, in which the last of several
members with one name counts. An integer beyond the range of integer values
becomes a number. Every part has to be readable.
-/

namespace DocTemplate

namespace Value

mutual

/-- The value of a JSON value. -/
def ofJson? : Json → Option Value
  | .null => some null
  | .bool b => some (bool b)
  | .int n => some <|
    if Int64.minValue.toInt ≤ n ∧ n ≤ Int64.maxValue.toInt then int (Int64.ofInt n)
    else float (Number.ofInteger n)
  | .float x => some (float x)
  | .str s => some (string s)
  | .arr items => (ofItems? items).map list
  | .obj members => (ofMembers? members).map ofEntries
  | .unreadable => none

/-- The values of the items of an array. -/
def ofItems? : List Json → Option (List Value)
  | [] => some []
  | j :: js =>
    match ofJson? j with
    | some v => (ofItems? js).map (v :: ·)
    | none => none

/-- The entries of the members of an object. -/
def ofMembers? : List (String × Json) → Option (List (String × Value))
  | [] => some []
  | (k, j) :: rest =>
    match ofJson? j with
    | some v => (ofMembers? rest).map ((k, v) :: ·)
    | none => none

end

/-- The value of a JSON text. -/
def ofText? (s : String) : Option Value :=
  (Json.read? s).bind ofJson?

end Value

end DocTemplate
