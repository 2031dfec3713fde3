import DocTemplate.Json.Basic

/-!
# Records, choices and options in JSON

How the parts of a document are read from JSON.

* A *record* is an object with a member for each field. Members that are no
  field are ignored, readable or not; a field must not be repeated. A record
  may also be an array of all its fields in order.
* A *word* is one of a closed list of names. It may also be an object with the
  name as its only member, which is null.
* A *choice* has two fields, its name, which is a word, and its content. One
  without content may leave the content out. A choice may also be an array of
  its name, as a text, and its content.
* An *option* is a field that may be absent or null.

A part is read in one of two ways (`Access`). Where it is known what a part is,
it is read directly, field by field. Where this is known only later, as for the
content of a choice written before its name, the part is first held as a whole.
Then all of it has to be readable, and it is read with more tolerance: the null
of a word may be an object without members, and the name of a choice in an
array may be its place among the names.
-/

namespace DocTemplate

namespace Json

/-- How a part is read. -/
inductive Access where
  /-- It is known what the part is. -/
  | direct
  /-- The part was held until it was known what it is. -/
  | held
  deriving DecidableEq, Repr

/-- The fields of a record in their order, `none` for each absent one. -/
def fields? (names : List String) : Json → Option (List (Option Json))
  | obj members =>
    if names.all fun name => (members.filter fun m => m.1 == name).length ≤ 1 then
      some (names.map fun name => members.lookup name)
    else
      none
  | arr items => if items.length = names.length then some (items.map some) else none
  | _ => none

/-- The fields of a record that may lack some at the end, also as an array. -/
def leadingFields? (names : List String) : Json → Option (List (Option Json))
  | arr items =>
    if items.length ≤ names.length then
      some (items.map some ++ List.replicate (names.length - items.length) none)
    else
      none
  | j => fields? names j

/-- The part, if it can be held. -/
def hold? (j : Json) : Option Json :=
  if j.isReadable then some j else none

/-- The name that a word is. -/
def word? : Access → Json → Option String
  | _, str s => some s
  | _, obj [(s, null)] => some s
  | .held, obj [(s, obj [])] => some s
  | _, _ => none

/-- The element of a list with the name that a word is. -/
def oneOf? {α : Type} (access : Access) (all : List α) (name : α → String) (j : Json) : Option α :=
  (word? access j).bind fun s => all.find? fun a => name a == s

/-- A name in an array: a text, or the place among some names. -/
def nameOrPlace? (names : List String) : Access → Json → Option String
  | _, str s => some s
  | .held, int n => if 0 ≤ n then names[n.toNat]? else none
  | _, _ => none

/-- Whether one member of an object comes before another one. -/
def precedes (first second : String) : Json → Bool
  | obj members => ((members.map Prod.fst).find? fun k => k == first || k == second) == some first
  | _ => false

/-- A choice among some names: its name, its content, and how the content is
    read. -/
def choice? (access : Access) (names : List String) (nameField contentField : String) (j : Json) :
    Option (String × Access × Option Json) := do
  let [some name, content] ← fields? [nameField, contentField] j | none
  match j with
  | arr _ => return (← nameOrPlace? names access name, access, content)
  | _ =>
    let name ← word? access name
    if access = .direct ∧ precedes contentField nameField j then
      return (name, .held, some (← content.bind hold?))
    else
      return (name, access, content)

/-- The name of a record of several shapes, and its other fields. -/
def shape? (access : Access) (names : List String) (nameField : String) :
    Json → Option (String × Json)
  | obj members =>
    match members.filter fun m => m.1 == nameField with
    | [(_, name)] => (nameOrPlace? names access name).map fun s =>
        (s, obj (members.filter fun m => m.1 != nameField))
    | _ => none
  | arr (name :: rest) => (nameOrPlace? names access name).map fun s => (s, arr rest)
  | _ => none

/-- A field that must be there. -/
def required? {α : Type} (read : Json → Option α) (field : Option Json) : Option α :=
  field.bind read

/-- A field that may be absent or null. -/
def option? {α : Type} (read : Json → Option α) : Option Json → Option (Option α)
  | none => some none
  | some null => some none
  | some j => (read j).map some

/-- A field with a default for when it is absent. -/
def default? {α : Type} (fallback : α) (read : Json → Option α) : Option Json → Option α
  | none => some fallback
  | some j => read j

/-- A list, item by item. -/
def list? {α : Type} (read : Json → Option α) : Json → Option (List α)
  | arr items => items.mapM read
  | _ => none

/-- A natural number of eight bits. -/
def uint8? (j : Json) : Option UInt8 :=
  (intWithin? 0 255 j).map fun n => n.toNat.toUInt8

/-- A natural number of thirty-two bits. -/
def uint32? (j : Json) : Option UInt32 :=
  (intWithin? 0 4294967295 j).map fun n => n.toNat.toUInt32

/-- A natural number of sixty-four bits. -/
def uint64? (j : Json) : Option UInt64 :=
  (intWithin? 0 18446744073709551615 j).map fun n => n.toNat.toUInt64

/-- An integer of sixty-four bits. -/
def int64? (j : Json) : Option Int64 :=
  (intWithin? (-9223372036854775808) 9223372036854775807 j).map Int64.ofInt

mutual

/-- How deep arrays and objects are nested. -/
def depth : Json → Nat
  | arr items => depthItems items + 1
  | obj members => depthMembers members + 1
  | _ => 0

/-- How deep the items of an array are nested. -/
def depthItems : List Json → Nat
  | [] => 0
  | v :: vs => max (depth v) (depthItems vs)

/-- How deep the members of an object are nested. -/
def depthMembers : List (String × Json) → Nat
  | [] => 0
  | (_, v) :: rest => max (depth v) (depthMembers rest)

end

end Json

end DocTemplate
