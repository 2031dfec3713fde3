import DocTemplate.Calendar.Date
import DocTemplate.Number.Binary

/-!
# Values

The data a template is filled from, and what expressions evaluate to: null,
truth values, integers, numbers, texts, dates, and lists and maps of values. A
`Grid` is tabular data, for the tables of a document.

The entries of a map are in the order of their keys, without repetition;
`Value.ofEntries` builds such maps. Values are equal (`==`) when they are of
one kind and have the same content; numbers compare as numbers do, so zero
equals negative zero and no number that is not a number equals anything.
-/

namespace DocTemplate

/-- The classification of values. `any` is not the kind of a value: a function
    declares it for a parameter that takes every value. -/
inductive Kind where
  | any | null | bool | int | float | string | list | map | date | dateTime | table
  deriving DecidableEq, Repr

namespace Kind

/-- Every kind, in the order of their declaration. -/
def all : List Kind :=
  [any, null, bool, int, float, string, list, map, date, dateTime, table]

/-- The name of a kind. -/
def name : Kind → String
  | any => "any"
  | null => "null"
  | bool => "bool"
  | int => "int"
  | float => "float"
  | string => "string"
  | list => "list"
  | map => "map"
  | date => "date"
  | dateTime => "datetime"
  | table => "table"

/-- The kind of a name. -/
def ofName? (s : String) : Option Kind :=
  all.find? fun k => k.name == s

/-- The names of some kinds, separated by commas. -/
def names (kinds : List Kind) : String :=
  ", ".intercalate (kinds.map name)

end Kind

/-- Tabular data: the headers of the columns, and the rows of texts. -/
structure Grid where
  /-- The headers; their number is the number of columns. -/
  headers : List String
  /-- The rows, each of any length. -/
  records : List (List String)
  deriving DecidableEq, Repr

/-- The number of columns. -/
def Grid.columnCount (g : Grid) : Nat :=
  g.headers.length

/-- A value. -/
inductive Value where
  | null
  | bool (b : Bool)
  | int (n : Int64)
  | float (x : Float)
  | string (s : String)
  | list (items : List Value)
  | map (entries : List (String × Value))
  | date (d : Date)
  | dateTime (dt : DateTime)
  | table (g : Grid)
  deriving Inhabited

namespace Value

/-- The kind of the value. -/
def kind : Value → Kind
  | null => .null
  | bool _ => .bool
  | int _ => .int
  | float _ => .float
  | string _ => .string
  | list _ => .list
  | map _ => .map
  | date _ => .date
  | dateTime _ => .dateTime
  | table _ => .table

/-- Whether the value is null. -/
def isNull : Value → Bool
  | null => true
  | _ => false

/-- The truth value, of such a value. -/
def asBool? : Value → Option Bool
  | bool b => some b
  | _ => none

/-- The text, of a text. -/
def asString? : Value → Option String
  | string s => some s
  | _ => none

/-- The number, of a number or an integer. -/
def asFloat? : Value → Option Float
  | int n => some (Number.ofInteger n.toInt)
  | float x => some x
  | _ => none

/-- The value of a key, in a map that has the key. -/
def get? : Value → String → Option Value
  | map entries, key => entries.lookup key
  | _, _ => none

/-- The entries of a map with one more, in place of the one with the same key. -/
def insertEntry (key : String) (value : Value) : List (String × Value) → List (String × Value)
  | [] => [(key, value)]
  | (k, v) :: rest =>
    if key = k then (key, value) :: rest
    else if key < k then (key, value) :: (k, v) :: rest
    else (k, v) :: insertEntry key value rest

/-- The map of some entries; of those with one key the last is taken. -/
def ofEntries (entries : List (String × Value)) : Value :=
  map (entries.foldl (fun acc (k, v) => insertEntry k v acc) [])

/-- The value as one of the given kind: of that kind already, or null, or an
    integer where a number is wanted. -/
def coerce? (v : Value) : Kind → Option Value
  | .any => some v
  | kind =>
    match kind, v with
    | _, null => some null
    | .float, int n => some (float (Number.ofInteger n.toInt))
    | k, v => if v.kind = k then some v else none

mutual

/-- Equality of values. -/
def beq : Value → Value → Bool
  | null, null => true
  | bool a, bool b => a == b
  | int a, int b => a == b
  | float a, float b => a == b
  | string a, string b => a == b
  | list as, list bs => beqList as bs
  | map as, map bs => beqEntries as bs
  | date a, date b => a == b
  | dateTime a, dateTime b => a == b
  | table a, table b => a == b
  | _, _ => false

/-- Equality of lists of values. -/
def beqList : List Value → List Value → Bool
  | [], [] => true
  | a :: as, b :: bs => beq a b && beqList as bs
  | _, _ => false

/-- Equality of lists of entries. -/
def beqEntries : List (String × Value) → List (String × Value) → Bool
  | [], [] => true
  | (k, a) :: as, (l, b) :: bs => k == l && beq a b && beqEntries as bs
  | _, _ => false

end

instance : BEq Value := ⟨beq⟩

end Value

end DocTemplate
