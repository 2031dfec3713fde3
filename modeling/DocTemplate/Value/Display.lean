import DocTemplate.Value.Basic
import DocTemplate.Calendar.Pattern
import DocTemplate.Number.Notation

/-!
# Values as text

The text of a value is what a placeholder for it becomes by default. A text is
itself, without quotes, null is nothing, a list is written `[1, 2]` and a map
`{a=1, b=2}`. Tabular data has no text of its own but its dimensions.
-/

namespace DocTemplate

namespace Value

mutual

/-- The value as text. -/
def text : Value → String
  | null => ""
  | bool b => if b then "true" else "false"
  | int n => toString n.toInt
  | float x => Number.text x
  | string s => s
  | list items => "[" ++ ", ".intercalate (itemTexts items) ++ "]"
  | map entries => "\x7b" ++ ", ".intercalate (entryTexts entries) ++ "\x7d"
  | date d => d.text
  | dateTime dt => dt.text
  | table g => "table[" ++ toString g.records.length ++ "x" ++ toString g.headers.length ++ "]"

/-- The texts of the items of a list. -/
def itemTexts : List Value → List String
  | [] => []
  | v :: vs => text v :: itemTexts vs

/-- The texts of the entries of a map. -/
def entryTexts : List (String × Value) → List String
  | [] => []
  | (k, v) :: rest => (k ++ "=" ++ text v) :: entryTexts rest

end

end Value

end DocTemplate
