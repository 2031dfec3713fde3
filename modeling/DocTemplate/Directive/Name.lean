/-!
# Names of directives

Comments call directives by name. Seven of them are built in; any other name is
open to handlers added to these.

* `toString_ofString`: a name is read as what is written so.
-/

namespace DocTemplate

/-- The name of a directive. -/
inductive DirectiveName where
  /-- Keeps a paragraph under a condition. -/
  | displayParagraphIf
  /-- Keeps a paragraph unless a value is null. -/
  | displayParagraphIfPresent
  /-- Keeps a row under a condition. -/
  | displayTableRowIf
  /-- Keeps a table under a condition. -/
  | displayTableIf
  /-- Repeats blocks for the items of a list. -/
  | repeatParagraph
  /-- Replaces the text that the comment encloses. -/
  | replaceWordWith
  /-- Fills a table. -/
  | resolveTable
  /-- Any other directive. -/
  | custom (name : String)
  deriving DecidableEq, Repr, Inhabited

namespace DirectiveName

/-- The name that is written so. -/
def ofString : String → DirectiveName
  | "displayParagraphIf" => displayParagraphIf
  | "displayParagraphIfPresent" => displayParagraphIfPresent
  | "displayTableRowIf" => displayTableRowIf
  | "displayTableIf" => displayTableIf
  | "repeatParagraph" => repeatParagraph
  | "replaceWordWith" => replaceWordWith
  | "resolveTable" => resolveTable
  | name => custom name

/-- The name as it is written. -/
protected def toString : DirectiveName → String
  | displayParagraphIf => "displayParagraphIf"
  | displayParagraphIfPresent => "displayParagraphIfPresent"
  | displayTableRowIf => "displayTableRowIf"
  | displayTableIf => "displayTableIf"
  | repeatParagraph => "repeatParagraph"
  | replaceWordWith => "replaceWordWith"
  | resolveTable => "resolveTable"
  | custom name => name

/-- Whether the directive is not built in. -/
def isCustom : DirectiveName → Bool
  | custom _ => true
  | _ => false

@[simp] theorem toString_ofString (s : String) : (ofString s).toString = s := by
  unfold ofString
  split <;> rfl

end DirectiveName

end DocTemplate
