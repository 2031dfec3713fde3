import DocTemplate.Directive.Handler
import DocTemplate.Document.Edit

/-!
# Conditional display

A paragraph, or the row or the table around it, is removed if a condition is
false; null counts as false. `displayParagraphIfPresent` takes any value, and
removes the paragraph for null only.

Paragraphs are removed first, then rows, then tables. What is no longer there by
then needs no removal, and is not counted.
-/

namespace DocTemplate

namespace Display

/-- The truth of the argument. -/
def condition (i : Instruction) : Except Error Bool :=
  match i.arg with
  | .bool b => .ok b
  | .null => .ok false
  | _ => .error (i.badArgument "bool")

/-- The cell of the site, or else an error. -/
def cell (i : Instruction) (otherwise : Misplacement) : Except Error CellPosition :=
  i.site.cell.elim (.error (i.misplaced otherwise)) .ok

/-- The removal that an instruction asks for. -/
def accept (_settings : Settings) (i : Instruction) : Except Error (Option Edit) :=
  match i.name with
  | .displayParagraphIf => do
    return if ← condition i then none else some (.removeParagraph i.site.paragraph)
  | .displayParagraphIfPresent =>
    .ok (if i.arg.isNull then some (.removeParagraph i.site.paragraph) else none)
  | .displayTableRowIf => do
    let position ← cell i .notInRow
    return if ← condition i then none else some (.removeRow position.row)
  | .displayTableIf => do
    let position ← cell i .notInTable
    return if ← condition i then none else some (.removeTable position.table)
  | _ => .ok none

/-- The removal of a paragraph that is still there. -/
def removeParagraph : Edit → Revision Unit
  | .removeParagraph id => do
    if (← Revision.edit? fun doc => doc.removeBlock? id).isSome then
      Revision.count fun r => { r with paragraphsRemoved := r.paragraphsRemoved + 1 }
  | _ => pure ()

/-- The removal of a row that is still there. -/
def removeRow : Edit → Revision Unit
  | .removeRow id => do
    if (← Revision.edit? fun doc => doc.removeRow? id).isSome then
      Revision.count fun r => { r with rowsRemoved := r.rowsRemoved + 1 }
  | _ => pure ()

/-- The removal of a table that is still there. -/
def removeTable : Edit → Revision Unit
  | .removeTable id => do
    if (← Revision.edit? fun doc => doc.removeBlock? id).isSome then
      Revision.count fun r => { r with tablesRemoved := r.tablesRemoved + 1 }
  | _ => pure ()

/-- All removals. -/
def commit (_filler : Filler) (edits : List Edit) : Revision Unit := do
  edits.forM removeParagraph
  edits.forM removeRow
  edits.forM removeTable

end Display

/-- The handler of conditional display. -/
def Handler.display : Handler where
  signatures :=
    [("displayParagraphIf", 1), ("displayParagraphIfPresent", 1), ("displayTableRowIf", 1),
      ("displayTableIf", 1)]
  accept := Display.accept
  commit := Display.commit

end DocTemplate
