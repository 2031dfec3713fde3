import DocTemplate.Directive.Site
import DocTemplate.Placeholder.Filling
import DocTemplate.Report

/-!
# Handlers

A directive is handled in two steps. While the paragraphs of the document are
visited, the handler *accepts* each instruction: it checks it and says what edit
it asks for, but nothing changes yet. After the visit, the handler *commits* the
edits of all instructions it accepted. So edits never disturb the visit, and
what they refer to is given by number.

The commitment works on a *draft*, the document with the report on it. It may
fail, and the edits made before the failure stay in the draft (`Revision`).
-/

namespace DocTemplate

/-- An edit of the document that an instruction asks for. -/
inductive Edit where
  | removeParagraph (id : NodeId)
  | removeRow (id : NodeId)
  | removeTable (id : NodeId)
  /-- One copy of the blocks of a region for each value. -/
  | repeatBlocks (instruction : Instruction) (items : List Value)
  /-- A text between the anchors of a comment. -/
  | replaceWord (paragraph : NodeId) (comment : CommentId) (text : String)
  /-- Records in the rows of the table that the instruction is about. -/
  | fillTable (instruction : Instruction) (data : Grid)
  /-- The removal of that table. -/
  | dropTable (instruction : Instruction)
  /-- What a handler of its own makes of an instruction. -/
  | custom (instruction : Instruction)

/-- A document in the course of its edits, and the report on it. -/
structure Draft where
  document : Document := {}
  report : Report := {}
  deriving Inhabited

/-- A computation that edits a draft and may fail. -/
abbrev Revision := ExceptT Error (StateM Draft)

namespace Revision

/-- The document as it is. -/
def document : Revision Document :=
  return (← get).document

/-- A change of the report. -/
def count (f : Report → Report) : Revision Unit :=
  modify fun d => { d with report := f d.report }

/-- An edit that always succeeds. -/
def edit {α : Type} (f : Document → α × Document) : Revision α :=
  modifyGet fun d =>
    let (a, document) := f d.document
    (a, { d with document })

/-- An edit that is made if it can be, and otherwise changes nothing. -/
def edit? {α : Type} (f : Document → Option (α × Document)) : Revision (Option α) :=
  edit fun document =>
    match f document with
    | some (a, document) => (some a, document)
    | none => (none, document)

end Revision

/-- What carries out some directives. -/
structure Handler where
  /-- The names of the directives, each with the number of its arguments. -/
  signatures : List (String × Nat)
  /-- Whether the placeholders in the region of a comment with this directive
      are left to the edit. -/
  defers : String → Bool := fun _ => false
  /-- The edit that an instruction asks for, if any. -/
  accept : Settings → Instruction → Except Error (Option Edit)
  /-- The commitment of the edits, in the order of the instructions. -/
  commit : Filler → List Edit → Revision Unit

/-- The names of the directives. -/
def Handler.names (h : Handler) : List String :=
  h.signatures.map Prod.fst

/-- A handler at work, with the edits that it has accepted and not yet committed. -/
structure Desk where
  handler : Handler
  edits : List Edit := []

namespace Desk

variable (desk : Desk)

/-- The desk after one more instruction. -/
def accept (settings : Settings) (i : Instruction) : Except Error Desk := do
  let edit ← desk.handler.accept settings i
  return { desk with edits := desk.edits ++ edit.toList }

/-- The commitment of all edits. -/
def commit (filler : Filler) : Revision Unit :=
  desk.handler.commit filler desk.edits

/-- The desk without edits, as it is after they are committed. -/
def cleared : Desk :=
  { desk with edits := [] }

end Desk

end DocTemplate
