import DocTemplate.Cleanup
import DocTemplate.Comment.Removal
import DocTemplate.Document.Snapshot
import DocTemplate.Engine.Basic
import DocTemplate.Engine.Plan
import DocTemplate.Value.Json

/-!
# Filling documents

A document is filled in five steps:

1. its nodes are numbered, and it is cleaned up so that placeholders are spread
   over few runs;
2. its comments are interpreted, which gives a plan;
3. its paragraphs are visited in reading order: the placeholders of each are
   filled, unless they are deferred, and then the comments that start in it are
   dispatched;
4. the handlers commit the edits that they have accepted;
5. comments are removed, except those skipped, and so are notes without
   reference.

An error at any step is the outcome of the whole, and there is no document then.
-/

namespace DocTemplate

/-- The state of the visit to the paragraphs. -/
structure Visit where
  /-- The handlers with what they have accepted so far. -/
  desks : Desks
  /-- The comments skipped. -/
  skipped : List CommentId := []
  report : Report := {}

namespace Engine

variable (e : Engine) (filler : Filler) (scope : Value) (plan : Plan)

/-- The visit after the dispatch of a comment. -/
def dispatch (site : Site) (calls : List Call) (visit : Visit) : Except Error Visit := do
  let report := visit.report
  match ← visit.desks.dispatch e.environment e.settings scope site calls with
  | some (n, desks) =>
    return { visit with
      desks
      report := { report with directivesApplied := report.directivesApplied + UInt32.ofNat n } }
  | none =>
    return { visit with
      skipped := visit.skipped.insert site.region.id
      report := { report with directivesSkipped := report.directivesSkipped + 1 } }

/-- The paragraph with its placeholders filled, unless it is deferred. -/
def fillParagraph (p : Paragraph) : StateT Visit (Except Error) Paragraph := do
  if plan.deferred.contains p.id then
    return p
  else
    let (p, tally) ← filler.fillParagraph scope p
    modify fun v => { v with report := v.report.addExpressions tally.resolved tally.recovered }
    return p

/-- The visit to a paragraph. -/
def visit (around : List CellPosition) (p : Paragraph) : StateT Visit (Except Error) Paragraph := do
  let p ← fillParagraph filler scope plan p
  -- The comments see the text with its placeholders filled.
  for (region, calls) in plan.entriesAt p.id do
    let site : Site := ⟨region, p.id, p.text, around.head?⟩
    set (← e.dispatch scope site calls (← get))
  return p

/-- The visit to all paragraphs of a document, which gives its new body. -/
def visitAll (doc : Document) (runsMerged : Nat) : Except Error (List Block × Visit) :=
  let report : Report :=
    { runsMerged := UInt32.ofNat runsMerged
      directivesSkipped := UInt32.ofNat plan.skipped.length }
  (Block.walkAll (e.visit filler scope plan) doc.body).run
    { desks := e.registry.desks, skipped := plan.skipped, report }

/-- The draft after the edits that were accepted during a visit. -/
def commit (visit : Visit) (doc : Document) : Except Error Draft :=
  let (outcome, draft) := (visit.desks.commit filler).run ⟨doc, visit.report⟩
  outcome.map fun _ => draft

/-- The document filled in the scope of a value, and the report. -/
def fill (doc : Document) : Except Error (Document × Report) := do
  let filler ← e.filler
  -- 1. Number and clean up.
  let (doc, runsMerged) := doc.assignIds.prepare e.settings
  -- 2. Interpret the comments.
  let plan ← Plan.ofDocument e.registry e.settings doc
  -- 3. Fill the placeholders and dispatch the comments.
  let (body, visit) ← e.visitAll filler scope plan doc runsMerged
  -- 4. Edit.
  let draft ← commit filler visit { doc with body }
  -- 5. Remove what is no longer needed.
  let (doc, _) := draft.document.removeComments visit.skipped
  let (doc, notes) := doc.finish e.settings
  return (doc, { draft.report with notesRemoved := UInt32.ofNat notes })

/-- The fillings of independent documents, each with its own scope. -/
def fillBatch (jobs : List (Document × Value)) : List (Except Error (Document × Report)) :=
  jobs.map fun (doc, scope) => e.fill scope doc

/-- The filling of a document in the scope of a value, both given as JSON. -/
def fillJson (doc scope : String) : Except Error Document := do
  let doc ← Document.ofText doc
  let some scope := Value.ofText? scope | throw .badSnapshot
  let (doc, _) ← e.fill scope doc
  return doc

end Engine

end DocTemplate
