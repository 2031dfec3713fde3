import DocTemplate.Comment.Removal
import DocTemplate.Directive.Handler
import DocTemplate.Document.Edit
import DocTemplate.Document.Numbering

/-!
# Repetition

The blocks in the region of the comment are a template for the items of a list:
each item gets a copy of them, without anchors of comments, and with its
placeholders filled in the scope of the item. The copies take the place of the
template. Null stands for the empty list.

A section of the document ends at a paragraph. If the template ends an odd
number of sections, every copy but the last ends with the section break of the
paragraph before the template, so that the next copy starts in the same layout.
-/

namespace DocTemplate

namespace Repetition

/-- The repetition that an instruction asks for. -/
def accept (_settings : Settings) (i : Instruction) : Except Error (Option Edit) :=
  match i.arg with
  | .list items => .ok (some (.repeatBlocks i items))
  | .null => .ok (some (.repeatBlocks i []))
  | _ => .error (i.badArgument "list")

/-- The section break that all copies but the last end with. -/
def restoredBreak (region : Region) : Option SectionLayout :=
  if region.hasOddBreaks then region.precedingBreak else none

/-- The blocks, the last of which ends a section if it is a paragraph. -/
def endWith (layout : SectionLayout) (blocks : List Block) : List Block :=
  match blocks.getLast? with
  | some (.paragraph p) =>
    blocks.dropLast ++ [.paragraph { p with style := { p.style with sectionBreak := some layout } }]
  | _ => blocks

/-- A copy of the template for an item. -/
def copy (filler : Filler) (template : List Block) (item : Value) : Revision (List Block) := do
  let blocks ← Revision.edit fun doc => doc.numberBlocks (template.map Block.withoutAnchors)
  let (blocks, tally) ← filler.fillBlocks item blocks
  Revision.count fun r => r.addExpressions tally.resolved tally.recovered
  return blocks

/-- The copies of the template for the items, in order. -/
def copies (filler : Filler) (template : List Block) (layout : Option SectionLayout) :
    (items : List Value) → Revision (List Block)
  | [] => return []
  | [item] => copy filler template item
  | item :: items => do
    let blocks ← copy filler template item
    let blocks := layout.elim blocks fun layout => endWith layout blocks
    return blocks ++ (← copies filler template layout items)

/-- One repetition. Blocks of the region that are gone are not part of the
    template; if all are gone, there is nothing to replace. -/
def perform (filler : Filler) : Edit → Revision Unit
  | .repeatBlocks i items => do
    let template := i.site.region.attached (← Revision.document)
    let generated ← copies filler template (restoredBreak i.site.region) items
    -- Without a template there is no place for the copies, all of them empty.
    unless template.isEmpty do
      let replaced ← Revision.edit? fun doc => doc.replaceBlocks? (template.map Block.id) generated
      match replaced with
      | none =>
        throw (.misplaced DirectiveName.repeatParagraph.toString i.site.paragraphText .scattered)
      | some _ => Revision.count fun r =>
        { r with blocksRepeated := r.blocksRepeated + UInt32.ofNat generated.length }
  | _ => pure ()

/-- All repetitions. -/
def commit (filler : Filler) (edits : List Edit) : Revision Unit :=
  edits.forM (perform filler)

end Repetition

/-- The handler of repetition. -/
def Handler.repetition : Handler where
  signatures := [("repeatParagraph", 1)]
  defers name := name == "repeatParagraph"
  accept := Repetition.accept
  commit := Repetition.commit

end DocTemplate
