import DocTemplate.Document.Basic
import DocTemplate.Settings.Basic

/-!
# Cleaning up

Three passes around the filling of a document, each of which the settings may
switch off. Before it, language tags and proofing marks are dropped, and then
neighbouring runs of one style are merged, so that placeholders are not spread
over more runs than they look. After it, notes to which the body no longer
refers are dropped.
-/

namespace DocTemplate

namespace RunItem

/-- The items with another one at the end, which joins a text that is there. -/
def pushJoined (items : List RunItem) (item : RunItem) : List RunItem :=
  match items.getLast?, item with
  | some (.text s), .text t => items.dropLast ++ [.text (s ++ t)]
  | _, item => items ++ [item]

end RunItem

namespace Paragraph

/-- The items with another one at the end; a run joins a run of the same style
    that is there. -/
def pushMerged (items : List Inline) (item : Inline) : List Inline :=
  match items.getLast?, item with
  | some (.run last), .run r =>
    if last.style = r.style then
      let content := r.content.foldl RunItem.pushJoined last.content
      items.dropLast ++ [.run { last with content }]
    else
      items ++ [item]
  | _, item => items ++ [item]

variable (p : Paragraph)

/-- The paragraph with neighbouring runs of one style merged into the first of
    them. -/
def mergeRuns : Paragraph :=
  { p with content := p.content.foldl pushMerged [] }

/-- The number of runs that merging takes away. -/
def mergedCount : Nat :=
  p.content.length - p.mergeRuns.content.length

/-- The paragraph without language tags and proofing marks. -/
def stripLanguage : Paragraph :=
  { p with
    content := (p.content.filter fun item => !item.isProof).map
      (Inline.mapRun fun r => { r with style := r.style.withoutLang })
    style := { p.style with markStyle := p.style.markStyle.withoutLang } }

/-- The items of all runs, in reading order. -/
def runItems : List RunItem :=
  p.runs.flatMap Run.content

end Paragraph

/-- The note without language tags and proofing marks. -/
def Note.stripLanguage (n : Note) : Note :=
  { n with content := n.content.map Paragraph.stripLanguage }

namespace Document

variable (doc : Document)

/-- The document without language tags and proofing marks. -/
def stripLanguage : Document :=
  { doc.mapParagraphs Paragraph.stripLanguage with
    footnotes := doc.footnotes.map Note.stripLanguage
    endnotes := doc.endnotes.map Note.stripLanguage }

/-- The document with neighbouring runs of one style merged, and the number of
    runs that this takes away. -/
def mergeRuns : Document × Nat :=
  (doc.mapParagraphs Paragraph.mergeRuns, doc.paragraphs.foldl (fun n p => n + p.mergedCount) 0)

/-- The items of all runs of the body, in reading order. -/
def runItems : List RunItem :=
  doc.paragraphs.flatMap Paragraph.runItems

/-- The document without the ordinary notes that the body does not refer to, and
    the number of these. -/
def removeOrphanNotes : Document × Nat :=
  let items := doc.runItems
  let footnotes := doc.footnotes.filter fun n => n.kind ≠ .normal || items.contains (.footnote n.id)
  let endnotes := doc.endnotes.filter fun n => n.kind ≠ .normal || items.contains (.endnote n.id)
  ({ doc with footnotes, endnotes },
    doc.footnotes.length + doc.endnotes.length - footnotes.length - endnotes.length)

/-- The document as it is before its placeholders are filled, and the number of
    runs merged away. -/
def prepare (settings : Settings) : Document × Nat :=
  let doc := if settings.stripLanguage then doc.stripLanguage else doc
  if settings.mergeRuns then doc.mergeRuns else (doc, 0)

/-- The document as it is at the end, and the number of notes removed. -/
def finish (settings : Settings) : Document × Nat :=
  if settings.removeOrphanNotes then doc.removeOrphanNotes else (doc, 0)

end Document

end DocTemplate
