import DocTemplate.Proofs.Directive.Rewording
import DocTemplate.Proofs.Document.Locality
import DocTemplate.Proofs.Placeholder.LineBreak

/-!
# The range of a word

A word is replaced between the anchors of its comment only. Whatever is there, runs, anchors of
other comments and marks of proofing tools in any order: one run is left where the first one was,
with its style, and what is no run stays. The run has the text then, with line breaks where the
text has the literal for them.

* `WordReplacement.Respells`: what becomes of the items between the anchors;
* `WordReplacement.exists_perform`: the replacement of a word;
* `WordReplacement.exists_respelled`: and of others after it.
-/

namespace DocTemplate

namespace WordReplacement

/-- The first run has other content, and the other runs are gone. The style of the run is as it
    was, and so are the items that are no runs, in their order. -/
def Respells (content : List RunItem) (items items' : List Inline) : Prop :=
  ∃ left r right, items = left ++ .run r :: right ∧ (∀ item ∈ left, item.isRun = false) ∧
    items' = left ++ .run { r with content } :: Inline.nonRunsOf right

variable {f : Filler} {paragraph : NodeId} {comment : CommentId} {p : Paragraph}
  {d : Draft} {items before between after : List Inline}

theorem respells_replaceRuns (content : List RunItem) (hrun : items.any Inline.isRun) :
    Respells content items (replaceRuns content items) := by
  obtain ⟨left, r, right, rfl, hleft⟩ := exists_first_run hrun
  exact ⟨left, r, right, rfl, hleft, replaceRuns_append hleft r⟩

/-- The paragraph with other items between the anchors of a comment. -/
def withRange (p : Paragraph) (comment : CommentId) (before between after : List Inline) :
    Paragraph :=
  { p with content := before ++ .rangeStart comment :: (between ++ .rangeEnd comment :: after) }

/-- The replacement of a word is possible if there is a run between its anchors. -/
theorem exists_perform (text : String) (hp : d.document.paragraph? paragraph = some p)
    (henc : Encloses comment p.content before between after) (hrun : between.any Inline.isRun) :
    ∃ between' d', Respells (RunItem.breakLines f.settings.lineBreak text) between between' ∧
      (perform f (.replaceWord paragraph comment text)).Yields d () d' ∧
      d.document.Swaps [.paragraph p] [.paragraph (withRange p comment before between' after)]
        d'.document ∧
      d'.document.paragraph? paragraph = some (withRange p comment before between' after) ∧
      d'.report = { d.report with wordsReplaced := d.report.wordsReplaced + 1 } := by
  have hrespells := respells_replaceRuns (RunItem.breakLines f.settings.lineBreak text) hrun
  generalize hbetween' : replaceRuns (RunItem.breakLines f.settings.lineBreak text) between =
    between' at hrespells
  obtain ⟨doc, hdoc, hswaps, hq⟩ := Document.exists_swaps_modifyParagraph? hp
    (f := fun p => withRange p comment before between' after) rfl
  refine ⟨between', _, hrespells, Revision.yields_edit?_count.2 (.inl ⟨(), doc, ?_, rfl⟩), hswaps,
    hq, rfl⟩
  simp only [withRange] at hdoc
  simp [hp, henc.replaceBetween?_eq, hrun, hbetween', hdoc]

/-- The first of some words is replaced, whatever follows: between the anchors of its comment, the
    first run has the text, with a line break for each occurrence of the literal, and there is no
    other run. All else stays, and this is counted. -/
theorem exists_respelled (text : String) (hp : d.document.paragraph? paragraph = some p)
    (henc : Encloses comment p.content before between after) (hrun : between.any Inline.isRun) :
    ∃ between' d', Respells (RunItem.breakLines f.settings.lineBreak text) between between' ∧
      (∀ style, Glyph.Breaks style (f.settings.lineBreak.getD "")
        ((RunItem.text text).glyphs style)
        (RunItem.glyphsOf style (RunItem.breakLines f.settings.lineBreak text))) ∧
      d.document.Swaps [.paragraph p] [.paragraph (withRange p comment before between' after)]
        d'.document ∧
      d'.document.paragraph? paragraph = some (withRange p comment before between' after) ∧
      d'.report = { d.report with wordsReplaced := d.report.wordsReplaced + 1 } ∧
      ∀ edits, (commit f (.replaceWord paragraph comment text :: edits)).run d =
        (commit f edits).run d' := by
  obtain ⟨between', d', hrespells, hyields, hswaps, hq, hreport⟩ :=
    exists_perform (f := f) text hp henc hrun
  refine ⟨between', d', hrespells, fun style => RunItem.breaks_breakLines style _ text, hswaps, hq,
    hreport, fun edits => ?_⟩
  change (perform f _ >>= fun _ => edits.forM (perform f)).run d = _
  rw [Revision.run_bind, show (perform f _).run d = _ from hyields]
  rfl

/-- A name in several runs, among marks of a proofing tool and the end of a range. -/
def fullName : List Inline :=
  [.proof .spellStart, .run (.ofText "na" { bold := true }), .rangeEnd 2, .run (.ofText "me"),
    .proof .spellEnd, .run (.ofText "!")]

/-- A paragraph with the name under a comment. -/
def addressee : Paragraph where
  id := 9
  content := [.run (.ofText "To "), .rangeStart 2] ++ .rangeStart 1 ::
    (fullName ++ .rangeEnd 1 :: [.reference 1, .run (.ofText ".")])

/-- The paragraph in a cell. -/
def invitation : Draft where
  document := { body := [.table { id := 1, rows := [⟨2, [{ content := [.paragraph addressee] }]⟩] }] }
  report := { wordsReplaced := 4 }

theorem exists_respelled_invitation :
    invitation.document.paragraph? 9 = some addressee ∧
      Encloses 1 addressee.content [.run (.ofText "To "), .rangeStart 2] fullName
        [.reference 1, .run (.ofText ".")] ∧
      ∃ between' d', Respells [.text "Ada", .lineBreak, .text "Lovelace"] fullName between' ∧
        invitation.document.Swaps [.paragraph addressee]
          [.paragraph (withRange addressee 1 [.run (.ofText "To "), .rangeStart 2] between'
            [.reference 1, .run (.ofText ".")])] d'.document ∧
        d'.report = { wordsReplaced := 5 } ∧
        (commit .breaking [.replaceWord 9 1 "Ada<br>Lovelace"]).run invitation = (.ok (), d') := by
  have hp : invitation.document.paragraph? 9 = some addressee := rfl
  have henc : Encloses 1 addressee.content [.run (.ofText "To "), .rangeStart 2] fullName
      [.reference 1, .run (.ofText ".")] :=
    ⟨rfl, by decide, by decide, by decide⟩
  obtain ⟨between', d', hrespells, -, hswaps, -, hreport, hcommit⟩ :=
    exists_respelled (f := .breaking) "Ada<br>Lovelace" hp henc (by decide)
  have hcontent : RunItem.breakLines Filler.breaking.settings.lineBreak "Ada<br>Lovelace" =
      [.text "Ada", .lineBreak, .text "Lovelace"] := by decide +kernel
  rw [hcontent] at hrespells
  exact ⟨hp, henc, between', d', hrespells, hswaps, hreport, hcommit []⟩

end WordReplacement

end DocTemplate
