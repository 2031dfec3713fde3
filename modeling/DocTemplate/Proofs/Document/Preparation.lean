import DocTemplate.Placeholder.Delimiters
import DocTemplate.Proofs.Document.Merging
import DocTemplate.Proofs.Document.Relation

/-!
# Prepared documents

Before its placeholders are filled, a document loses language tags and proofing marks, and then its
runs are merged. The order matters: runs that differ in their language only, or have a proofing
mark between them, can be merged once these are gone. Merging brings none of them back, as a merged
run has the style of one of its parts (`Paragraph.IsStripped.mergeRuns`). So what is prepared once
is as it should be, and need not be prepared again.

* `Paragraph.isStripped_stripLanguage`, `Paragraph.IsStripped.stripLanguage_eq`: a paragraph that
  has lost its language tags;
* `Document.mapParagraphs_eq_self`: a document whose paragraphs do not change;
* `Document.prepare_eq_self`: a document that is as it should be;
* `Document.prepare_settles`: what is prepared is such a document, and has the same texts.
-/

namespace DocTemplate

/-! ## Paragraphs -/

namespace Paragraph

/-- There are no language tags and no proofing marks in the paragraph. -/
structure IsStripped (p : Paragraph) : Prop where
  markLang : p.style.markStyle.lang = none
  runLang (r : Run) : .run r ∈ p.content → r.style.lang = none
  proof (mark : ProofMark) : .proof mark ∉ p.content

variable {p : Paragraph} {items : List Inline} {item : Inline} {r : Run}

theorem isStripped_stripLanguage (p : Paragraph) : p.stripLanguage.IsStripped where
  markLang := rfl
  runLang r hr := by
    obtain ⟨item, -, hitem⟩ := List.mem_map.1 hr
    cases item with
    | run s =>
      cases hitem
      rfl
    | _ => cases hitem
  proof mark hmark := by
    obtain ⟨item, hmem, hitem⟩ := List.mem_map.1 hmark
    have hnot := (List.mem_filter.1 hmem).2
    cases item with
    | proof m => cases hnot
    | _ => cases hitem

/-- Nothing is dropped where there is nothing to drop. -/
theorem IsStripped.stripLanguage_eq (h : p.IsStripped) : p.stripLanguage = p := by
  have hfilter : p.content.filter (fun item => !item.isProof) = p.content := by
    refine List.filter_eq_self.2 fun item hitem => ?_
    cases item with
    | proof mark => exact absurd hitem (h.proof mark)
    | _ => rfl
  have hlang : ∀ style : RunStyle, style.lang = none → style.withoutLang = style := by
    rintro style hstyle
    rw [RunStyle.withoutLang, ← hstyle]
  have hruns : p.content.map (Inline.mapRun fun r => { r with style := r.style.withoutLang }) =
      p.content := by
    refine (List.map_congr_left fun item hitem => ?_).trans (List.map_id _)
    cases item with
    | run r => rw [Inline.mapRun, hlang _ (h.runLang r hitem)]; rfl
    | _ => rfl
  rw [stripLanguage, hfilter, hruns, hlang _ h.markLang]

/-- What is dropped once need not be dropped again. -/
theorem stripLanguage_stripLanguage (p : Paragraph) :
    p.stripLanguage.stripLanguage = p.stripLanguage :=
  p.isStripped_stripLanguage.stripLanguage_eq

/-- A merged run has the style of one that was there. -/
theorem exists_run_of_mem_pushMerged (h : .run r ∈ pushMerged items item) :
    ∃ s, (.run s ∈ items ∨ item = .run s) ∧ s.style = r.style := by
  rcases pushMerged_cases items item with ⟨front, last, s, rfl, rfl, hstyle, heq⟩ | ⟨-, heq⟩
  · rw [heq, List.mem_append, List.mem_singleton] at h
    rcases h with h | h
    · exact ⟨r, .inl (List.mem_append_left _ h), rfl⟩
    · cases h
      exact ⟨last, .inl (by simp), rfl⟩
  · rw [heq, List.mem_append, List.mem_singleton] at h
    exact ⟨r, h.imp_right Eq.symm, rfl⟩

/-- Merging brings back no language tags and no proofing marks. -/
theorem IsStripped.mergeRuns (h : p.IsStripped) : p.mergeRuns.IsStripped where
  markLang := h.markLang
  runLang := by
    refine List.foldlRecOn p.content pushMerged
      (motive := fun items => ∀ r, .run r ∈ items → r.style.lang = none)
      (fun _ hr => absurd hr List.not_mem_nil) ?_
    intro items hitems item hitem r hr
    obtain ⟨s, hs, hstyle⟩ := exists_run_of_mem_pushMerged hr
    rw [← hstyle]
    rcases hs with hs | rfl
    · exact hitems s hs
    · exact h.runLang s hitem
  proof mark hmark := by
    have hmem : .proof mark ∈ Inline.nonRunsOf p.mergeRuns.content := by
      simpa [Inline.nonRunsOf, Inline.isRun] using hmark
    rw [nonRunsOf_mergeRuns] at hmem
    exact h.proof mark (List.mem_filter.1 hmem).1

end Paragraph

/-! ## Notes and blocks -/

theorem Note.stripLanguage_eq_self {n : Note} (h : ∀ p ∈ n.content, p.IsStripped) :
    n.stripLanguage = n := by
  have hcontent : n.content.map Paragraph.stripLanguage = n.content :=
    (List.map_congr_left fun p hp => (h p hp).stripLanguage_eq).trans (List.map_id _)
  rw [stripLanguage, hcontent]

theorem Note.stripLanguage_stripLanguage (n : Note) :
    n.stripLanguage.stripLanguage = n.stripLanguage := by
  refine stripLanguage_eq_self fun p hp => ?_
  obtain ⟨q, -, rfl⟩ := List.mem_map.1 hp
  exact q.isStripped_stripLanguage

/-- The texts of the paragraphs of a note, with its number and its role. -/
def Note.texts (n : Note) : NoteId × NoteKind × List String :=
  (n.id, n.kind, n.content.map Paragraph.text)

theorem Note.texts_stripLanguage (n : Note) : n.stripLanguage.texts = n.texts := by
  have htext : ∀ p : Paragraph, p.stripLanguage.text = p.text := fun p =>
    p.tidied_stripLanguage.text
  simp [texts, stripLanguage, Function.comp_def, htext]

/-- A block is as it is if its paragraphs do not change. -/
theorem Block.mapParagraphs_eq_self {f : Paragraph → Paragraph} {b : Block}
    (h : ∀ p ∈ b.paragraphs, f p = p) : b.mapParagraphs f = b := by
  have hrelated : b.Related Eq (fun p q => f p = q) (b.mapParagraphs f) :=
    related_mapParagraphs (fun _ => rfl) (fun _ => rfl) b
  exact (hrelated.imp_of_mem fun p hp q hq => (h p hp).symm.trans hq).eq.symm

/-! ## Documents -/

namespace Document

variable {doc : Document} {s : Settings}

/-- The paragraphs of the footnotes and the endnotes. -/
def noteParagraphs (doc : Document) : List Paragraph :=
  (doc.footnotes ++ doc.endnotes).flatMap Note.content

/-- No two neighbours in a paragraph of the body are runs of one style. -/
def IsMerged (doc : Document) : Prop :=
  ∀ p ∈ doc.paragraphs, p.IsMerged

/-- There are no language tags and no proofing marks in the body and the notes. -/
def IsStripped (doc : Document) : Prop :=
  ∀ p ∈ doc.paragraphs ++ doc.noteParagraphs, p.IsStripped

/-- A document is as it is if the paragraphs of its body do not change. -/
theorem mapParagraphs_eq_self {f : Paragraph → Paragraph} (h : ∀ p ∈ doc.paragraphs, f p = p) :
    doc.mapParagraphs f = doc := by
  have hbody : doc.body.map (Block.mapParagraphs f) = doc.body := by
    refine (List.map_congr_left fun b hb => ?_).trans (List.map_id _)
    exact Block.mapParagraphs_eq_self fun p hp => h p (List.mem_flatMap.2 ⟨b, hb, hp⟩)
  rw [mapParagraphs, hbody]

theorem mapParagraphs_id (doc : Document) : doc.mapParagraphs (fun p => p) = doc :=
  mapParagraphs_eq_self fun _ _ => rfl

/-! ### Each pass -/

theorem isStripped_stripLanguage (doc : Document) : doc.stripLanguage.IsStripped := by
  intro p hp
  rcases List.mem_append.1 hp with hp | hp
  · have hparagraphs : doc.stripLanguage.paragraphs = doc.paragraphs.map Paragraph.stripLanguage :=
      doc.paragraphs_mapParagraphs _
    rw [hparagraphs] at hp
    obtain ⟨q, -, rfl⟩ := List.mem_map.1 hp
    exact q.isStripped_stripLanguage
  · rw [noteParagraphs, stripLanguage, ← List.map_append] at hp
    obtain ⟨n, hn, hp⟩ := List.mem_flatMap.1 hp
    obtain ⟨n, -, rfl⟩ := List.mem_map.1 hn
    obtain ⟨q, -, rfl⟩ := List.mem_map.1 hp
    exact q.isStripped_stripLanguage

theorem IsStripped.stripLanguage_eq (h : doc.IsStripped) : doc.stripLanguage = doc := by
  have hbody : doc.mapParagraphs Paragraph.stripLanguage = doc :=
    mapParagraphs_eq_self fun p hp => (h p (List.mem_append_left _ hp)).stripLanguage_eq
  have hnotes : ∀ notes : List Note, notes ⊆ doc.footnotes ++ doc.endnotes →
      notes.map Note.stripLanguage = notes := by
    intro notes hnotes
    refine (List.map_congr_left fun n hn => ?_).trans (List.map_id _)
    refine Note.stripLanguage_eq_self fun p hp => h p (List.mem_append_right _ ?_)
    exact List.mem_flatMap.2 ⟨n, hnotes hn, hp⟩
  rw [stripLanguage, hbody, hnotes _ (List.subset_append_left _ _),
    hnotes _ (List.subset_append_right _ _)]

theorem isMerged_mergeRuns (doc : Document) : doc.mergeRuns.1.IsMerged := by
  intro p hp
  rw [mergeRuns, paragraphs_mapParagraphs] at hp
  obtain ⟨q, -, rfl⟩ := List.mem_map.1 hp
  exact q.isMerged_mergeRuns

theorem IsMerged.mergeRuns_eq (h : doc.IsMerged) : doc.mergeRuns = (doc, 0) := by
  have hbody : doc.mapParagraphs Paragraph.mergeRuns = doc :=
    mapParagraphs_eq_self fun p hp => Paragraph.mergeRuns_eq_self_iff.2 (h p hp)
  have hcount : doc.paragraphs.foldl (fun n p => n + p.mergedCount) 0 =
      doc.paragraphs.foldl (fun n _ => n) 0 :=
    List.foldl_ext _ _ _ fun n p hp => by rw [(h p hp).mergedCount_eq_zero, Nat.add_zero]
  rw [mergeRuns, hbody, hcount, List.foldl_fixed]

/-- Merging is about the body only, and brings back nothing there. -/
theorem IsStripped.mergeRuns (h : doc.IsStripped) : doc.mergeRuns.1.IsStripped := by
  intro p hp
  rcases List.mem_append.1 hp with hp | hp
  · rw [Document.mergeRuns, paragraphs_mapParagraphs] at hp
    obtain ⟨q, hq, rfl⟩ := List.mem_map.1 hp
    exact (h q (List.mem_append_left _ hq)).mergeRuns
  · exact h p (List.mem_append_right _ hp)

/-! ### All passes -/

theorem isMerged_prepare (doc : Document) (hmerge : s.mergeRuns = true) :
    (doc.prepare s).1.IsMerged := by
  simp only [prepare, hmerge, if_true]
  exact isMerged_mergeRuns _

theorem isStripped_prepare (doc : Document) (hstrip : s.stripLanguage = true) :
    (doc.prepare s).1.IsStripped := by
  simp only [prepare, hstrip, if_true]
  split
  · exact doc.isStripped_stripLanguage.mergeRuns
  · exact doc.isStripped_stripLanguage

/-- A document that is as it should be is left as it is. -/
theorem prepare_eq_self (hmerged : s.mergeRuns = true → doc.IsMerged)
    (hstripped : s.stripLanguage = true → doc.IsStripped) : doc.prepare s = (doc, 0) := by
  have hstrip : (if s.stripLanguage then doc.stripLanguage else doc) = doc := by
    split
    · next hs => exact (hstripped hs).stripLanguage_eq
    · rfl
  rw [prepare, hstrip]
  split
  · next hs => exact (hmerged hs).mergeRuns_eq
  · rfl

/-! ### Texts -/

/-- The paragraphs of the body and of the notes have the same texts, and the comments are the
    same. -/
structure SameTexts (doc doc' : Document) : Prop where
  paragraphs : doc'.paragraphs.map Paragraph.text = doc.paragraphs.map Paragraph.text
  footnotes : doc'.footnotes.map Note.texts = doc.footnotes.map Note.texts
  endnotes : doc'.endnotes.map Note.texts = doc.endnotes.map Note.texts
  comments : doc'.comments = doc.comments

namespace SameTexts

variable {doc' doc'' : Document}

theorem refl (doc : Document) : doc.SameTexts doc := ⟨rfl, rfl, rfl, rfl⟩

theorem trans (h : doc.SameTexts doc') (h' : doc'.SameTexts doc'') : doc.SameTexts doc'' :=
  ⟨h'.paragraphs.trans h.paragraphs, h'.footnotes.trans h.footnotes,
    h'.endnotes.trans h.endnotes, h'.comments.trans h.comments⟩

/-- What depends on the text of a paragraph is the same, in the body and in the notes. -/
theorem map_eq {α : Type} (h : doc.SameTexts doc') (f : String → α) :
    (doc'.paragraphs ++ doc'.noteParagraphs).map (fun p => f p.text) =
      (doc.paragraphs ++ doc.noteParagraphs).map fun p => f p.text := by
  have hnotes : ∀ doc : Document, doc.noteParagraphs.map Paragraph.text =
      (doc.footnotes.map Note.texts ++ doc.endnotes.map Note.texts).flatMap fun x => x.2.2 := by
    intro doc
    rw [noteParagraphs, List.map_flatMap, ← List.map_append, List.flatMap_map]
    rfl
  have htexts : (doc'.paragraphs ++ doc'.noteParagraphs).map Paragraph.text =
      (doc.paragraphs ++ doc.noteParagraphs).map Paragraph.text := by
    rw [List.map_append, List.map_append, hnotes, hnotes, h.paragraphs, h.footnotes, h.endnotes]
  simpa [Function.comp_def] using congrArg (List.map f) htexts

end SameTexts

theorem sameTexts_stripLanguage (doc : Document) : doc.SameTexts doc.stripLanguage where
  paragraphs := doc.tidied_stripLanguage.map_paragraphs fun _ _ h => h.text
  footnotes := by simp [stripLanguage, Function.comp_def, Note.texts_stripLanguage]
  endnotes := by simp [stripLanguage, Function.comp_def, Note.texts_stripLanguage]
  comments := rfl

theorem sameTexts_mergeRuns (doc : Document) : doc.SameTexts doc.mergeRuns.1 where
  paragraphs := (Tidied.of_mapParagraphs Paragraph.tidied_mergeRuns doc).map_paragraphs
    fun _ _ h => h.text
  footnotes := rfl
  endnotes := rfl
  comments := rfl

theorem sameTexts_prepare (doc : Document) (s : Settings) : doc.SameTexts (doc.prepare s).1 := by
  have hstrip : doc.SameTexts (if s.stripLanguage then doc.stripLanguage else doc) := by
    split
    · exact doc.sameTexts_stripLanguage
    · exact .refl doc
  rw [prepare]
  split
  · exact hstrip.trans (sameTexts_mergeRuns _)
  · exact hstrip

/-- What is prepared need not be prepared again: it is merged and stripped as the settings have it.
    It has the texts that it had, and so the same placeholders. -/
theorem prepare_settles (doc : Document) (s : Settings) :
    (doc.prepare s).1.prepare s = ((doc.prepare s).1, 0) ∧
      (s.mergeRuns = true → (doc.prepare s).1.IsMerged) ∧
      (s.stripLanguage = true → (doc.prepare s).1.IsStripped) ∧
      doc.SameTexts (doc.prepare s).1 ∧
      ∀ d : Delimiters, ((doc.prepare s).1.paragraphs ++ (doc.prepare s).1.noteParagraphs).map
        (fun p => d.scan p.text) =
          (doc.paragraphs ++ doc.noteParagraphs).map fun p => d.scan p.text :=
  ⟨prepare_eq_self doc.isMerged_prepare doc.isStripped_prepare, doc.isMerged_prepare,
    doc.isStripped_prepare, doc.sameTexts_prepare s, fun d => (doc.sameTexts_prepare s).map_eq d.scan⟩

/-- A placeholder in a cell, in two runs that differ in their language and have a proofing mark
    between them, and a footnote in another language. -/
def multilingual : Document where
  body := [.table { id := 1, rows := [⟨2, [{ content := [.paragraph {
    id := 3
    content := [.run (.ofText "$\x7bna" { lang := some "en-GB" }), .proof .spellStart,
      .run (.ofText "me\x7d" { lang := some "de-DE" })] }] }]⟩] }]
  footnotes := [{ id := 1, content := [{
    content := [.run (.ofText "sic" { lang := some "la" })]
    style := { markStyle := { lang := some "la" } } }] }]

theorem prepare_settles_multilingual :
    (multilingual.prepare {}).2 = 1 ∧ ¬ multilingual.stripLanguage.IsMerged ∧
      (multilingual.prepare {}).1.paragraphs = [{ Paragraph.ofText "$\x7bname\x7d" with id := 3 }] ∧
      (multilingual.prepare {}).1.prepare {} = ((multilingual.prepare {}).1, 0) ∧
      (multilingual.prepare {}).1.IsMerged ∧ (multilingual.prepare {}).1.IsStripped ∧
      multilingual.SameTexts (multilingual.prepare {}).1 := by
  have hnot : ¬ multilingual.stripLanguage.IsMerged := fun h =>
    absurd (h _ List.mem_cons_self) (by decide)
  obtain ⟨hagain, hmerged, hstripped, htexts, -⟩ := multilingual.prepare_settles {}
  exact ⟨rfl, hnot, by decide +kernel, hagain, hmerged rfl, hstripped rfl, htexts⟩

end Document

end DocTemplate
