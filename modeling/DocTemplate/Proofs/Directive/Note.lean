import DocTemplate.Proofs.Comment.Region
import DocTemplate.Proofs.Directive.Origin
import DocTemplate.Proofs.Placeholder.Note

/-!
# Notes and moves

A move changes the blocks of a document and may give out new numbers, and that is all of the
document that it changes (`Document.SharesFrame`); the definitions of the notes stay. The
references to notes may get fewer: they go with the paragraphs and words that are taken out,
and with the placeholders and cells that are filled. They may also become more, in copies, but
what a copy refers to is referred to in the template (`Move.references_subset`).
-/

namespace DocTemplate

/-! ## The frame -/

/-- The document `doc'` is `doc`, the blocks and the last number aside. -/
def Document.SharesFrame (doc doc' : Document) : Prop :=
  ∃ body lastId, doc' = { doc with body, lastId }

namespace Document

variable {doc doc' doc'' : Document}

theorem SharesFrame.refl (doc : Document) : doc.SharesFrame doc :=
  ⟨doc.body, doc.lastId, rfl⟩

theorem SharesFrame.trans (h : doc.SharesFrame doc') (h' : doc'.SharesFrame doc'') :
    doc.SharesFrame doc'' := by
  obtain ⟨body, lastId, rfl⟩ := h
  obtain ⟨body', lastId', rfl⟩ := h'
  exact ⟨body', lastId', rfl⟩

theorem SharesFrame.of_lastId (doc : Document) (lastId : Nat) :
    doc.SharesFrame { doc with lastId } :=
  ⟨doc.body, lastId, rfl⟩

theorem Exchange.sharesFrame {old new : List Placed} (h : doc.Exchange old new doc') :
    doc.SharesFrame doc' := by
  obtain ⟨body, rfl⟩ := h.frame
  exact ⟨body, doc.lastId, rfl⟩

theorem Loses.sharesFrame (h : doc.Loses doc') : doc.SharesFrame doc' := by
  rcases h with rfl | ⟨old, hex⟩
  · exact .refl _
  · exact hex.sharesFrame

end Document

/-- A move keeps all but the blocks and the last number. -/
theorem Move.sharesFrame {f : Filler} {m : Move} {d d' : Draft}
    (h : (m.perform f).Yields d () d') : d.document.SharesFrame d'.document := by
  cases does h with
  | loses hloses => exact hloses.sharesFrame
  | repeats hrepeat =>
    obtain ⟨last, -, ⟨-, hdoc⟩ | ⟨-, removed, generated, around, -, -, hex⟩⟩ :=
      Repetition.yields_perform hrepeat
    · exact hdoc ▸ .of_lastId _ last
    · exact (Document.SharesFrame.of_lastId _ last).trans hex.sharesFrame
  | rewords _ _ hex => exact hex.sharesFrame
  | fills _ ht _ hfill =>
    obtain ⟨last, records, d₁, -, -, -, hdoc | ⟨around, hex⟩⟩ := TableFill.yields_fill ht hfill
    · exact hdoc ▸ .of_lastId _ last
    · exact (Document.SharesFrame.of_lastId _ last).trans hex.sharesFrame

/-! ## References -/

/-- The references to notes in the body of a document. -/
def Document.references (doc : Document) : List RunItem :=
  doc.paragraphs.flatMap fun p => Inline.references p.content

namespace Document

variable {doc doc' : Document}

theorem mem_runItems_iff_references {i : RunItem} (hi : i.isReference) :
    i ∈ doc.runItems ↔ i ∈ doc.references := by
  simp only [runItems, references, List.mem_flatMap, Paragraph.mem_runItems_iff_references hi]

/-- The paragraphs refer to what others refer to. -/
theorem references_subset_of_paragraphs
    (h : ∀ q ∈ doc'.paragraphs, Inline.references q.content ⊆ doc.references) :
    doc'.references ⊆ doc.references := by
  intro i hi
  obtain ⟨q, hq, hi⟩ := List.mem_flatMap.1 hi
  exact h q hq hi

theorem references_paragraph_subset {p : Paragraph} (hp : p ∈ doc.paragraphs) :
    Inline.references p.content ⊆ doc.references :=
  fun _ hi => List.mem_flatMap.2 ⟨p, hp, hi⟩

end Document

namespace Paragraph

variable {f : Filler} {p q : Paragraph}

/-- Anchors are no references. -/
theorem references_keepAnchors_subset (p : Paragraph) (keep : CommentId → Bool) :
    Inline.references (p.keepAnchors keep).content ⊆ Inline.references p.content :=
  Inline.references_subset List.filter_sublist.subset

/-- A copy refers to what the template refers to. -/
theorem IsCopy.references_subset (hf : f.renderers = Renderer.builtin) {item : Value}
    (h : p.IsCopy f item q) : Inline.references q.content ⊆ Inline.references p.content := by
  obtain ⟨filled, ⟨tally, hfill⟩, heq⟩ := h
  rw [heq]
  have hfilled := Filler.references_fillParagraph hf hfill
  exact List.Subset.trans hfilled (p.references_keepAnchors_subset fun _ => false)

/-- What is written into a table refers to nothing. -/
theorem IsWritten.references_eq_nil {data : Grid} (h : q.IsWritten data) :
    Inline.references q.content = [] := by
  obtain ⟨text, style, hcontent, -⟩ := h
  rw [hcontent]
  rfl

end Paragraph

namespace WordReplacement

variable {content : List RunItem} {items items' : List Inline}

theorem content_eq_of_mem_replaceRuns {r : Run} (h : .run r ∈ replaceRuns content items) :
    r.content = content ∨ .run r ∈ items := by
  induction items with
  | nil => cases h
  | cons item items ih =>
    cases item with
    | run first =>
      rcases List.mem_cons.1 h with h | h
      · exact .inl (congrArg Run.content (Inline.run.inj h))
      · exact .inr (List.mem_cons_of_mem _ (List.mem_filter.1 h).1)
    | _ =>
      rcases List.mem_cons.1 h with h | h
      · cases h
      · exact (ih h).imp_right (List.mem_cons_of_mem _)

/-- A text in place of words brings no references. -/
theorem references_replaceBetween? {comment : CommentId}
    (hcontent : ∀ i ∈ content, i.isReference = false)
    (h : replaceBetween? comment content items = some items') :
    Inline.references items' ⊆ Inline.references items := by
  obtain ⟨start, -, h⟩ := Option.bind_eq_some_iff.1 h
  obtain ⟨stop, -, h⟩ := Option.bind_eq_some_iff.1 h
  obtain ⟨-, h⟩ := Option.ite_none_right_eq_some.1 h
  obtain rfl := Option.some.inj h
  intro i hi
  obtain ⟨href, r, hr, hir⟩ := Inline.mem_references_iff.1 hi
  refine Inline.mem_references_iff.2 ⟨href, r, ?_, hir⟩
  rw [List.mem_append, List.mem_append] at hr
  rcases hr with (hr | hr) | hr
  · exact List.mem_of_mem_take hr
  · rcases content_eq_of_mem_replaceRuns hr with heq | hr
    · simp [hcontent i (heq ▸ hir)] at href
    · exact List.mem_of_mem_take (List.mem_of_mem_drop hr)
  · exact List.mem_of_mem_drop hr

end WordReplacement

/-- After a move, the body refers to no more notes than before. -/
theorem Move.references_subset {f : Filler} (hf : f.renderers = Renderer.builtin) {m : Move}
    {d d' : Draft} (h : (m.perform f).Yields d () d') :
    d'.document.references ⊆ d.document.references := by
  refine Document.references_subset_of_paragraphs fun q hq => ?_
  cases brings h hq with
  | kept hq => exact Document.references_paragraph_subset hq
  | copied _ hp hcopy =>
    exact List.Subset.trans (hcopy.references_subset hf)
      (Document.references_paragraph_subset (Region.paragraphsOf_attached_subset hp))
  | reworded hp hitems heq =>
    rw [heq]
    refine List.Subset.trans ?_ (Document.references_paragraph_subset hp)
    exact WordReplacement.references_replaceBetween? RunItem.isReference_of_mem_breakLines hitems
  | written hwritten =>
    rw [hwritten.references_eq_nil]
    exact List.nil_subset _

end DocTemplate
