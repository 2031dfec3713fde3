import DocTemplate.Comment.Removal
import DocTemplate.Proofs.Cleanup
import DocTemplate.Proofs.Document.Relation

/-!
# What is left of comments

A comment that is kept has its anchors where it had them, in the paragraphs that are
left (`Paragraph.anchorsOf`), and of another one no anchor is left.

* `Paragraph.anchorsOf_keepAnchors`: the anchors of a comment after the removal;
* `Document.map_withoutAnchors_close`: anchors aside, the body stays as it is;
* `Document.mem_comments_close_iff`: the definition of a comment that is no reply stays if
  the comment is kept;
* `Document.exists_of_mem_paragraphs_close`: and so do the anchors of the comment.
-/

namespace DocTemplate

namespace Paragraph

variable {id : CommentId} {p q : Paragraph}

/-- The anchors of a comment in the paragraph. -/
def anchorsOf (id : CommentId) (p : Paragraph) : List Inline :=
  p.content.filter fun item => item.commentId? = some id

/-- They are among all anchors. -/
theorem anchorsOf_eq_filter_anchors :
    p.anchorsOf id = p.anchors.filter fun item => item.commentId? = some id := by
  rw [anchorsOf, anchors, List.filter_filter]
  refine List.filter_congr fun item _ => ?_
  cases h : item.commentId? <;> simp

theorem anchorsOf_congr (h : q.anchors = p.anchors) : q.anchorsOf id = p.anchorsOf id := by
  rw [anchorsOf_eq_filter_anchors, anchorsOf_eq_filter_anchors, h]

/-- The anchors of a comment that is kept stay, and those of another one go. -/
theorem anchorsOf_keepAnchors (keep : CommentId → Bool) :
    (p.keepAnchors keep).anchorsOf id = if keep id then p.anchorsOf id else [] := by
  rw [anchorsOf, keepAnchors, List.filter_filter]
  split
  · next hkeep =>
    refine List.filter_congr fun item _ => ?_
    cases h : item.commentId? with
    | none => simp
    | some id' =>
      by_cases hid : id' = id
      · simp [hid, hkeep]
      · simp [hid]
  · next hkeep =>
    rw [List.filter_eq_nil_iff]
    intro item _ h
    simp only [Bool.and_eq_true, decide_eq_true_eq] at h
    rw [h.1, Option.all_some] at h
    exact hkeep h.2

/-- A paragraph without anchors has none to lose. -/
theorem keepAnchors_eq_self (h : ∀ item ∈ p.content, item.commentId? = none)
    (keep : CommentId → Bool) : p.keepAnchors keep = p := by
  have hfilter : p.content.filter (fun item => item.commentId?.all keep) = p.content :=
    List.filter_eq_self.2 fun item hitem => by simp [h item hitem]
  rw [keepAnchors, hfilter]

/-- Anchors that are kept at first go when none is kept. -/
theorem keepAnchors_keepAnchors_false (keep : CommentId → Bool) :
    ((p.keepAnchors keep).keepAnchors fun _ => false) = p.keepAnchors fun _ => false := by
  rw [keepAnchors, keepAnchors, keepAnchors, List.filter_filter]
  have hfilter : p.content.filter (fun item => (item.commentId?.all fun _ => false) &&
      item.commentId?.all keep) = p.content.filter fun item => item.commentId?.all fun _ => false := by
    refine List.filter_congr fun item _ => ?_
    cases item.commentId? <;> rfl
  rw [hfilter]

end Paragraph

theorem Block.withoutAnchors_mapParagraphs (keep : CommentId → Bool) (b : Block) :
    (b.mapParagraphs fun p => p.keepAnchors keep).withoutAnchors = b.withoutAnchors := by
  have hkept : Related Eq (fun p q => p.keepAnchors keep = q) b
      (b.mapParagraphs fun p => p.keepAnchors keep) :=
    related_mapParagraphs (fun _ => rfl) (fun _ => rfl) b
  have hsame : Related Eq Eq b.withoutAnchors
      (b.mapParagraphs fun p => p.keepAnchors keep).withoutAnchors :=
    hkept.mapParagraphs fun p q hpq => by rw [← hpq, Paragraph.keepAnchors_keepAnchors_false]
  exact hsame.eq.symm

namespace Document

/-- The document at the end of a filling, after the removal of comments and that of notes. -/
def close (settings : Settings) (keep : List CommentId) (doc : Document) : Document :=
  ((doc.removeComments keep).1.finish settings).1

variable {doc : Document} {settings : Settings} {keep : List CommentId}

theorem body_close : (doc.close settings keep).body =
    doc.body.map (Block.mapParagraphs fun p => p.keepAnchors keep.contains) := by
  rw [close, finish]
  split <;> rfl

/-- Anchors aside, the body stays. -/
theorem map_withoutAnchors_close :
    (doc.close settings keep).body.map Block.withoutAnchors = doc.body.map Block.withoutAnchors := by
  rw [body_close, List.map_map]
  exact List.map_congr_left fun b _ => b.withoutAnchors_mapParagraphs _

/-- Nothing but anchors goes from the body. -/
theorem outline_close :
    (doc.close settings keep).outline =
      doc.outline.map (Placed.mapParagraph fun p => p.keepAnchors keep.contains) := by
  rw [close, (finish_spec _ _).1]
  exact doc.outline_mapParagraphs _

theorem paragraphs_removeComments : (doc.removeComments keep).1.paragraphs =
    doc.paragraphs.map fun p => p.keepAnchors keep.contains :=
  doc.paragraphs_mapParagraphs _

theorem paragraphs_close : (doc.close settings keep).paragraphs =
    doc.paragraphs.map fun p => p.keepAnchors keep.contains := by
  rw [close, paragraphs_eq_outline, (finish_spec _ _).1, ← paragraphs_eq_outline,
    paragraphs_removeComments]

/-- Of the comments that are no replies, those kept are left. -/
theorem mem_comments_close_iff {c : Comment} (hparent : c.parent = none) :
    c ∈ (doc.close settings keep).comments ↔ c ∈ doc.comments ∧ c.id ∈ keep := by
  rw [close, (finish_spec _ _).2]
  change c ∈ doc.comments.filter (keepsComment keep) ↔ _
  simp [List.mem_filter, keepsComment, hparent]

/-- A paragraph has the anchors of comments that are kept. -/
theorem exists_of_mem_paragraphs_close {q : Paragraph}
    (h : q ∈ (doc.close settings keep).paragraphs) : ∃ p ∈ doc.paragraphs, q.id = p.id ∧
      ∀ id, q.anchorsOf id = if id ∈ keep then p.anchorsOf id else [] := by
  rw [paragraphs_close] at h
  obtain ⟨p, hp, rfl⟩ := List.mem_map.1 h
  refine ⟨p, hp, rfl, fun id => ?_⟩
  simp only [Paragraph.anchorsOf_keepAnchors, List.contains_iff_mem]

theorem locate?_close_eq_none {id : NodeId} (h : doc.locate? id = none) :
    (doc.close settings keep).locate? id = none := by
  rw [locate?_eq_none_iff] at h ⊢
  rw [outline_close]
  intro x hx hblock
  obtain ⟨⟨p | _ | _, around⟩, hy, rfl⟩ := List.mem_map.1 hx
  · exact h ⟨.paragraph p, around⟩ hy rfl
  · exact h _ hy rfl
  · cases hblock

/-- A definition has the number that it is found by. -/
theorem comment?_eq_some {id : CommentId} {c : Comment} (h : doc.comment? id = some c) :
    c ∈ doc.comments ∧ c.id = id :=
  ⟨List.mem_of_find?_eq_some h, by simpa using List.find?_some h⟩

end Document

end DocTemplate
