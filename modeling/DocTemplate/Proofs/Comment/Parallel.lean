import DocTemplate.Comment.Region
import DocTemplate.Comment.Removal
import DocTemplate.Proofs.Document.Glyph
import DocTemplate.Proofs.Document.Parallel

/-!
# Comments of interchangeable documents

Documents of one shape with interchangeable paragraphs have the same anchors of comments in
the same places, so their comments have the same regions (`Document.Related.regions_eq`). What
is left after comments are removed are two such documents
(`Document.Related.removeComments`).
-/

namespace DocTemplate

namespace Paragraph

variable {p q : Paragraph}

/-- What only anchors have can be read off the anchors. -/
theorem filterMap_anchors {α : Type} {f : Inline → Option α}
    (hf : ∀ item, item.commentId? = none → f item = none) :
    p.anchors.filterMap f = p.content.filterMap f := by
  rw [anchors, List.filterMap_filter]
  refine List.filterMap_congr fun item _ => ?_
  cases hid : item.commentId? with
  | none => simp [hf item hid]
  | some id => rfl

/-- Interchangeable paragraphs have the same anchors. -/
theorem Interchangeable.filterMap_content {α : Type} {f : Inline → Option α}
    (h : p.Interchangeable q) (hf : ∀ item, item.commentId? = none → f item = none) :
    q.content.filterMap f = p.content.filterMap f := by
  rw [← filterMap_anchors hf, ← filterMap_anchors hf, h.anchors]

theorem anchors_keepAnchors (keep : CommentId → Bool) :
    (p.keepAnchors keep).anchors = p.anchors.filter fun item => item.commentId?.all keep := by
  rw [anchors, anchors, keepAnchors, List.filter_filter, List.filter_filter]
  exact List.filter_congr fun item _ => Bool.and_comm _ _

theorem anchors_keepAnchors_false : (p.keepAnchors fun _ => false).anchors = [] := by
  rw [anchors_keepAnchors, List.filter_eq_nil_iff]
  intro item hitem
  have hanchor := (List.mem_filter.1 hitem).2
  cases hid : item.commentId? with
  | none => simp [hid] at hanchor
  | some id => simp

end Paragraph

namespace Document.Related

variable {doc doc' : Document}

section Attached

variable {R : Paragraph → Paragraph → Prop} (hR : ∀ p q, R p q → q.id = p.id)

include hR

/-- What is left of a region in related documents is related. -/
theorem attached (h : doc.Related R doc') (region : Region) :
    List.Forall₂ (Block.Related Eq R) (region.attached doc) (region.attached doc') := by
  refine List.rel_filterMap (fun id id' hid => ?_) (List.forall₂_same.2 fun _ _ => rfl)
  subst hid
  exact h.node? hR id

theorem paragraphIds_eq (h : doc.Related R doc') (region : Region) :
    region.paragraphIds doc' = region.paragraphIds doc := by
  refine List.Forall₂.map_eq (R := R) ?_ hR
  exact List.rel_flatMap (h.attached hR region) fun _ _ hb => hb.paragraphs

end Attached

variable (h : doc.Related Paragraph.Interchangeable doc')

include h

/-! ## Regions -/

theorem rangeStarts_eq : doc'.rangeStarts = doc.rangeStarts := by
  refine h.placedParagraphs.flatMap_eq ?_
  rintro ⟨path, p⟩ ⟨_, q⟩ ⟨rfl, hpq⟩
  dsimp only at hpq ⊢
  rw [hpq.id]
  refine hpq.filterMap_content fun item hitem => ?_
  cases item <;> first | rfl | cases hitem

theorem rangeEnds_eq : doc'.rangeEnds = doc.rangeEnds := by
  refine h.placedParagraphs.flatMap_eq ?_
  rintro ⟨path, p⟩ ⟨_, q⟩ ⟨rfl, hpq⟩
  dsimp only at hpq ⊢
  rw [hpq.id]
  refine hpq.filterMap_content fun item hitem => ?_
  cases item <;> first | rfl | cases hitem

theorem enclosingComments_eq : doc'.enclosingComments = doc.enclosingComments :=
  h.paragraphs.flatMap_eq fun _ _ hpq => hpq.enclosingComments

theorem regionOf?_eq (c : Comment) (start stop : NodeId × Path) :
    doc'.regionOf? c start stop = doc.regionOf? c start stop := by
  have hcontainer := h.container? (start.2.commonContainer stop.2)
  rw [Document.regionOf?, Document.regionOf?, h.enclosingComments_eq]
  generalize doc.container? _ = x, doc'.container? _ = y at hcontainer
  cases hcontainer with
  | none => rfl
  | @some siblings siblings' hsiblings =>
    simp only [Option.bind_eq_bind, Option.bind_some]
    refine congrArg _ (funext fun i => congrArg _ (funext fun j => ?_))
    have hcovered := List.forall₂_drop (min i j) (List.forall₂_take (max i j + 1) hsiblings)
    have hids := hcovered.map_eq fun _ _ hb => hb.id_eq fun _ _ hpq => hpq.id
    have hbreaks := (List.rel_filter (p := Paragraph.endsSection) (q := Paragraph.endsSection)
      (fun _ _ hpq => (Bool.eq_iff_iff.1 hpq.endsSection).symm)
      (List.rel_filterMap (fun _ _ hb => hb.paragraph?) hcovered)).length_eq
    have hbefore : Option.Rel (Block.Related Eq Paragraph.Interchangeable)
        (if min i j = 0 then none else siblings[min i j - 1]?)
        (if min i j = 0 then none else siblings'[min i j - 1]?) := by
      split
      · exact .none
      · exact hsiblings.getElem? _
    have hbreak := (hbefore.bind fun _ _ hb => hb.paragraph?).bind_eq fun _ _ hpq => hpq.sectionBreak
    rw [hids, hbreaks, hbreak]

theorem regions_eq : doc'.regions = doc.regions := by
  rw [Document.regions, Document.regions, h.rangeStarts_eq, h.rangeEnds_eq]
  refine List.filterMap_congr fun start _ => ?_
  have hcomment : doc'.comment? start.1 = doc.comment? start.1 := by
    rw [Document.comment?, Document.comment?, h.comments]
  dsimp only
  rw [hcomment]
  exact congrArg _ (funext fun c => h.regionOf?_eq _ _ _)

/-! ## Removal -/

theorem removeComments (keep : List CommentId) :
    (doc.removeComments keep).1.Related Paragraph.Interchangeable (doc'.removeComments keep).1 where
  __ := h.mapParagraphs fun _ _ hpq => hpq.keepAnchors keep.contains
  comments := congrArg (List.filter (keepsComment keep)) h.comments

end Document.Related

end DocTemplate
