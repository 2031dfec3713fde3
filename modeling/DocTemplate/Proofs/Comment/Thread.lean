import DocTemplate.Proofs.Comment.Removal

/-!
# Threads of comments

A reply names the comment that it replies to, which may be a reply itself: a comment is in the
threads of all those that it replies to, directly or through others (`Document.RepliesTo`). When
comments are removed, the definition of a reply stays if the comment that it names is kept. That is
one step up only, and the anchors of the reply do not even go so far:

* `Document.removeComments_dropped`: what stays is in its order, and what goes is counted;
* `Document.keepsThreads_iff`: all comments in the threads of those that are kept stay, if and only
  if no reply to a reply depends on a comment two steps up;
* `Document.keepsTogether_iff`: the definition and the anchors of a comment stay or go together,
  unless it has anchors and is there only for the sake of the comment that it replies to.
-/

namespace DocTemplate

namespace Document

section Definitions

variable (doc : Document) (keep : List CommentId)

/-- The comment replies to the one of that identity, directly or through other comments. -/
inductive RepliesTo (id : CommentId) : Comment → Prop
  | direct {c : Comment} (h : c.parent = some id) : RepliesTo id c
  | through {c above : Comment} (habove : above ∈ doc.comments) (h : c.parent = some above.id)
      (hreplies : RepliesTo id above) : RepliesTo id c

/-- The comment is kept, or in the thread of one that is. -/
def InThread (c : Comment) : Prop :=
  c.id ∈ keep ∨ ∃ id ∈ keep, doc.RepliesTo id c

open Classical in
/-- The comments that stay are those in the threads of the comments that are kept. -/
def KeepsThreads : Prop :=
  (doc.removeComments keep).1.comments = doc.comments.filter fun c => doc.InThread keep c

/-- The definition of the comment stays with all its anchors, each in its paragraph and in their
    order, or goes with all of them. -/
def KeepsTogether (c : Comment) : Prop :=
  (c ∈ (doc.removeComments keep).1.comments ∧
    (doc.removeComments keep).1.paragraphs.map (Paragraph.anchorsOf c.id) =
      doc.paragraphs.map (Paragraph.anchorsOf c.id)) ∨
  (c ∉ (doc.removeComments keep).1.comments ∧
    ∀ p ∈ (doc.removeComments keep).1.paragraphs, p.anchorsOf c.id = [])

instance (c : Comment) : Decidable (doc.KeepsTogether keep c) :=
  inferInstanceAs (Decidable (_ ∨ _))

end Definitions

variable {doc : Document} {keep : List CommentId} {c : Comment} {id : CommentId}

theorem keepsComment_iff : keepsComment keep c ↔ c.id ∈ keep ∨ ∃ id ∈ keep, c.parent = some id := by
  rw [keepsComment, Bool.or_eq_true, List.contains_iff_mem, Option.any_eq_true]
  refine or_congr_right ⟨?_, ?_⟩
  · rintro ⟨id, hid, hkeep⟩
    exact ⟨id, by simpa using hkeep, hid⟩
  · rintro ⟨id, hkeep, hid⟩
    exact ⟨id, hid, by simpa using hkeep⟩

theorem mem_comments_removeComments :
    c ∈ (doc.removeComments keep).1.comments ↔
      c ∈ doc.comments ∧ (c.id ∈ keep ∨ ∃ id ∈ keep, c.parent = some id) := by
  rw [← keepsComment_iff]
  exact List.mem_filter

/-- The comments that stay are in their order, and those that go are counted. -/
theorem removeComments_dropped (doc : Document) (keep : List CommentId) :
    (doc.removeComments keep).1.comments.Sublist doc.comments ∧
      (doc.removeComments keep).2 + (doc.removeComments keep).1.comments.length =
        doc.comments.length := by
  have hsub : (doc.removeComments keep).1.comments.Sublist doc.comments := List.filter_sublist
  exact ⟨hsub, Nat.sub_add_cancel hsub.length_le⟩

/-! ## Definitions -/

/-- If no reply to a reply depends on a comment two steps up, then none depends on one further up:
    each reply in the thread of a comment that is kept is kept, or replies to one that is. -/
theorem RepliesTo.stays (h : doc.RepliesTo id c) (hid : id ∈ keep)
    (hstep : ∀ c ∈ doc.comments, ∀ above ∈ doc.comments, ∀ id ∈ keep, c.parent = some above.id →
      above.parent = some id → c.id ∈ keep ∨ above.id ∈ keep) (hc : c ∈ doc.comments) :
    c.id ∈ keep ∨ ∃ id ∈ keep, c.parent = some id := by
  -- Along the replies: the comment above stays, so it is kept or replies to one that is.
  induction h with
  | direct hparent => exact .inr ⟨id, hid, hparent⟩
  | @through c above habove hparent _ ih =>
    rcases ih habove with hkeep | ⟨id', hid', hparent'⟩
    · exact .inr ⟨above.id, hkeep, hparent⟩
    · exact (hstep c hc above habove id' hid' hparent hparent').imp_right
        fun hkeep => ⟨above.id, hkeep, hparent⟩

/-- What stays is in its order, and what goes is counted. It is all that is in the threads of the
    comments that are kept if and only if, wherever a comment replies to a reply to one that is
    kept, one of the two is kept itself. -/
theorem keepsThreads_iff (doc : Document) (keep : List CommentId) :
    ((doc.removeComments keep).1.comments.Sublist doc.comments ∧
        (doc.removeComments keep).2 + (doc.removeComments keep).1.comments.length =
          doc.comments.length) ∧
      (doc.KeepsThreads keep ↔ ∀ c ∈ doc.comments, ∀ above ∈ doc.comments, ∀ id ∈ keep,
        c.parent = some above.id → above.parent = some id → c.id ∈ keep ∨ above.id ∈ keep) := by
  classical
  refine ⟨doc.removeComments_dropped keep, ?_, ?_⟩
  · intro h c hc above habove id hid hparent hparent'
    have hthread : doc.InThread keep c :=
      .inr ⟨id, hid, .through habove hparent (.direct hparent')⟩
    have hmem : c ∈ (doc.removeComments keep).1.comments := by
      rw [h]
      exact List.mem_filter.2 ⟨hc, decide_eq_true hthread⟩
    refine (mem_comments_removeComments.1 hmem).2.imp_right ?_
    rintro ⟨id', hid', hparent''⟩
    rw [← Option.some.inj (hparent''.symm.trans hparent)]
    exact hid'
  · intro hstep
    refine List.filter_congr fun c hc => ?_
    rw [Bool.eq_iff_iff, keepsComment_iff, decide_eq_true_eq]
    constructor
    · rintro (hkeep | ⟨id, hid, hparent⟩)
      · exact .inl hkeep
      · exact .inr ⟨id, hid, .direct hparent⟩
    · rintro (hkeep | ⟨id, hid, hreplies⟩)
      · exact .inl hkeep
      · exact hreplies.stays hid hstep hc

/-- An answer to a question. -/
def discussionAnswer : Comment :=
  { Comment.ofText 2 "For the auditors" with parent := some 1 }

/-- An answer to the answer. -/
def discussionSequel : Comment :=
  { Comment.ofText 3 "All of them?" with parent := some 2 }

/-- A question with both answers. -/
def discussion : Document where
  comments := [discussionSequel, .ofText 1 "Why?", discussionAnswer]

/-- If only the question is kept, its answer stays, and the answer to the answer does not. -/
theorem not_keepsThreads_discussion :
    discussionAnswer ∈ (discussion.removeComments [1]).1.comments ∧
      discussionSequel ∉ (discussion.removeComments [1]).1.comments ∧
      ¬ discussion.KeepsThreads [1] := by
  classical
  have hgone : discussionSequel ∉ (discussion.removeComments [1]).1.comments := by decide +kernel
  refine ⟨by decide +kernel, hgone, fun h => hgone ?_⟩
  have hanswer : discussionAnswer ∈ discussion.comments := by decide +kernel
  have hreplies : discussion.RepliesTo 1 discussionSequel := .through hanswer rfl (.direct rfl)
  rw [h]
  exact List.mem_filter.2 ⟨List.mem_cons_self,
    decide_eq_true (.inr ⟨1, List.mem_singleton_self 1, hreplies⟩)⟩

/-! ## Anchors -/

/-- All anchors of a comment that is kept stay, each in its paragraph. -/
theorem anchorsOf_removeComments_of_mem (hid : id ∈ keep) :
    (doc.removeComments keep).1.paragraphs.map (Paragraph.anchorsOf id) =
      doc.paragraphs.map (Paragraph.anchorsOf id) := by
  rw [paragraphs_removeComments, List.map_map]
  refine List.map_congr_left fun p _ => ?_
  rw [Function.comp_apply, Paragraph.anchorsOf_keepAnchors, if_pos (List.contains_iff_mem.2 hid)]

/-- No anchor of another one stays. -/
theorem anchorsOf_eq_nil_of_not_mem (hid : id ∉ keep) {p : Paragraph}
    (hp : p ∈ (doc.removeComments keep).1.paragraphs) : p.anchorsOf id = [] := by
  rw [paragraphs_removeComments] at hp
  obtain ⟨p, -, rfl⟩ := List.mem_map.1 hp
  rw [Paragraph.anchorsOf_keepAnchors, if_neg fun h => hid (List.contains_iff_mem.1 h)]

/-- If no anchor of a comment stays, then all do only if there was none. -/
theorem anchorsOf_eq_nil_of_map_eq (hid : id ∉ keep)
    (h : (doc.removeComments keep).1.paragraphs.map (Paragraph.anchorsOf id) =
      doc.paragraphs.map (Paragraph.anchorsOf id)) {p : Paragraph} (hp : p ∈ doc.paragraphs) :
    p.anchorsOf id = [] := by
  have hanchors : p.anchorsOf id ∈ doc.paragraphs.map (Paragraph.anchorsOf id) :=
    List.mem_map_of_mem hp
  rw [← h] at hanchors
  obtain ⟨q, hq, heq⟩ := List.mem_map.1 hanchors
  rw [← heq]
  exact anchorsOf_eq_nil_of_not_mem hid hq

/-- The definition of a comment and its anchors stay or go together, unless it has anchors, is not
    kept itself, and replies to a comment that is. -/
theorem keepsTogether_iff (hc : c ∈ doc.comments) :
    doc.KeepsTogether keep c ↔ c.id ∈ keep ∨ (∀ id ∈ keep, c.parent ≠ some id) ∨
      ∀ p ∈ doc.paragraphs, p.anchorsOf c.id = [] := by
  rw [KeepsTogether, mem_comments_removeComments]
  by_cases hkeep : c.id ∈ keep
  · exact iff_of_true (.inl ⟨⟨hc, .inl hkeep⟩, anchorsOf_removeComments_of_mem hkeep⟩) (.inl hkeep)
  by_cases hparent : ∃ id ∈ keep, c.parent = some id
  · -- The definition stays, and no anchor does.
    have hnot : ¬ ∀ id ∈ keep, c.parent ≠ some id := fun h =>
      let ⟨id, hid, heq⟩ := hparent
      h id hid heq
    constructor
    · rintro (⟨-, hanchors⟩ | ⟨hgone, -⟩)
      · exact .inr (.inr fun p hp => anchorsOf_eq_nil_of_map_eq hkeep hanchors hp)
      · exact absurd ⟨hc, .inr hparent⟩ hgone
    · intro h
      have hnone := (h.resolve_left hkeep).resolve_left hnot
      refine .inl ⟨⟨hc, .inr hparent⟩, ?_⟩
      rw [paragraphs_removeComments, List.map_map]
      refine List.map_congr_left fun p hp => ?_
      rw [Function.comp_apply, Paragraph.anchorsOf_keepAnchors, hnone p hp, ite_self]
  · have hgone : ¬ (c ∈ doc.comments ∧ (c.id ∈ keep ∨ ∃ id ∈ keep, c.parent = some id)) :=
      fun h => h.2.elim hkeep hparent
    exact iff_of_true (.inr ⟨hgone, fun p hp => anchorsOf_eq_nil_of_not_mem hkeep hp⟩)
      (.inr (.inl fun id hid heq => hparent ⟨id, hid, heq⟩))

/-- The answer to the first comment of the minutes. -/
def minutesAnswer : Comment :=
  { Comment.ofText 2 "Last week" with parent := some 1 }

/-- Minutes with a comment in a cell, its answer without anchors, and another comment. -/
def minutes : Document where
  body := [.table { rows := [⟨0, [.ofParagraph { content :=
      [.rangeStart 1, .run (.ofText "Monday"), .rangeEnd 1, .reference 1] }]⟩] },
    .paragraph { content := [.rangeStart 3, .run (.ofText "Done"), .rangeEnd 3, .reference 3] }]
  comments := [.ofText 1 "Which one?", minutesAnswer, .ofText 3 "All of it?"]

theorem keepsTogether_minutesAnswer :
    minutesAnswer ∈ minutes.comments ∧ minutes.KeepsTogether [1] minutesAnswer := by
  have hmem : minutesAnswer ∈ minutes.comments := by decide +kernel
  exact ⟨hmem, (keepsTogether_iff hmem).2 (.inr (.inr (by decide +kernel)))⟩

/-- The answer to a comment on a price. -/
def priceAnswer : Comment :=
  { Comment.ofText 2 "No, gross" with parent := some 1 }

/-- A price with a comment and its answer, both around the price. -/
def commentedPrice : Document where
  body := [.paragraph { content := [.rangeStart 1, .rangeStart 2, .run (.ofText "12"), .rangeEnd 1,
    .reference 1, .rangeEnd 2, .reference 2] }]
  comments := [.ofText 1 "Net?", priceAnswer]

/-- If the comment is kept, the answer stays, and its anchors do not. -/
theorem not_keepsTogether_priceAnswer : priceAnswer ∈ commentedPrice.comments ∧
    priceAnswer ∈ (commentedPrice.removeComments [1]).1.comments ∧
    (∀ p ∈ (commentedPrice.removeComments [1]).1.paragraphs, p.anchorsOf priceAnswer.id = []) ∧
    ¬ commentedPrice.KeepsTogether [1] priceAnswer := by
  decide +kernel

end Document

end DocTemplate
