import DocTemplate.Proofs.Comment.Order

/-!
# Comments around text

Whether a comment encloses text is found out by going through the items of a paragraph with the
ranges that are open. Where each anchor of the comment is there once, it means that there is a run
with text between the two.

* `Paragraph.exists_of_mem_enclosing`: a comment that encloses text ends where there is text in its
  range (`Paragraph.HasText`);
* `Document.exists_of_enclosesText`: what is in the paragraph where the region of such a comment
  starts.
-/

namespace DocTemplate

namespace Paragraph

variable {opened opened' : List (CommentId × Bool)} {id other : CommentId} {item : Inline}
  {items front : List Inline}

/-- There is text in the range of a comment up to some place: the range was open before the items,
    with text in it or with some to come, or starts at one of them, and text follows. -/
def HasText (opened : List (CommentId × Bool)) (id : CommentId) (front : List Inline) : Prop :=
  (∃ text, (id, text) ∈ opened ∧ (text = true ∨ ∃ r, .run r ∈ front ∧ r.size ≠ 0)) ∨
    ∃ before between r, front = before ++ .rangeStart id :: between ∧ .run r ∈ between ∧ r.size ≠ 0

/-- Ranges that are open after an item were open before it, and if they have text now, they had
    some or the item is a run with text. -/
theorem HasText.cons (h : HasText opened' id front)
    (hopened : ∀ text, (id, text) ∈ opened' → ∃ text', (id, text') ∈ opened ∧
      (text = true → text' = true ∨ ∃ r, item = .run r ∧ r.size ≠ 0)) :
    HasText opened id (item :: front) := by
  rcases h with ⟨text, htext, hruns⟩ | ⟨before, between, r, rfl, hr, hsize⟩
  · obtain ⟨text', htext', himp⟩ := hopened text htext
    refine .inl ⟨text', htext', ?_⟩
    rcases hruns with rfl | ⟨r, hr, hsize⟩
    · exact (himp rfl).imp_right fun ⟨r, hitem, hsize⟩ => ⟨r, hitem ▸ List.mem_cons_self, hsize⟩
    · exact .inr ⟨r, List.mem_cons_of_mem _ hr, hsize⟩
  · exact .inr ⟨item :: before, between, r, rfl, hr, hsize⟩

/-- A range that has just started has no text yet. -/
theorem HasText.rangeStart (h : HasText ((other, false) :: opened) id front) :
    HasText opened id (.rangeStart other :: front) := by
  by_cases heq : ∃ text, (id, text) ∈ opened
  · refine h.cons fun text htext => ?_
    rcases List.mem_cons.1 htext with htext | htext
    · cases htext
      exact heq.imp fun text' htext' => ⟨htext', nofun⟩
    · exact ⟨text, htext, .inl⟩
  · rcases h with ⟨text, htext, hruns⟩ | ⟨before, between, r, rfl, hr, hsize⟩
    · rcases List.mem_cons.1 htext with htext | htext
      · cases htext
        obtain ⟨r, hr, hsize⟩ := hruns.resolve_left Bool.false_ne_true
        exact .inr ⟨[], front, r, rfl, hr, hsize⟩
      · exact absurd ⟨text, htext⟩ heq
    · exact .inr ⟨.rangeStart other :: before, between, r, rfl, hr, hsize⟩

/-- A comment that encloses text ends where there is text in its range. -/
theorem exists_of_mem_enclosing (h : id ∈ enclosing opened items) :
    ∃ front back, items = front ++ .rangeEnd id :: back ∧ HasText opened id front := by
  induction items generalizing opened with
  | nil => cases h
  | cons item items ih =>
    have hcons : ∀ {opened'}, id ∈ enclosing opened' items →
        (∀ {front}, HasText opened' id front → HasText opened id (item :: front)) →
        ∃ front back, item :: items = front ++ .rangeEnd id :: back ∧ HasText opened id front := by
      intro opened' hmem htext
      obtain ⟨front, back, rfl, hfront⟩ := ih hmem
      exact ⟨item :: front, back, rfl, htext hfront⟩
    cases item with
    | rangeStart other => exact hcons h HasText.rangeStart
    | rangeEnd other =>
      have hrest : ∀ {front}, HasText (opened.filter fun o => o.1 != other) id front →
          HasText opened id (.rangeEnd other :: front) := fun hfront =>
        hfront.cons fun text htext => ⟨text, (List.mem_filter.1 htext).1, .inl⟩
      by_cases hlookup : opened.lookup other = some true
      · rw [enclosing, if_pos hlookup] at h
        rcases List.mem_cons.1 h with rfl | h
        · obtain ⟨before, after, rfl, -⟩ := List.lookup_eq_some_iff.1 hlookup
          exact ⟨[], items, rfl, .inl ⟨true, by simp, .inl rfl⟩⟩
        · exact hcons h hrest
      · rw [enclosing, if_neg hlookup] at h
        exact hcons h hrest
    | run r =>
      refine hcons h fun hfront => hfront.cons fun text htext => ?_
      split at htext
      next => exact ⟨text, htext, .inl⟩
      next hsize =>
        obtain ⟨⟨_, text'⟩, hmem, heq⟩ := List.mem_map.1 htext
        cases heq
        exact ⟨text', hmem, fun _ => .inr ⟨r, rfl, hsize⟩⟩
    | _ => exact hcons h fun hfront => hfront.cons fun text htext => ⟨text, htext, .inl⟩


variable {p : Paragraph}

/-- What a comment encloses in a paragraph where each of its anchors is there once. -/
theorem exists_of_mem_enclosingComments (h : id ∈ p.enclosingComments)
    (hstart : p.content.count (.rangeStart id) ≤ 1) (hend : p.content.count (.rangeEnd id) ≤ 1) :
    ∃ before between after r,
      p.content = before ++ .rangeStart id :: (between ++ .rangeEnd id :: after) ∧
        .rangeStart id ∉ before ∧ .rangeEnd id ∉ before ∧ .rangeEnd id ∉ between ∧
          .run r ∈ between ∧ r.size ≠ 0 := by
  obtain ⟨front, after, heq, ⟨text, hnone, -⟩ | ⟨before, between, r, rfl, hr, hsize⟩⟩ :=
    exists_of_mem_enclosing h
  · cases hnone
  · rw [heq, List.count_append, List.count_append, List.count_cons_self,
      List.count_cons] at hstart hend
    refine ⟨before, between, after, r, by rw [heq, List.append_assoc]; rfl, ?_, ?_, ?_, hr, hsize⟩
    all_goals
      rw [← List.count_eq_zero]
      omega

end Paragraph

/-- A value that is found once in all is found in one of the lists. -/
theorem eq_of_count_flatMap_le_one {α β : Type} [BEq β] [LawfulBEq β] {as : List α}
    {f : α → List β} {b : β} (h : (as.flatMap f).count b ≤ 1) {a a' : α} (ha : a ∈ as)
    (ha' : a' ∈ as) (hb : b ∈ f a) (hb' : b ∈ f a') : a' = a := by
  obtain ⟨before, after, rfl⟩ := List.append_of_mem ha
  have hpos := List.count_pos_iff.2 hb
  rw [List.flatMap_append, List.flatMap_cons, List.count_append, List.count_append] at h
  have hnot : ∀ as : List α, (as.flatMap f).count b = 0 → a' ∉ as := fun as hzero hmem =>
    List.count_eq_zero.1 hzero (List.mem_flatMap.2 ⟨a', hmem, hb'⟩)
  rcases List.mem_append.1 ha' with hmem | hmem
  · exact absurd hmem (hnot _ (by omega))
  · exact (List.mem_cons.1 hmem).resolve_right (hnot _ (by omega))

namespace Document

variable {doc : Document} {r : Region} {p : Paragraph}

theorem mem_enclosingComments (hr : r ∈ doc.regions) (h : r.enclosesText) :
    r.id ∈ doc.enclosingComments := by
  obtain ⟨start, -, hr⟩ := List.mem_filterMap.1 (regions_eq ▸ hr)
  obtain ⟨c, -, hr⟩ := Option.bind_eq_some_iff.1 hr
  obtain ⟨siblings, -, hr⟩ := Option.bind_eq_some_iff.1 hr
  obtain ⟨i, -, hr⟩ := Option.bind_eq_some_iff.1 hr
  obtain ⟨j, -, hr⟩ := Option.bind_eq_some_iff.1 hr
  cases hr
  exact List.contains_iff_mem.1 (Bool.and_eq_true_iff.1 h).2

/-- If each anchor of a comment that encloses text is there once, the text is between them, in the
    paragraph where the region of the comment starts. -/
theorem exists_of_enclosesText (hr : r ∈ doc.regions) (htext : r.enclosesText)
    (hstart : doc.anchors.count (.rangeStart r.id) ≤ 1)
    (hend : doc.anchors.count (.rangeEnd r.id) ≤ 1) :
    ∃ p ∈ doc.paragraphs, r.start = p.id ∧ ∃ before between after r',
      p.content = before ++ .rangeStart r.id :: (between ++ .rangeEnd r.id :: after) ∧
        .rangeStart r.id ∉ before ∧ .rangeEnd r.id ∉ before ∧ .rangeEnd r.id ∉ between ∧
          .run r' ∈ between ∧ r'.size ≠ 0 := by
  obtain ⟨-, ⟨p, hp, hmem, hid⟩, -⟩ := region_spec hr
  obtain ⟨q, hq, hencloses⟩ := List.mem_flatMap.1 (mem_enclosingComments hr htext)
  have hcount : ∀ {a : Inline}, a.commentId?.isSome → doc.anchors.count a ≤ 1 →
      q.content.count a ≤ 1 := by
    intro a ha hle
    have hsub : q.anchors.Sublist doc.anchors :=
      List.sublist_flatten_of_mem (List.mem_map_of_mem hq)
    have hanchors : q.anchors.count a = q.content.count a := List.count_filter ha
    exact hanchors ▸ Nat.le_trans (hsub.count_le a) hle
  obtain ⟨before, between, after, r', heq, hrest⟩ := Paragraph.exists_of_mem_enclosingComments
    hencloses (hcount rfl hstart) (hcount rfl hend)
  have hanchor : ∀ {p : Paragraph}, .rangeStart r.id ∈ p.content → .rangeStart r.id ∈ p.anchors :=
    fun h => List.mem_filter.2 ⟨h, rfl⟩
  obtain rfl := eq_of_count_flatMap_le_one hstart hp hq (hanchor hmem)
    (hanchor (by rw [heq]; simp))
  exact ⟨_, hq, hid, before, between, after, r', heq, hrest⟩

end Document

end DocTemplate
