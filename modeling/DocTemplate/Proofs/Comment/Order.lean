import DocTemplate.Proofs.Comment.Region
import DocTemplate.Proofs.Comment.Removal
import DocTemplate.Proofs.Document.Siblings

/-!
# Regions in reading order

The nodes of a numbered document are numbered in reading order (`Document.InOrder`), so what
comes before what can be told by number. If no range starts after its last end
(`Document.WellOrdered`), the paragraph where a range starts is in the first block of its
region. It follows that two regions have no block in common, if the second one starts after
the first one and outside of it: their blocks would be neighbours in one container, and the
second one would have to start before the first one.

* `Document.InOrder.pairwise_regions`: regions are in the order in which they start;
* `Document.InOrder.le_lastEnd`: a range starts before its last end;
* `Document.InOrder.region_siblings`: the blocks of a region are neighbours, and the range
  starts in the first one;
* `Document.InOrder.disjoint_blocks`: regions that have no block in common.
-/

namespace DocTemplate

variable {doc : Document}

namespace Document

/-- The nodes are numbered in reading order. -/
structure InOrder (doc : Document) : Prop where
  pairwise : (doc.outline.map Placed.id).Pairwise (· < ·)
  bounds : ∀ x ∈ doc.outline, 0 < x.id ∧ x.id ≤ doc.lastId

/-- The anchors of comments in the body, in reading order. -/
def anchors (doc : Document) : List Inline :=
  doc.paragraphs.flatMap Paragraph.anchors

/-- No range of a comment starts after it has ended for the last time. -/
def WellOrdered (doc : Document) : Prop :=
  ∀ c ∈ doc.comments, .rangeEnd c.id ∈ doc.anchors →
    .rangeStart c.id ∉ doc.anchors.reverse.takeWhile (· ≠ .rangeEnd c.id)

instance : Decidable doc.WellOrdered :=
  inferInstanceAs (Decidable (∀ _ ∈ _, _ → _))

theorem InOrder.nodup (h : doc.InOrder) : (doc.outline.map Placed.id).Nodup :=
  h.pairwise.imp Nat.ne_of_lt

/-- What is before a segment of the outline has lower numbers, and what is after it higher
    ones. -/
theorem InOrder.lt_of_segment (h : doc.InOrder) {pre mid post : List Placed}
    (hout : doc.outline = pre ++ mid ++ post) {x : Placed} (hx : x ∈ mid) :
    (∀ e ∈ pre, e.id < x.id) ∧ ∀ e ∈ post, x.id < e.id := by
  have h := h.pairwise
  rw [hout, List.map_append, List.map_append, List.pairwise_append, List.pairwise_append] at h
  refine ⟨fun e he => ?_, fun e he => ?_⟩
  · exact h.1.2.2 _ (List.mem_map_of_mem he) _ (List.mem_map_of_mem hx)
  · exact h.2.2 _ (List.mem_append_right _ (List.mem_map_of_mem hx)) _ (List.mem_map_of_mem he)

end Document

/-! ## Paragraphs -/

namespace Document

/-- The paragraphs are numbered in reading order. -/
theorem InOrder.pairwise_placedParagraphs (h : doc.InOrder) :
    doc.placedParagraphs.Pairwise fun x y => x.2.id < y.2.id := by
  have hparagraphs := pairwise_paragraphs h.pairwise
  rw [← map_snd_placedParagraphs, List.map_map, List.pairwise_map] at hparagraphs
  exact hparagraphs

/-! ## Where ranges start and end -/

/-- What is found in the paragraphs is in the order of their numbers. -/
theorem InOrder.pairwise_flatMap {α : Type} (h : doc.InOrder) {f : Path × Paragraph → List α}
    {number : α → NodeId} (hf : ∀ x, ∀ a ∈ f x, number a = x.2.id) :
    (doc.placedParagraphs.flatMap f).Pairwise fun a b => number a ≤ number b := by
  refine List.pairwise_flatMap.2 ⟨fun x _ => ?_, ?_⟩
  · exact List.pairwise_of_forall_mem_list fun a ha b hb => by rw [hf x a ha, hf x b hb]
  · refine h.pairwise_placedParagraphs.imp fun {x y} hlt a ha b hb => ?_
    rw [hf x a ha, hf y b hb]
    exact Nat.le_of_lt hlt

theorem InOrder.pairwise_rangeStarts (h : doc.InOrder) :
    doc.rangeStarts.Pairwise fun a b => a.2.1 ≤ b.2.1 := by
  refine h.pairwise_flatMap fun x a ha => ?_
  obtain ⟨item, -, hitem⟩ := List.mem_filterMap.1 ha
  cases item <;> cases hitem
  rfl

/-- The regions are in the order in which they start. -/
theorem InOrder.pairwise_regions (h : doc.InOrder) :
    doc.regions.Pairwise fun r r' => r.start ≤ r'.start := by
  refine List.Pairwise.filterMap _ (fun a b hle r hr r' hr' => ?_) h.pairwise_rangeStarts
  rw [start_of_regionAt? hr, start_of_regionAt? hr']
  exact hle

/-- In a document that is well-ordered, a range starts before its last end. -/
theorem InOrder.le_lastEnd (h : doc.InOrder) (hwell : doc.WellOrdered) {c : Comment}
    (hc : c ∈ doc.comments) {p : Paragraph} (hp : p ∈ doc.paragraphs)
    (hstart : .rangeStart c.id ∈ p.content) : p.id ≤ (doc.lastEnd c.id p).id := by
  rw [lastEnd]
  cases hfind : doc.paragraphs.reverse.find? fun q => .rangeEnd c.id ∈ q.content with
  | none => exact Nat.le_refl _
  | some q =>
    rw [Option.getD_some]
    obtain ⟨hend, later, before, hsplit, hlater⟩ := List.find?_eq_some_iff_append.1 hfind
    have hend : .rangeEnd c.id ∈ q.content := by simpa using hend
    have hsplit : doc.paragraphs = before.reverse ++ q :: later.reverse := by
      simpa using congrArg List.reverse hsplit
    by_contra hlt
    -- The range starts after the paragraph where it ends for the last time.
    have hplater : p ∈ later := by
      have hpairwise := List.pairwise_map.1 (pairwise_paragraphs h.pairwise)
      rw [hsplit, List.pairwise_append] at hpairwise
      rw [hsplit, List.mem_append, List.mem_cons, List.mem_reverse] at hp
      rcases hp with hp | rfl | hp
      · have hltq := hpairwise.2.2 p (List.mem_reverse.2 hp) q List.mem_cons_self
        exact absurd (Nat.le_of_lt hltq) hlt
      · exact absurd (Nat.le_refl _) hlt
      · exact List.mem_reverse.1 hp
    have hanchors : doc.anchors = (before.reverse ++ [q]).flatMap Paragraph.anchors ++
        later.reverse.flatMap Paragraph.anchors := by
      rw [anchors, hsplit, ← List.flatMap_append, List.append_assoc, List.singleton_append]
    have hnone : ∀ item ∈ (later.reverse.flatMap Paragraph.anchors).reverse,
        decide (item ≠ .rangeEnd c.id) = true := by
      intro item hitem
      rw [List.mem_reverse, List.mem_flatMap] at hitem
      obtain ⟨x, hx, hitem⟩ := hitem
      rw [decide_eq_true_iff]
      rintro rfl
      have hx := hlater x (List.mem_reverse.1 hx)
      simp [(List.mem_filter.1 hitem).1] at hx
    refine hwell c hc ?_ ?_
    · exact List.mem_flatMap.2 ⟨q, by simp [hsplit], List.mem_filter.2 ⟨hend, rfl⟩⟩
    · rw [hanchors, List.reverse_append, List.takeWhile_append_of_pos hnone]
      refine List.mem_append_left _ (List.mem_reverse.2 (List.mem_flatMap.2 ⟨p, ?_, ?_⟩))
      · exact List.mem_reverse.2 hplater
      · exact List.mem_filter.2 ⟨hstart, rfl⟩

/-! ## Regions -/

/-- What is under a number in a document is in the segment of its block. -/
theorem InOrder.exists_segment (h : doc.InOrder) {around : List CellPosition} {id : NodeId}
    (hid : id ∈ doc.siblings around) : ∃ (b : Block) (pre post : List Placed), b.id = id ∧
      doc.outline = pre ++ b.outline around ++ post ∧
        ∀ e ∈ doc.outline, e.node.isBlock → e.IsUnder id → e ∈ b.outline around := by
  obtain ⟨x, hx, hblock, haround, rfl⟩ := Placed.mem_siblings_iff.1 hid
  obtain ⟨b, hb⟩ := Option.isSome_iff_exists.1 (isSome_node?_iff.2 ⟨x, hx, hblock, rfl⟩)
  have hnodup : (Placed.originalIds x.id doc.outline).Nodup :=
    List.Sublist.nodup (List.filter_sublist.map _) h.nodup
  obtain ⟨pre, post, around', hout, hmem⟩ :=
    exists_segment_of_node? hnodup (h.bounds x hx).1 (Nat.le_refl _) hb
  have hbid := (node_mem_outline hb).1
  have hnode : (⟨b.node, around'⟩ : Placed) ∈ doc.outline := by
    rw [hout]
    exact List.mem_append_left _ (List.mem_append_right _ (b.node_mem_outline around'))
  have heq := List.inj_on_of_nodup_map h.nodup hnode hx (b.id_node.trans hbid)
  obtain rfl : around' = around := by rw [← haround, ← heq]
  exact ⟨b, pre, post, hbid, hout, hmem⟩

/-- What is under a block has a number from that of the block on, and lower than those of
    the siblings that come after the block. -/
theorem InOrder.le_of_isUnder (h : doc.InOrder) {around : List CellPosition} {first : NodeId}
    (hfirst : first ∈ doc.siblings around) {e : Placed} (he : e ∈ doc.outline)
    (hblock : e.node.isBlock) (hunder : e.IsUnder first) :
    first ≤ e.id ∧ ∀ second ∈ doc.siblings around, first < second → e.id < second := by
  obtain ⟨b, pre, post, rfl, hout, hmem⟩ := h.exists_segment hfirst
  have he := hmem e he hblock hunder
  refine ⟨?_, fun second hsecond hlt => ?_⟩
  · have hpairwise := h.pairwise
    rw [hout, List.map_append, List.map_append, List.pairwise_append, List.pairwise_append]
      at hpairwise
    cases b with
    | paragraph p =>
      rw [Block.outline_paragraph, List.mem_singleton] at he
      rw [he]
      exact Nat.le_refl _
    | table t =>
      rw [Block.outline_table] at he hpairwise
      rcases List.mem_cons.1 he with rfl | he
      · exact Nat.le_refl _
      · rw [Table.outline, List.map_cons, List.pairwise_cons] at hpairwise
        exact Nat.le_of_lt (hpairwise.1.2.1.1 _ (List.mem_map_of_mem he))
  · obtain ⟨x, hx, hxblock, hxaround, rfl⟩ := Placed.mem_siblings_iff.1 hsecond
    rw [hout, List.mem_append, List.mem_append] at hx
    rcases hx with (hx | hx) | hx
    · have hbefore := (h.lt_of_segment hout (b.node_mem_outline around)).1 x hx
      exact absurd hlt (Nat.not_lt.2 (Nat.le_of_lt (b.id_node ▸ hbefore)))
    · -- Nothing else in the block has the same cells around.
      have hsame : x.id ∈ Placed.siblings around (Block.outlineOf [b] around) :=
        Placed.mem_siblings_iff.2 ⟨x, by simpa using hx, hxblock, hxaround, rfl⟩
      rw [Block.siblings_outlineOf, List.map_singleton, List.mem_singleton] at hsame
      exact absurd hlt (Nat.not_lt.2 (Nat.le_of_eq hsame))
    · exact (h.lt_of_segment hout he).2 x hx

theorem siblings_of_segment {bs : List Block} {pre post : List Placed}
    {around : List CellPosition} (hout : doc.outline = pre ++ Block.outlineOf bs around ++ post) :
    doc.siblings around =
      Placed.siblings around pre ++ bs.map Block.id ++ Placed.siblings around post := by
  rw [siblings, hout, Placed.siblings_append, Placed.siblings_append, Block.siblings_outlineOf]

/-- Neighbours are in the order of what is in them. -/
theorem InOrder.le_of_isUnder_of_le (h : doc.InOrder) {around : List CellPosition} {x y : NodeId}
    (hx : x ∈ doc.siblings around) (hy : y ∈ doc.siblings around) {e e' : Placed}
    (he : e ∈ doc.outline) (hblock : e.node.isBlock) (hunder : e.IsUnder x)
    (he' : e' ∈ doc.outline) (hblock' : e'.node.isBlock) (hunder' : e'.IsUnder y)
    (hle : e.id ≤ e'.id) : x ≤ y := by
  by_contra hyx
  have hbefore := (h.le_of_isUnder hy he' hblock' hunder').2 _ hx (Nat.lt_of_not_le hyx)
  have hafter := (h.le_of_isUnder hx he hblock hunder).1
  exact absurd hle (Nat.not_le.2 (Nat.lt_of_lt_of_le hbefore hafter))

/-- A paragraph that is in a block is under its number. -/
theorem exists_isUnder_of_mem_paragraphs {bs : List Block} {pre post : List Placed}
    {around : List CellPosition} (hout : doc.outline = pre ++ Block.outlineOf bs around ++ post)
    {b : Block} (hb : b ∈ bs) {p : Paragraph} (hp : p ∈ b.paragraphs) :
    ∃ a, ⟨.paragraph p, a⟩ ∈ doc.outline ∧ Placed.IsUnder b.id ⟨.paragraph p, a⟩ := by
  rw [b.paragraphs_eq_outline around] at hp
  obtain ⟨⟨q | _ | _, a⟩, he, hq⟩ := List.mem_filterMap.1 hp
  · obtain rfl := Option.some.inj hq
    refine ⟨a, ?_, ?_⟩
    · rw [hout]
      exact List.mem_append_left _ (List.mem_append_right _ (List.mem_flatMap.2 ⟨b, hb, he⟩))
    · rcases Block.eq_or_around_of_mem_outline he rfl with heq | hposition
      · exact .inl ((congrArg Placed.id heq).trans b.id_node)
      · exact .inr hposition
  · cases hq
  · cases hq

/-- The blocks of a region are neighbours, and in a document that is well-ordered, the
    paragraph where it starts is in the first one of them. -/
theorem InOrder.region_siblings (h : doc.InOrder) (hwell : doc.WellOrdered) {r : Region}
    (hr : r ∈ doc.regions) : ∃ around first rest, r.blocks = first :: rest ∧
      r.blocks <:+: doc.siblings around ∧ ∃ p a, ⟨.paragraph p, a⟩ ∈ doc.outline ∧
        p.id = r.start ∧ Placed.IsUnder first ⟨.paragraph p, a⟩ := by
  obtain ⟨path, p, c, hc, hp, hitem, e, hspans⟩ := exists_of_mem_regions hr
  obtain ⟨hc, hid⟩ := comment?_eq_some hc
  have hle := h.le_lastEnd hwell hc (mem_paragraphs_iff.2 ⟨path, hp⟩) (hid ▸ hitem)
  rw [hid] at hle
  obtain ⟨first, last, hhead, hlast, hends⟩ := e.ends
  obtain ⟨rest, hcovered⟩ := List.head?_eq_some_iff.1 hhead
  obtain ⟨pre, post, around, hout, -⟩ := Block.exists_segment e.container []
  have hout : doc.outline =
      pre ++ Block.outlineOf (e.before ++ e.covered ++ e.after) around ++ post := hout
  have hpart : e.covered.map Block.id <:+: doc.siblings around := by
    rw [siblings_of_segment hout]
    exact (List.IsInfix.map Block.id ⟨e.before, e.after, rfl⟩).trans ⟨_, _, rfl⟩
  have hin : ∀ {b : Block} {x : Paragraph}, b ∈ e.covered → x ∈ b.paragraphs →
      ∃ a, ⟨.paragraph x, a⟩ ∈ doc.outline ∧ Placed.IsUnder b.id ⟨.paragraph x, a⟩ :=
    fun hb hx => exists_isUnder_of_mem_paragraphs hout (by simp [hb]) hx
  have hfirst : first ∈ e.covered := by simp [hcovered]
  have hlast : last ∈ e.covered := List.mem_of_getLast? hlast
  -- If the range ends in the first block, then that is the last one, too.
  have hpfirst : p ∈ first.paragraphs := by
    rcases hends with ⟨hpfirst, -⟩ | ⟨hplast, hqfirst⟩
    · exact hpfirst
    · obtain ⟨a, hpa, hunder⟩ := hin hlast hplast
      obtain ⟨a', hqa, hunder'⟩ := hin hfirst hqfirst
      have hids := h.le_of_isUnder_of_le (hpart.subset (List.mem_map_of_mem hlast))
        (hpart.subset (List.mem_map_of_mem hfirst)) hpa rfl hunder hqa rfl hunder' hle
      have hpairwise : (e.covered.map Block.id).Pairwise (· < ·) :=
        (h.pairwise.sublist Placed.siblings_sublist).sublist hpart.sublist
      rw [hcovered, List.map_cons, List.pairwise_cons] at hpairwise
      rw [hcovered, List.mem_cons] at hlast
      rcases hlast with rfl | hlast
      · exact hplast
      · exact absurd hids (Nat.not_le.2 (hpairwise.1 _ (List.mem_map_of_mem hlast)))
  obtain ⟨a, hpa, hunder⟩ := hin hfirst hpfirst
  refine ⟨around, first.id, rest.map Block.id, ?_, ?_, p, a, hpa, hspans.start.symm, hunder⟩
  · rw [hspans.blocks, hcovered, List.map_cons]
  · rw [hspans.blocks]
    exact hpart

/-- Two regions have no block in common if the second one starts after the first one and in
    a paragraph that is not in the first one. -/
theorem InOrder.disjoint_blocks (h : doc.InOrder) (hwell : doc.WellOrdered) {r r' : Region}
    (hr : r ∈ doc.regions) (hr' : r' ∈ doc.regions) (hle : r.start ≤ r'.start)
    (hstart : r'.start ∉ r.paragraphIds doc) : r.blocks.Disjoint r'.blocks := by
  obtain ⟨around, first, rest, hblocks, hpart, p, a, hp, hpid, hunder⟩ :=
    h.region_siblings hwell hr
  obtain ⟨around', first', rest', hblocks', hpart', p', a', hp', hpid', hunder'⟩ :=
    h.region_siblings hwell hr'
  intro id hid hid'
  -- A common block has both containers around it.
  obtain rfl : around' = around := by
    obtain ⟨x, hx, -, hxaround, hxid⟩ := Placed.mem_siblings_iff.1 (hpart.subset hid)
    obtain ⟨x', hx', -, hxaround', hxid'⟩ := Placed.mem_siblings_iff.1 (hpart'.subset hid')
    rw [← hxaround, ← hxaround', List.inj_on_of_nodup_map h.nodup hx hx' (hxid.trans hxid'.symm)]
  have hfirst : first ∈ r.blocks := by simp [hblocks]
  have hfirst' : first' ∈ r'.blocks := by simp [hblocks']
  have hpairwise : (doc.siblings around').Pairwise (· < ·) :=
    h.pairwise.sublist Placed.siblings_sublist
  obtain ⟨before, after, hsplit⟩ := hpart
  have hcases := hpart'.subset hfirst'
  rw [← hsplit, List.mem_append, List.mem_append] at hcases
  have hpairwiseSplit := hpairwise
  rw [← hsplit, List.pairwise_append, List.pairwise_append] at hpairwiseSplit
  rcases hcases with (hbefore | hin) | hafter
  · -- The second range would start before the first one.
    have hlt := hpairwiseSplit.1.2.2 _ hbefore _ hfirst
    have hmem : first ∈ doc.siblings around' := by rw [← hsplit]; simp [hfirst]
    have hlow := (h.le_of_isUnder (hpart'.subset hfirst') hp' rfl hunder').2 _ hmem hlt
    have hhigh := (h.le_of_isUnder hmem hp rfl hunder).1
    refine absurd hle (Nat.not_le.2 ?_)
    rw [← hpid, ← hpid']
    exact Nat.lt_of_lt_of_le hlow hhigh
  · -- The second range would start in the first region.
    refine hstart ((Region.mem_paragraphIds_iff (n := doc.lastId) ?_ fun id hid => ?_).2
      ⟨p', a', hp', hpid', first', hin, hunder'⟩)
    · exact List.Sublist.nodup (List.filter_sublist.map _) h.nodup
    · obtain ⟨x, hx, -, rfl⟩ := (region_spec hr).2.2 id hid
      exact h.bounds x hx
  · -- All blocks of the second region would come after those of the first one.
    have hlt := hpairwiseSplit.2.2 id (List.mem_append_right _ hid) first' hafter
    have hsub : r'.blocks.Pairwise (· < ·) := hpairwise.sublist hpart'.sublist
    rw [hblocks', List.pairwise_cons] at hsub
    rw [hblocks', List.mem_cons] at hid'
    rcases hid' with rfl | hid'
    · exact Nat.lt_irrefl _ hlt
    · exact Nat.lt_asymm hlt (hsub.1 id hid')

end Document

end DocTemplate
