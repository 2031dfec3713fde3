import DocTemplate.Proofs.Document.Edit
import DocTemplate.Proofs.Document.Similarity

/-!
# Paragraphs that stay

The paragraphs at the top of a document are those that are in no table. A document retains some
of them if they are there, each once and in their order, and no other node has a number of theirs
(`Document.Retains`). An exchange of segments with none of these numbers changes nothing about
it. For most segments there is little to check: a retained paragraph is in no cell, so it is not
in a row at all, and it is in a block only if the block has its number.

* `Document.map_topParagraphs`: these paragraphs in the outline;
* `Document.retains_of_sublist`: a document whose nodes are numbered retains any of them;
* `Document.Retains.exchange`: an exchange of other segments;
* `Document.Retains.filter_topParagraphs`, `Document.Retains.filter_paragraphs`: what it says
  about paragraphs.
-/

/-- Some of the values, if all have different keys, are those with their keys. -/
theorem List.Sublist.filter_mem_map {α β : Type} [DecidableEq β] {f : α → β} {as bs : List α}
    (h : as.Sublist bs) (hnodup : (bs.map f).Nodup) : bs.filter (fun b => f b ∈ as.map f) = as := by
  induction h with
  | slnil => rfl
  | @cons as bs b h ih =>
    rw [List.map_cons, List.nodup_cons] at hnodup
    have hb : f b ∉ as.map f := fun hmem => hnodup.1 ((h.map f).subset hmem)
    rw [List.filter_cons_of_neg (by simpa using hb), ih hnodup.2]
  | @cons_cons as bs a h ih =>
    rw [List.map_cons, List.nodup_cons] at hnodup
    rw [List.filter_cons_of_pos (by simp)]
    refine congrArg (a :: ·) ((List.filter_congr fun b hb => ?_).trans (ih hnodup.2))
    have hne : f b ≠ f a := fun heq => hnodup.1 (heq ▸ List.mem_map_of_mem hb)
    simp [hne]

namespace DocTemplate

/-- A paragraph at the top of a document. -/
def Placed.top (p : Paragraph) : Placed :=
  ⟨.paragraph p, []⟩

/-- Whether a node is a paragraph at the top of a document. -/
def Placed.isTop (x : Placed) : Bool :=
  x.node.paragraph?.isSome && x.around.isEmpty

namespace Document

variable {doc doc' : Document} {ps : List Paragraph} {x : Placed}

/-- The paragraphs at the top of the document, in order. -/
def topParagraphs (doc : Document) : List Paragraph :=
  doc.body.filterMap Block.paragraph?

theorem map_topParagraphs (doc : Document) :
    doc.topParagraphs.map Placed.top = doc.outline.filter Placed.isTop := by
  rw [topParagraphs, outline]
  induction doc.body with
  | nil => rfl
  | cons b bs ih =>
    rw [Block.outlineOf_cons, List.filter_append, ← ih]
    cases b with
    | paragraph p =>
      rw [List.filterMap_cons, Block.outline_paragraph]
      rfl
    | table t =>
      -- What is in the table is in a cell.
      have hnil : ((Block.table t).outline []).filter Placed.isTop = [] := by
        refine List.filter_eq_nil_iff.2 fun x hx => ?_
        rw [Block.outline_table] at hx
        rcases Table.cases_of_mem_outline hx with rfl | ⟨r, -, rfl⟩ | ⟨b, -, position, -, hx⟩
        · simp [Placed.isTop, Node.paragraph?]
        · simp [Placed.isTop, Node.paragraph?]
        · have hne : x.around ≠ [] := fun hnil => by
            simpa [hnil] using Block.suffix_of_mem_outline hx
          simp [Placed.isTop, hne]
      rw [List.filterMap_cons_none rfl, hnil, List.nil_append]

/-- Numbering a document changes nothing else in the paragraphs at its top. -/
theorem topParagraphs_assignIds (doc : Document) :
    doc.assignIds.topParagraphs.map Paragraph.unnumbered =
      doc.topParagraphs.map Paragraph.unnumbered := by
  have hsimilar : List.Forall₂ Block.Similar doc.body doc.assignIds.body :=
    similar_numberBlocks _ _
  rw [topParagraphs, topParagraphs, List.map_filterMap, List.map_filterMap,
    List.filterMap_eq_flatMap_toList, List.filterMap_eq_flatMap_toList]
  refine hsimilar.flatMap_eq fun b b' hb => congrArg Option.toList ?_
  cases b with
  | paragraph p =>
    obtain ⟨q, rfl, hq⟩ := Block.related_paragraph.1 hb
    exact congrArg some hq
  | table t =>
    obtain ⟨t', rfl, -⟩ := Block.related_table.1 hb
    rfl

/-! ## Retention -/

/-- The nodes of the document with the numbers of some paragraphs are these paragraphs, at its
    top and in this order. -/
def Retains (doc : Document) (ps : List Paragraph) : Prop :=
  (doc.outline.filter fun x => x.id ∈ ps.map Paragraph.id) = ps.map Placed.top

/-- Where no number is there twice, some of the paragraphs at the top are retained. -/
theorem retains_of_sublist (hnodup : (doc.outline.map Placed.id).Nodup)
    (hps : ps.Sublist doc.topParagraphs) : doc.Retains ps := by
  have hsub : (ps.map Placed.top).Sublist doc.outline := by
    refine (hps.map Placed.top).trans ?_
    rw [map_topParagraphs]
    exact List.filter_sublist
  have hids : (ps.map Placed.top).map Placed.id = ps.map Paragraph.id := by
    rw [List.map_map]
    rfl
  rw [Retains, ← hids]
  exact hsub.filter_mem_map hnodup

namespace Retains

theorem exists_of_mem (h : doc.Retains ps) (hx : x ∈ doc.outline)
    (hid : x.id ∈ ps.map Paragraph.id) : ∃ p ∈ ps, x = Placed.top p := by
  have hmem : x ∈ ps.map Placed.top := by
    rw [← h]
    exact List.mem_filter.2 ⟨hx, decide_eq_true hid⟩
  obtain ⟨p, hp, rfl⟩ := List.mem_map.1 hmem
  exact ⟨p, hp, rfl⟩

theorem mem (h : doc.Retains ps) {p : Paragraph} (hp : p ∈ ps) : Placed.top p ∈ doc.outline := by
  have hmem : Placed.top p ∈ ps.map Placed.top := List.mem_map_of_mem hp
  rw [← h] at hmem
  exact (List.mem_filter.1 hmem).1

/-- A table has none of the numbers. -/
theorem not_mem_of_table (h : doc.Retains ps) {id : NodeId} {around : List CellPosition}
    (hx : ⟨.table id, around⟩ ∈ doc.outline) : id ∉ ps.map Paragraph.id := by
  intro hid
  obtain ⟨p, -, heq⟩ := h.exists_of_mem hx hid
  cases heq

/-- Nothing in a row has one. -/
theorem not_mem_of_row (h : doc.Retains ps) {row : Row Block} {table : NodeId}
    {around : List CellPosition} (hsub : row.outline Block.outline around table ⊆ doc.outline) :
    ∀ x ∈ row.outline Block.outline around table, x.id ∉ ps.map Paragraph.id := by
  intro x hx hid
  obtain ⟨p, -, rfl⟩ := h.exists_of_mem (hsub hx) hid
  rcases Row.mem_outline.1 hx with heq | ⟨cell, i, item, -, -, hx⟩
  · cases heq
  · simpa [Placed.top] using Block.suffix_of_mem_outline hx

/-- In a block, only the block itself may have one. -/
theorem not_mem_of_block (h : doc.Retains ps) {b : Block} {around : List CellPosition}
    (hsub : b.outline around ⊆ doc.outline) (hb : b.id ∉ ps.map Paragraph.id) :
    ∀ x ∈ b.outline around, x.id ∉ ps.map Paragraph.id := by
  intro x hx hid
  obtain ⟨p, -, rfl⟩ := h.exists_of_mem (hsub hx) hid
  rcases Block.eq_or_around_of_mem_outline hx rfl with heq | ⟨position, hposition, -⟩
  · rw [heq] at hid
    exact hb (b.id_node ▸ hid)
  · cases hposition

theorem exchange (h : doc.Retains ps) {old new : List Placed} (hex : doc.Exchange old new doc')
    (hold : ∀ x ∈ old, x.id ∉ ps.map Paragraph.id) (hnew : ∀ x ∈ new, x.id ∉ ps.map Paragraph.id) :
    doc'.Retains ps := by
  have hnil : ∀ xs : List Placed, (∀ x ∈ xs, x.id ∉ ps.map Paragraph.id) →
      (xs.filter fun x => x.id ∈ ps.map Paragraph.id) = [] := fun xs hxs =>
    List.filter_eq_nil_iff.2 fun x hx => by simpa using hxs x hx
  obtain ⟨pre, post, hdoc, hdoc'⟩ := hex.outline
  rw [Retains, ← h, hdoc, hdoc']
  simp only [List.filter_append, hnil old hold, hnil new hnew]

theorem removeBlock? (h : doc.Retains ps) {id : NodeId} {b : Block}
    (hdoc : doc.removeBlock? id = some (b, doc')) (hid : id ∉ ps.map Paragraph.id) :
    doc'.Retains ps := by
  obtain ⟨rfl, around, hex⟩ := exchange_of_removeBlock? hdoc
  exact h.exchange hex (h.not_mem_of_block hex.subset hid) (by simp)

theorem removeRow? (h : doc.Retains ps) {id : NodeId} {row : Row Block}
    (hdoc : doc.removeRow? id = some (row, doc')) : doc'.Retains ps := by
  obtain ⟨-, table, around, hex⟩ := exchange_of_removeRow? hdoc
  exact h.exchange hex (h.not_mem_of_row hex.subset) (by simp)

/-! ### Paragraphs -/

/-- At the top, the paragraphs with these numbers are the retained ones. -/
theorem filter_topParagraphs (h : doc.Retains ps) :
    (doc.topParagraphs.filter fun p => p.id ∈ ps.map Paragraph.id) = ps := by
  have htop : (ps.map Placed.top).filter Placed.isTop = ps.map Placed.top := by
    refine List.filter_eq_self.2 fun x hx => ?_
    obtain ⟨p, -, rfl⟩ := List.mem_map.1 hx
    rfl
  have hmap : (doc.topParagraphs.filter fun p => p.id ∈ ps.map Paragraph.id).map Placed.top =
      (doc.topParagraphs.map Placed.top).filter fun x => x.id ∈ ps.map Paragraph.id := by
    rw [List.filter_map]
    rfl
  have hinj : Function.Injective Placed.top := fun p q heq => by cases heq; rfl
  refine List.map_injective_iff.2 hinj ?_
  rw [hmap, map_topParagraphs, List.filter_filter, ← htop, ← h, List.filter_filter]
  exact List.filter_congr fun x _ => Bool.and_comm _ _

/-- Elsewhere there are no paragraphs with these numbers. -/
theorem filter_paragraphs (h : doc.Retains ps) :
    (doc.paragraphs.filter fun p => p.id ∈ ps.map Paragraph.id) = ps := by
  have hfilter : (doc.paragraphs.filter fun p => p.id ∈ ps.map Paragraph.id) =
      (doc.outline.filter fun x => x.id ∈ ps.map Paragraph.id).filterMap Placed.paragraph? := by
    rw [paragraphs_eq_outline, List.filter_filterMap, List.filterMap_filter]
    refine List.filterMap_congr fun x _ => ?_
    rcases x with ⟨p | id | id, around⟩
    · rfl
    · simp [Placed.paragraph?, Node.paragraph?]
    · simp [Placed.paragraph?, Node.paragraph?]
  rw [hfilter, h, List.filterMap_map]
  exact List.filterMap_some

end Retains

end Document

end DocTemplate
