import DocTemplate.Proofs.Document.Edit
import Mathlib.Data.List.Infix
import Mathlib.Data.List.Nodup

/-!
# Siblings

The blocks of a container have the same cells around them, and where no number is given
twice no other block has: the cells around tell one container from all others. So the
blocks of a container, in order, can be read off the outline (`Placed.siblings`), and
what an edit does to them is what it does to a segment of the outline.

* `Block.exists_of_suffix`: what is in a cell at a position;
* `Block.exists_unique_segment`: a container holds all blocks with its cells around;
* `Document.replaceBlocks?_ne_none`: siblings that are neighbours can be replaced.
-/

namespace DocTemplate

/-- Items of lists that have no item in common are different. -/
theorem nodup_map_of_nodup_flatMap {α β : Type} {f : α → β} {g : α → List β} {as : List α}
    (hf : ∀ a, f a ∈ g a) (h : (as.flatMap g).Nodup) : (as.map f).Nodup := by
  refine List.pairwise_map.2 ((List.nodup_flatMap.1 h).2.imp fun {a b} hdisjoint heq => ?_)
  exact hdisjoint (hf a) (heq ▸ hf b)

/-- The numbers of the blocks that have exactly the given cells around, in order. -/
def Placed.siblings (around : List CellPosition) (es : List Placed) : List NodeId :=
  (es.filter fun e => e.node.isBlock && e.around = around).map id

namespace Placed

variable {around : List CellPosition} {es es' : List Placed} {id : NodeId}

@[simp] theorem siblings_append :
    siblings around (es ++ es') = siblings around es ++ siblings around es' := by
  simp [siblings]

theorem mem_siblings_iff : id ∈ siblings around es ↔
    ∃ e ∈ es, e.node.isBlock ∧ e.around = around ∧ e.id = id := by
  simp [siblings, and_assoc]

theorem siblings_eq_nil (h : ∀ e ∈ es, e.node.isBlock → e.around ≠ around) :
    siblings around es = [] := by
  rw [siblings, List.map_eq_nil_iff, List.filter_eq_nil_iff]
  intro e he
  simpa using h e he

theorem siblings_sublist : (siblings around es).Sublist (es.map Placed.id) :=
  List.filter_sublist.map _

end Placed

namespace Block

/-- A node in a cell of a block is in the table that the block is, in the cell at that
    position. -/
theorem exists_of_suffix {b : Block} {around : List CellPosition} {e : Placed}
    (he : e ∈ b.outline around) {position : CellPosition} (hs : position :: around <:+ e.around) :
    ∃ t, b = .table t ∧ t.id = position.table ∧ ∃ row ∈ t.rows, row.id = position.row ∧
      ∃ cell, row.cells[position.cell]? = some cell ∧
        e ∈ outlineOf cell.content (position :: around) := by
  have hlt := hs.length_le
  cases b with
  | paragraph p =>
    rw [outline_paragraph, List.mem_singleton] at he
    subst he
    exact absurd hlt (Nat.not_succ_le_self _)
  | table t =>
    rw [outline_table] at he
    rcases Table.mem_outline.1 he with rfl | ⟨row, hrow, he⟩
    · exact absurd hlt (Nat.not_succ_le_self _)
    rcases Row.mem_outline.1 he with rfl | ⟨cell, i, item, hcell, hitem, he⟩
    · exact absurd hlt (Nat.not_succ_le_self _)
    -- Two positions of the same depth around a node are the same.
    have hs' := suffix_of_mem_outline he
    have heq : position :: around = ⟨t.id, row.id, i⟩ :: around :=
      (List.suffix_of_suffix_length_le hs hs' (by simp)).eq_of_length (by simp)
    obtain rfl := (List.cons.inj heq).1
    exact ⟨t, rfl, rfl, row, hrow, rfl, cell, hcell, List.mem_flatMap.2 ⟨item, hitem, he⟩⟩

/-- The blocks of a container are those with the cells around the container. -/
theorem siblings_outlineOf (bs : List Block) (around : List CellPosition) :
    Placed.siblings around (outlineOf bs around) = bs.map id := by
  have hblock : ∀ b : Block, Placed.siblings around (b.outline around) = [b.id] := by
    intro b
    cases b with
    | paragraph p => simp [Placed.siblings, Node.isBlock, Placed.id, Node.id, id]
    | table t =>
      have hrest : Placed.siblings around
          (t.rows.flatMap (Row.outline outline around t.id)) = [] := by
        refine Placed.siblings_eq_nil fun e he hblock heq => ?_
        obtain ⟨row, -, he⟩ := List.mem_flatMap.1 he
        rcases Row.mem_outline.1 he with rfl | ⟨cell, i, item, -, -, he⟩
        · cases hblock
        · have hle := (suffix_of_mem_outline he).length_le
          rw [heq] at hle
          exact absurd hle (Nat.not_succ_le_self _)
      rw [outline_table, Table.outline, ← List.singleton_append, Placed.siblings_append, hrest]
      simp [Placed.siblings, Node.isBlock, Placed.id, Node.id, id]
  induction bs with
  | nil => rfl
  | cons b bs ih => rw [outlineOf_cons, Placed.siblings_append, hblock, ih]; rfl

theorem id_mem_map_id_outline (b : Block) (around : List CellPosition) :
    b.id ∈ (b.outline around).map Placed.id :=
  List.mem_map.2 ⟨_, b.node_mem_outline around, b.id_node⟩

/-- Where no number is given twice, no two blocks in a list have the same one. -/
theorem nodup_map_id {bs : List Block} {around : List CellPosition}
    (h : ((outlineOf bs around).map Placed.id).Nodup) : (bs.map id).Nodup := by
  rw [outlineOf, List.map_flatMap] at h
  exact nodup_map_of_nodup_flatMap (fun b => b.id_mem_map_id_outline around) h

theorem nodup_map_id_rows {t : Table Block} {around : List CellPosition}
    (h : ((t.outline outline around).map Placed.id).Nodup) : (t.rows.map Row.id).Nodup := by
  rw [Table.outline, List.map_cons, List.map_flatMap] at h
  refine nodup_map_of_nodup_flatMap (fun row => ?_) (List.nodup_cons.1 h).2
  exact List.mem_map.2 ⟨⟨.row row.id, around⟩, by simp [Row.outline], rfl⟩

/-- Where no number is given twice, what has a cell around it is in that cell. -/
theorem mem_content_of_suffix {blocks : List Block} {around : List CellPosition}
    (hnodup : ((outlineOf blocks around).map Placed.id).Nodup) {b r c : Nat} {t : Table Block}
    (hb : blocks[b]? = some (.table t)) {row : Row Block} (hr : t.rows[r]? = some row)
    {cell : Cell Block} (hc : row.cells[c]? = some cell) {e : Placed}
    (he : e ∈ outlineOf blocks around) (hs : ⟨t.id, row.id, c⟩ :: around <:+ e.around) :
    e ∈ outlineOf cell.content (⟨t.id, row.id, c⟩ :: around) := by
  obtain ⟨b', hb', he⟩ := List.mem_flatMap.1 he
  obtain ⟨t', rfl, ht', row', hrow', hrid, cell', hcell', he⟩ := exists_of_suffix he hs
  obtain rfl : t' = t := by
    have hinj := List.inj_on_of_nodup_map (nodup_map_id hnodup) hb' (List.mem_of_getElem? hb) ht'
    exact Block.table.inj hinj
  have hnodupTable : ((t'.outline outline around).map Placed.id).Nodup := by
    obtain ⟨as, bs, hblocks, -⟩ := exists_append_of_getElem? hb
    rw [hblocks, outlineOf_append, outlineOf_cons, List.map_append, List.map_append,
      outline_table] at hnodup
    exact (List.nodup_append.1 (List.nodup_append.1 hnodup).2.1).1
  obtain rfl : row' = row :=
    List.inj_on_of_nodup_map (nodup_map_id_rows hnodupTable) hrow' (List.mem_of_getElem? hr) hrid
  obtain rfl := Option.some.inj (hc.symm.trans hcell')
  exact he

/-- A container is a segment of the outline, and no block outside of the segment has the
    same cells around. -/
theorem exists_unique_segment {blocks xs : List Block} {path : Path}
    (h : container? blocks path = some xs) (around : List CellPosition)
    (hnodup : ((outlineOf blocks around).map Placed.id).Nodup) :
    ∃ pre post inside, outlineOf blocks around = pre ++ outlineOf xs inside ++ post ∧
      around <:+ inside ∧ ∀ e ∈ pre ++ post, e.node.isBlock → e.around ≠ inside := by
  fun_induction container? blocks path generalizing around with
  | case1 blocks =>
    obtain rfl := Option.some.inj h
    exact ⟨[], [], around, by simp, List.suffix_rfl, by simp⟩
  | case2 blocks b r c path t hb ih =>
    obtain ⟨row, hr, h⟩ := Option.bind_eq_some_iff.1 h
    obtain ⟨cell, hc, h⟩ := Option.bind_eq_some_iff.1 h
    obtain ⟨preCell, postCell, hrow, -⟩ := @Row.exists_segment _ outline around _ _ _ hc t.id
    obtain ⟨preRow, postRow, htable, -, -⟩ := @Table.exists_segment _ outline around _ _ _ hr
    obtain ⟨as, bs, hblocks, -⟩ := exists_append_of_getElem? hb
    have hcell : outlineOf blocks around = (outlineOf as around ++ preRow ++ preCell) ++
        outlineOf cell.content (⟨t.id, row.id, c⟩ :: around) ++
          (postCell ++ postRow ++ outlineOf bs around) := by
      rw [hblocks, outlineOf_append, outlineOf_cons, outline_table, htable, hrow]
      simp [Cell.outline, outlineOf]
    have hnodupCell : ((outlineOf cell.content (⟨t.id, row.id, c⟩ :: around)).map
        Placed.id).Nodup := by
      rw [hcell, List.map_append, List.map_append] at hnodup
      exact (List.nodup_append.1 (List.nodup_append.1 hnodup).1).2.1
    obtain ⟨pre, post, inside, hcontent, hsuffix, hother⟩ := ih cell h _ hnodupCell
    refine ⟨outlineOf as around ++ preRow ++ preCell ++ pre,
      post ++ (postCell ++ postRow ++ outlineOf bs around), inside, ?_,
      (List.suffix_cons _ _).trans hsuffix, fun e he hblock heq => ?_⟩
    · rw [hcell, hcontent]
      simp
    -- A node outside of the cell that has the cell around it is in the cell as well.
    have hin : e ∈ outlineOf blocks around →
        e ∈ outlineOf cell.content (⟨t.id, row.id, c⟩ :: around) :=
      fun hmem => mem_content_of_suffix hnodup hb hr hc hmem (heq ▸ hsuffix)
    have houter : e ∉ (outlineOf as around ++ preRow ++ preCell) ++
        (postCell ++ postRow ++ outlineOf bs around) := by
      intro hmem
      have hcontentMem := hin (by
        rw [hcell]
        simp only [List.mem_append] at hmem ⊢
        tauto)
      rw [hcell] at hnodup
      have hnodup := List.Nodup.of_map _ hnodup
      simp only [List.nodup_append, List.mem_append] at hnodup hmem
      grind
    refine hother e ?_ hblock heq
    simp only [List.mem_append] at he houter ⊢
    tauto
  | case3 => cases h
  | case4 => cases h

end Block

namespace Document

variable {doc : Document}

/-- The blocks with exactly the given cells around, in order. -/
def siblings (doc : Document) (around : List CellPosition) : List NodeId :=
  Placed.siblings around doc.outline

/-- Neighbours among siblings can be replaced, and so can all of them. -/
theorem replaceBlocks?_ne_none (hnodup : (doc.outline.map Placed.id).Nodup) {ids : List NodeId}
    (hne : ids ≠ []) {around : List CellPosition} (h : ids <:+: doc.siblings around)
    (replacement : List Block) : doc.replaceBlocks? ids replacement ≠ none := by
  obtain ⟨first, rest, rfl⟩ := List.exists_cons_of_ne_nil hne
  obtain ⟨e, he, hblock, haround, hid⟩ :=
    Placed.mem_siblings_iff.1 (h.subset List.mem_cons_self)
  cases hpath : doc.locate? first with
  | none => exact absurd hid (locate?_eq_none_iff.1 hpath e he hblock)
  | some path =>
    obtain ⟨xs, k, b, hat, hb⟩ := exists_isAt hpath
    obtain ⟨pre, post, inside, hout, -, hother⟩ :=
      Block.exists_unique_segment hat.container [] hnodup
    -- The container of the first one has the cells around that all of them have.
    have hinside : inside = around := by
      have hmem : (⟨b.node, inside⟩ : Placed) ∈ doc.outline := by
        rw [outline, hout]
        refine List.mem_append_left _ (List.mem_append_right _ ?_)
        exact List.mem_flatMap.2 ⟨b, List.mem_of_getElem? hat.block, b.node_mem_outline inside⟩
      have heq := List.inj_on_of_nodup_map hnodup hmem he
        ((b.id_node.trans hb).trans hid.symm)
      rw [← haround, ← heq]
    subst hinside
    have hsiblings : doc.siblings inside = xs.map Block.id := by
      rw [siblings, outline, hout, Placed.siblings_append, Placed.siblings_append,
        Block.siblings_outlineOf,
        Placed.siblings_eq_nil fun e he => hother e (List.mem_append_left _ he),
        Placed.siblings_eq_nil fun e he => hother e (List.mem_append_right _ he)]
      simp
    have hnodupXs : (xs.map Block.id).Nodup := by
      rw [← hsiblings]
      exact Placed.siblings_sublist.nodup hnodup
    -- They start where the first one is.
    obtain ⟨before, after, hsplit⟩ := h
    rw [hsiblings] at hsplit
    have hlength : before.length = k := by
      have hk : (xs.map Block.id)[k]? = some first := by simp [hat.block, hb]
      have hbefore : (xs.map Block.id)[before.length]? = some first := by simp [← hsplit]
      obtain ⟨hlt, hget⟩ := List.getElem?_eq_some_iff.1 hk
      obtain ⟨hlt', hget'⟩ := List.getElem?_eq_some_iff.1 hbefore
      exact (hnodupXs.getElem_inj_iff).1 (hget'.trans hget.symm)
    have hremoved : ((xs.drop k).take (first :: rest).length).map Block.id = first :: rest := by
      rw [List.map_take, List.map_drop, ← hsplit, ← hlength]
      simp
    obtain ⟨_, _, _, -, hmodify⟩ := hat.exists_segment
    obtain ⟨body, hbody, -⟩ := hmodify fun _ blocks =>
      blocks.take k ++ replacement ++ blocks.drop (k + (first :: rest).length)
    simp only [replaceBlocks?, List.head?_cons, Option.bind_some, hpath, hat.last, hat.siblings?,
      hremoved, if_true, hbody, Option.map_some]
    simp

end Document

end DocTemplate
