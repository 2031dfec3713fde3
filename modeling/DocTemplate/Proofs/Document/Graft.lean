import DocTemplate.Proofs.Document.Descent
import DocTemplate.Proofs.Document.Siblings
import Mathlib.Data.List.Flatten

/-!
# Grafts

A *graft* puts other blocks in the place of some blocks of a tree, wherever they are. Which
take the place of which is said by number (`Block.graft`). So grafts do not depend on where
in the document their blocks are, and two of them may be made one after the other or at
once.

* `Block.graft_graft`: one graft after another;
* `Block.mem_subblocks_graft`: a block away from what is grafted stays as it is;
* `Document.node?_eq_some_iff`: the block of a number, where no number is given twice;
* `Block.modifyContainer?_eq_flatMap`: a change in one container is one of all blocks, if it
  only affects nodes there (`Block.IsLocal`);
* `Document.replaceBlocks?_eq_graft`: a replacement of neighbours is a graft.
-/

namespace DocTemplate

theorem sublist_flatMap_of_mem {α β : Type} {f : α → List β} {as : List α} {a : α} (h : a ∈ as) :
    (f a).Sublist (as.flatMap f) := by
  rw [List.flatMap_def]
  exact List.sublist_flatten_of_mem (List.mem_map_of_mem h)

section Layers

variable {α β γ : Type}

/-- The cell with any number of items in the place of each. -/
def Cell.flatMap (f : α → List β) (c : Cell α) : Cell β :=
  { c with content := c.content.flatMap f }

/-- The row with any number of items in the place of each. -/
def Row.flatMap (f : α → List β) (r : Row α) : Row β :=
  { r with cells := r.cells.map (Cell.flatMap f) }

/-- The table with any number of items in the place of each. -/
def Table.flatMap (f : α → List β) (t : Table α) : Table β :=
  { t with rows := t.rows.map (Row.flatMap f) }

theorem Table.flatMap_map (f : α → β) (g : β → List γ) (t : Table α) :
    (t.map f).flatMap g = t.flatMap fun a => g (f a) := by
  simp [flatMap, map, Row.flatMap, Row.map, Cell.flatMap, Cell.map, List.flatMap_map]

theorem Table.flatMap_flatMap (f : α → List β) (g : β → List γ) (t : Table α) :
    (t.flatMap f).flatMap g = t.flatMap fun a => (f a).flatMap g := by
  simp [flatMap, Row.flatMap, Cell.flatMap, List.flatMap_assoc]

theorem Row.flatMap_congr {f g : α → List β} {r : Row α} (h : ∀ a ∈ r.items, f a = g a) :
    r.flatMap f = r.flatMap g := by
  have hcells : r.cells.map (Cell.flatMap f) = r.cells.map (Cell.flatMap g) := by
    refine List.map_congr_left fun c hc => ?_
    have hcontent : c.content.flatMap f = c.content.flatMap g :=
      List.flatMap_congr fun a ha => h a (List.mem_flatMap.2 ⟨c, hc, ha⟩)
    rw [Cell.flatMap, Cell.flatMap, hcontent]
  rw [flatMap, flatMap, hcells]

theorem Table.flatMap_congr {f g : α → List β} {t : Table α} (h : ∀ a ∈ t.items, f a = g a) :
    t.flatMap f = t.flatMap g := by
  have hrows : t.rows.map (Row.flatMap f) = t.rows.map (Row.flatMap g) :=
    List.map_congr_left fun r hr => Row.flatMap_congr fun a ha => h a (List.mem_flatMap.2 ⟨r, hr, ha⟩)
  rw [flatMap, flatMap, hrows]

theorem Cell.flatMap_singleton (c : Cell α) : c.flatMap (fun a => [a]) = c := by
  simp [flatMap]

theorem Row.flatMap_singleton (r : Row α) : r.flatMap (fun a => [a]) = r := by
  simp [flatMap, List.map_congr_left fun c _ => Cell.flatMap_singleton c]

theorem Table.flatMap_singleton (t : Table α) : t.flatMap (fun a => [a]) = t := by
  simp [flatMap, List.map_congr_left fun r _ => Row.flatMap_singleton r]

theorem Table.map_eq_flatMap (f : α → β) (t : Table α) : t.map f = t.flatMap fun a => [f a] := by
  simp [map, flatMap, Row.map, Row.flatMap, Cell.map, Cell.flatMap, List.map_eq_flatMap]

theorem Table.items_flatMap (f : α → List β) (t : Table α) :
    (t.flatMap f).items = t.items.flatMap f := by
  simp [items, flatMap, Row.items, Row.flatMap, Cell.flatMap, List.flatMap_map, List.flatMap_assoc]

end Layers

namespace Block

/-! ## The blocks in a block -/

/-- The block and all blocks in it. -/
def subblocks (b : Block) : List Block :=
  (fold (fun p => (paragraph p, [paragraph p])) (fun t =>
    (table (t.map Prod.fst), table (t.map Prod.fst) :: t.items.flatMap Prod.snd)) b).2

@[simp] theorem subblocks_paragraph (p : Paragraph) : (paragraph p).subblocks = [paragraph p] := by
  simp [subblocks]

@[simp] theorem subblocks_table (t : Table Block) :
    (table t).subblocks = table t :: t.items.flatMap subblocks := by
  have hfst : ∀ b : Block, (fold (fun p => (paragraph p, [paragraph p])) (fun t =>
      (table (t.map Prod.fst), table (t.map Prod.fst) :: t.items.flatMap Prod.snd)) b).1 = b := by
    intro b
    induction b using Block.induction with
    | paragraph p => simp
    | table t ih =>
      rw [fold_table, Table.map_eq_flatMap, Table.flatMap_map, Table.flatMap_congr
        fun b hb => congrArg (fun b => [b]) (ih b hb), Table.flatMap_singleton]
  have htable : (t.map (fold (fun p => (paragraph p, [paragraph p])) fun t =>
      (table (t.map Prod.fst), table (t.map Prod.fst) :: t.items.flatMap Prod.snd))).map Prod.fst = t := by
    rw [Table.map_eq_flatMap, Table.flatMap_map, Table.flatMap_congr
      fun b _ => congrArg (fun b => [b]) (hfst b), Table.flatMap_singleton]
  rw [subblocks, fold_table, htable, Table.items_map, List.flatMap_map]
  rfl

theorem self_mem_subblocks (b : Block) : b ∈ b.subblocks := by
  cases b <;> simp

/-- A block is in the table that it is in a cell of. -/
theorem subblocks_subset {t : Table Block} {b : Block} (hb : b ∈ t.items) :
    b.subblocks ⊆ (table t).subblocks := by
  rw [subblocks_table]
  exact fun x hx => List.mem_cons_of_mem _ (List.mem_flatMap.2 ⟨b, hb, hx⟩)

/-- Among all nodes of a block are the blocks in it. -/
theorem map_id_subblocks_sublist (b : Block) : (b.subblocks.map id).Sublist b.ids := by
  induction b using Block.induction with
  | paragraph p => simp [id]
  | table t ih =>
    rw [subblocks_table, List.map_cons, ids_table, Table.ids, List.map_flatMap, Table.items,
      List.flatMap_assoc]
    refine List.Sublist.cons_cons _ (List.Sublist.flatMap_right _ fun r hr => ?_)
    refine .cons _ (List.Sublist.flatMap_right _ fun b hb => ih b ?_)
    exact List.mem_flatMap.2 ⟨r, hr, hb⟩

/-- Among the nodes of a block are those of the blocks in it. -/
theorem ids_sublist_of_mem_subblocks {b x : Block} (h : x ∈ b.subblocks) : x.ids.Sublist b.ids := by
  induction b using Block.induction with
  | paragraph p =>
    obtain rfl : x = paragraph p := by simpa using h
    exact .refl _
  | table t ih =>
    rw [subblocks_table, List.mem_cons] at h
    rcases h with rfl | h
    · exact .refl _
    obtain ⟨b, hb, hx⟩ := List.mem_flatMap.1 h
    obtain ⟨row, hrow, hitem⟩ := List.mem_flatMap.1 hb
    rw [ids_table, Table.ids]
    refine (ih b hb hx).trans (.cons _ (.trans ?_ (sublist_flatMap_of_mem hrow)))
    exact .cons _ (sublist_flatMap_of_mem hitem)

/-- A paragraph directly in a cell is an item of the cell, in a table of the tree; or the
    cell is around the whole tree, which is the paragraph. -/
theorem exists_cell_of_mem_outline {b : Block} {q : Paragraph} {position : CellPosition}
    {around rest : List CellPosition}
    (h : (⟨.paragraph q, position :: rest⟩ : Placed) ∈ b.outline around) :
    (b = .paragraph q ∧ around = position :: rest) ∨ position.row ∈ b.ids ∧
      ∃ t, .table t ∈ b.subblocks ∧ t.id = position.table ∧
        ∃ row ∈ t.rows, row.id = position.row ∧
          ∃ cell, row.cells[position.cell]? = some cell ∧ .paragraph q ∈ cell.content := by
  induction b using Block.induction generalizing around with
  | paragraph p =>
    rw [outline_paragraph, List.mem_singleton] at h
    cases h
    exact .inl ⟨rfl, rfl⟩
  | table t ih =>
    refine .inr ?_
    rw [outline_table] at h
    rcases Table.mem_outline.1 h with h | ⟨row, hrow, h⟩
    · cases h
    rcases Row.mem_outline.1 h with h | ⟨cell, k, item, hcell, hitem, h⟩
    · cases h
    have hmem : item ∈ t.items :=
      Table.mem_items.2 ⟨row, hrow, cell, List.mem_of_getElem? hcell, hitem⟩
    rcases ih item hmem h with ⟨rfl, haround⟩ | ⟨hid, t', ht', hcell'⟩
    · -- The cell is one of the table itself.
      cases haround
      refine ⟨?_, t, self_mem_subblocks _, rfl, row, hrow, rfl, cell, hcell, hitem⟩
      rw [ids_table]
      exact List.mem_cons_of_mem _ (List.mem_flatMap.2 ⟨row, hrow, List.mem_cons_self⟩)
    · have hsub := ids_sublist_of_mem_subblocks (subblocks_subset hmem (self_mem_subblocks item))
      exact ⟨hsub.subset hid, t', subblocks_subset hmem ht', hcell'⟩

/-- Where no number is given twice, it names one block. -/
theorem eq_of_mem_subblocks {bs : List Block} (hnodup : (bs.flatMap ids).Nodup) {x y : Block}
    (hx : x ∈ bs.flatMap subblocks) (hy : y ∈ bs.flatMap subblocks) (hid : x.id = y.id) : x = y := by
  have hsub : ((bs.flatMap subblocks).map id).Sublist (bs.flatMap ids) := by
    rw [List.map_flatMap]
    exact List.Sublist.flatMap_right _ fun b _ => b.map_id_subblocks_sublist
  exact List.inj_on_of_nodup_map (hsub.nodup hnodup) hx hy hid

theorem id_mem_ids_of_mem_subblocks {b x : Block} (h : x ∈ b.subblocks) : x.id ∈ b.ids :=
  b.map_id_subblocks_sublist.subset (List.mem_map_of_mem h)

/-- The nodes of a block in a block are among its nodes. -/
theorem exists_outline_subset {b x : Block} (h : x ∈ b.subblocks) (around : List CellPosition) :
    ∃ a, x.outline a ⊆ b.outline around := by
  induction b using Block.induction generalizing around with
  | paragraph p =>
    obtain rfl : x = paragraph p := by simpa using h
    exact ⟨around, List.Subset.refl _⟩
  | table t ih =>
    rw [subblocks_table, List.mem_cons] at h
    rcases h with rfl | h
    · exact ⟨around, List.Subset.refl _⟩
    · obtain ⟨b, hb, hx⟩ := List.mem_flatMap.1 h
      obtain ⟨⟨r, c, k⟩, hindex⟩ := Table.exists_index_of_mem_items hb
      obtain ⟨row, cell, hr, hc, hk⟩ := Table.mem_indexed.1 hindex
      obtain ⟨a, ha⟩ := ih b hb hx (⟨t.id, row.id, c⟩ :: around)
      refine ⟨a, fun e he => ?_⟩
      rw [outline_table]
      exact Table.mem_outline.2 (.inr ⟨row, List.mem_of_getElem? hr,
        Row.mem_outline.2 (.inr ⟨cell, c, b, hc, List.mem_of_getElem? hk, ha he⟩)⟩)

/-- A block in a block is a node of it. -/
theorem exists_node_mem_outline {b x : Block} (h : x ∈ b.subblocks) (around : List CellPosition) :
    ∃ a, ⟨x.node, a⟩ ∈ b.outline around := by
  obtain ⟨a, ha⟩ := exists_outline_subset h around
  exact ⟨a, ha (x.node_mem_outline a)⟩

theorem mem_subblocks_of_container? {blocks xs : List Block} {path : Path}
    (h : container? blocks path = some xs) : xs ⊆ blocks.flatMap subblocks := by
  fun_induction container? blocks path with
  | case1 blocks =>
    obtain rfl := Option.some.inj h
    exact fun b hb => List.mem_flatMap.2 ⟨b, hb, b.self_mem_subblocks⟩
  | case2 blocks b r c path t hb ih =>
    obtain ⟨row, hr, h⟩ := Option.bind_eq_some_iff.1 h
    obtain ⟨cell, hc, h⟩ := Option.bind_eq_some_iff.1 h
    intro x hx
    obtain ⟨y, hy, hx⟩ := List.mem_flatMap.1 (ih cell h hx)
    obtain ⟨k, hk⟩ := List.mem_iff_getElem?.1 hy
    exact List.mem_flatMap.2 ⟨.table t, List.mem_of_getElem? hb,
      subblocks_subset (Table.mem_items_of_getElem? hr hc hk) hx⟩
  | case3 => cases h
  | case4 => cases h

/-! ## Grafting -/

/-- What is in the place of the block after others, by number, took the place of some blocks:
    of the block itself, or else of blocks in it. -/
def graft (g : NodeId → Option (List Block)) : Block → List Block :=
  fold (fun p => (g p.id).getD [paragraph p]) fun t =>
    (g t.id).getD [table (t.flatMap fun blocks => blocks)]

variable {g g' : NodeId → Option (List Block)}

@[simp] theorem graft_paragraph (p : Paragraph) :
    (paragraph p).graft g = (g p.id).getD [paragraph p] := by
  simp [graft]

@[simp] theorem graft_table (t : Table Block) :
    (table t).graft g = (g t.id).getD [table (t.flatMap (graft g))] := by
  rw [graft, fold_table, Table.flatMap_map]
  rfl

theorem graft_of_some {b : Block} {blocks : List Block} (h : g b.id = some blocks) :
    b.graft g = blocks := by
  cases b with
  | paragraph p => rw [graft_paragraph, show g p.id = some blocks from h, Option.getD_some]
  | table t => rw [graft_table, show g t.id = some blocks from h, Option.getD_some]

/-- A block without any that others take the place of is as it was. -/
theorem graft_of_none {b : Block} (h : ∀ x ∈ b.subblocks, g x.id = none) : b.graft g = [b] := by
  induction b using Block.induction with
  | paragraph p => rw [graft_paragraph, show g p.id = none from h (paragraph p) (by simp), Option.getD_none]
  | table t ih =>
    rw [graft_table, show g t.id = none from h _ (self_mem_subblocks _), Option.getD_none,
      Table.flatMap_congr fun b hb => ih b hb fun x hx => h x (subblocks_subset hb hx),
      Table.flatMap_singleton]

theorem flatMap_graft_of_none {bs : List Block} (h : ∀ x ∈ bs.flatMap subblocks, g x.id = none) :
    bs.flatMap (graft g) = bs := by
  rw [List.flatMap_congr fun b hb => graft_of_none fun x hx => h x (List.mem_flatMap.2 ⟨b, hb, hx⟩)]
  simp

/-- A graft after another one, which it leaves alone, is one graft. -/
theorem graft_graft (h : ∀ id blocks, g id = some blocks → blocks.flatMap (graft g') = blocks)
    (b : Block) : (b.graft g).flatMap (graft g') = b.graft fun id => (g id).or (g' id) := by
  induction b using Block.induction with
  | paragraph p =>
    cases hg : g p.id with
    | some blocks => simp [hg, h _ _ hg]
    | none => simp [hg]
  | table t ih =>
    cases hg : g t.id with
    | some blocks => simp [hg, h _ _ hg]
    | none =>
      have hid : (t.flatMap (graft g)).id = t.id := rfl
      simp [hg, hid, Table.flatMap_flatMap, Table.flatMap_congr ih]

theorem flatMap_graft_graft
    (h : ∀ id blocks, g id = some blocks → blocks.flatMap (graft g') = blocks) (bs : List Block) :
    (bs.flatMap (graft g)).flatMap (graft g') = bs.flatMap (graft fun id => (g id).or (g' id)) := by
  rw [List.flatMap_assoc]
  exact List.flatMap_congr fun b _ => b.graft_graft h

/-- A block is still there, as it was, if others took the place of neither blocks in it nor
    blocks that it is in. -/
theorem mem_subblocks_graft {b x : Block} (hx : x ∈ b.subblocks)
    (hin : ∀ y ∈ x.subblocks, g y.id = none)
    (haround : ∀ y ∈ b.subblocks, x ∈ y.subblocks → g y.id = none) :
    x ∈ (b.graft g).flatMap subblocks := by
  induction b using Block.induction with
  | paragraph p =>
    obtain rfl : x = paragraph p := by simpa using hx
    rw [graft_of_none hin]
    simp
  | table t ih =>
    rw [subblocks_table, List.mem_cons] at hx
    rcases hx with rfl | hx
    · rw [graft_of_none hin]
      simp
    · obtain ⟨b, hb, hx⟩ := List.mem_flatMap.1 hx
      have hnone : g t.id = none :=
        haround _ (self_mem_subblocks _) (subblocks_subset hb hx)
      have hmem := ih b hb hx fun y hy hxy => haround y (subblocks_subset hb hy) hxy
      rw [graft_table, hnone, Option.getD_none, List.flatMap_singleton, subblocks_table,
        Table.items_flatMap, List.flatMap_assoc]
      exact List.mem_cons_of_mem _ (List.mem_flatMap.2 ⟨b, hb, hmem⟩)

end Block

namespace Document

variable {doc doc' : Document}

/-- The block of a number is one in the document that has it. -/
theorem mem_subblocks_of_node? {id : NodeId} {b : Block} (h : doc.node? id = some b) :
    b ∈ doc.body.flatMap Block.subblocks ∧ b.id = id := by
  obtain ⟨path, hpath, hb⟩ := Option.bind_eq_some_iff.1 h
  obtain ⟨xs, k, b', hat, hid⟩ := exists_isAt hpath
  obtain rfl := Option.some.inj (hat.block?.symm.trans hb)
  exact ⟨Block.mem_subblocks_of_container? hat.container (List.mem_of_getElem? hat.block), hid⟩

/-- Where no number is given twice, the block of a number is the one in the document that
    has it. -/
theorem node?_eq_some_iff (hnodup : (doc.body.flatMap Block.ids).Nodup) {id : NodeId} {b : Block} :
    doc.node? id = some b ↔ b ∈ doc.body.flatMap Block.subblocks ∧ b.id = id := by
  refine ⟨mem_subblocks_of_node?, ?_⟩
  rintro ⟨hb, rfl⟩
  have hsome : (doc.node? b.id).isSome := by
    obtain ⟨x, hx, hb⟩ := List.mem_flatMap.1 hb
    obtain ⟨around, hmem⟩ := Block.exists_node_mem_outline hb []
    refine isSome_node?_iff.2 ⟨_, List.mem_flatMap.2 ⟨x, hx, hmem⟩, ?_, b.id_node⟩
    cases b <;> rfl
  obtain ⟨b', hb'⟩ := Option.isSome_iff_exists.1 hsome
  rw [hb', Block.eq_of_mem_subblocks hnodup (mem_subblocks_of_node? hb').1 hb
    (mem_subblocks_of_node? hb').2]

end Document

/-! ## Replacements -/

namespace Block

/-- The others in the place of some neighbours: in that of the first one. -/
def swap (ids : List NodeId) (blocks : List Block) (id : NodeId) : Option (List Block) :=
  if id ∈ ids then some (if ids.head? = some id then blocks else []) else none

theorem swap_eq_none_iff {ids : List NodeId} {blocks : List Block} {id : NodeId} :
    swap ids blocks id = none ↔ id ∉ ids := by
  simp [swap]

theorem eq_or_eq_nil_of_swap {ids : List NodeId} {blocks blocks' : List Block} {id : NodeId}
    (h : swap ids blocks id = some blocks') : blocks' = blocks ∨ blocks' = [] := by
  rw [swap] at h
  split at h
  · split at h
    · exact .inl (Option.some.inj h).symm
    · exact .inr (Option.some.inj h).symm
  · cases h

/-- Blocks away from the neighbours stay as they are. -/
theorem graft_swap_of_disjoint {b : Block} {ids : List NodeId} {blocks : List Block}
    (h : ids.Disjoint b.ids) : b.graft (swap ids blocks) = [b] :=
  graft_of_none fun _ hx => swap_eq_none_iff.2 fun hid => h hid (id_mem_ids_of_mem_subblocks hx)

theorem flatMap_graft_swap_of_disjoint {bs : List Block} {ids : List NodeId} {blocks : List Block}
    (h : ids.Disjoint (bs.flatMap Block.ids)) : bs.flatMap (graft (swap ids blocks)) = bs := by
  rw [List.flatMap_congr fun b hb => graft_swap_of_disjoint fun id hid hid' =>
    h hid (List.mem_flatMap.2 ⟨b, hb, hid'⟩)]
  simp

theorem id_mem_ids (b : Block) : b.id ∈ b.ids :=
  id_mem_ids_of_mem_subblocks b.self_mem_subblocks

theorem map_id_subset_flatMap_ids (bs : List Block) : bs.map id ⊆ bs.flatMap ids := by
  intro i hi
  obtain ⟨b, hb, rfl⟩ := List.mem_map.1 hi
  exact List.mem_flatMap.2 ⟨b, hb, b.id_mem_ids⟩

/-- Neighbours are replaced in their container by a graft, where no number is given twice. -/
theorem flatMap_graft_swap {before removed after : List Block} (blocks : List Block)
    (hne : removed ≠ [])
    (hnodup : ((before ++ removed ++ after).flatMap ids).Nodup) :
    (before ++ removed ++ after).flatMap (graft (swap (removed.map id) blocks)) =
      before ++ blocks ++ after := by
  rw [List.flatMap_append, List.flatMap_append, List.nodup_append, List.nodup_append] at hnodup
  have hsub := map_id_subset_flatMap_ids removed
  rw [List.flatMap_append, List.flatMap_append,
    flatMap_graft_swap_of_disjoint fun i hi hi' => hnodup.1.2.2 _ hi' _ (hsub hi) rfl,
    flatMap_graft_swap_of_disjoint fun i hi hi' =>
      hnodup.2.2 _ (List.mem_append_right _ (hsub hi)) _ hi' rfl]
  obtain ⟨first, rest, rfl⟩ := List.exists_cons_of_ne_nil hne
  have hfirst : first.id ∉ rest.map id := by
    have hids := nodup_map_of_nodup_flatMap id_mem_ids hnodup.1.2.1
    rw [List.map_cons, List.nodup_cons] at hids
    exact hids.1
  have hrest : ∀ b ∈ rest, b.graft (swap ((first :: rest).map id) blocks) = [] := by
    intro b hb
    have hmem : b.id ∈ rest.map id := List.mem_map_of_mem hb
    refine graft_of_some ?_
    rw [List.map_cons, swap, if_pos (List.mem_cons_of_mem _ hmem), if_neg]
    rintro heq
    rw [List.head?_cons, Option.some.injEq] at heq
    exact hfirst (heq ▸ hmem)
  have hblocks : first.graft (swap ((first :: rest).map id) blocks) = blocks := by
    refine graft_of_some ?_
    rw [swap, if_pos (by simp), if_pos (by simp)]
  rw [List.flatMap_cons, hblocks, List.flatMap_congr hrest]
  simp

end Block

/-! ## Local changes -/

/-- Blocks are put in the place of blocks, and only the nodes of some numbers are affected. -/
structure Block.IsLocal (ids : List NodeId) (g : Block → List Block) : Prop where
  away {b : Block} : ids.Disjoint b.ids → g b = [b]
  table {t : Table Block} : t.id ∉ ids → (∀ r ∈ t.rows, r.id ∉ ids) →
    g (.table t) = [.table (t.flatMap g)]

theorem Block.isLocal_graft_swap (ids : List NodeId) (blocks : List Block) :
    IsLocal ids (graft (swap ids blocks)) where
  away := graft_swap_of_disjoint
  table ht _ := by rw [graft_table, swap_eq_none_iff.2 ht, Option.getD_none]

namespace Block.IsLocal

variable {ids : List NodeId} {g : Block → List Block} (hg : IsLocal ids g)
include hg

theorem flatMap_eq {bs : List Block} (h : ids.Disjoint (bs.flatMap Block.ids)) :
    bs.flatMap g = bs := by
  rw [List.flatMap_congr fun b hb => hg.away fun id hid hid' =>
    h hid (List.mem_flatMap.2 ⟨b, hb, hid'⟩)]
  simp

theorem flatMap_cell {c : Cell Block} (h : ids.Disjoint (c.content.flatMap Block.ids)) :
    c.flatMap g = c := by
  rw [Cell.flatMap, hg.flatMap_eq h]

theorem flatMap_row {r : Row Block} (h : ids.Disjoint (r.items.flatMap Block.ids)) :
    r.flatMap g = r := by
  rw [Row.flatMap_congr fun b hb => hg.away fun id hid hid' =>
    h hid (List.mem_flatMap.2 ⟨b, hb, hid'⟩), Row.flatMap_singleton]

/-- A change in a cell of a table. -/
theorem table_eq {t : Table Block} {r c : Nat} {row : Row Block} {cell : Cell Block}
    (hr : t.rows[r]? = some row) (hc : row.cells[c]? = some cell)
    (hids : ids ⊆ cell.content.flatMap Block.ids) (hnodup : (t.ids Block.ids).Nodup) :
    g (.table t) = [.table { t with rows := t.rows.set r { row with
      cells := row.cells.set c (cell.flatMap g) } }] := by
  obtain ⟨id, rows, styleId⟩ := t
  obtain ⟨rowId, cells⟩ := row
  obtain ⟨rows₁, rows₂, rfl, rfl⟩ := exists_append_of_getElem? hr
  obtain ⟨cells₁, cells₂, rfl, rfl⟩ := exists_append_of_getElem? hc
  -- The numbers in the cell are not those of anything else in the table.
  have hsplit : (⟨id, rows₁ ++ ⟨rowId, cells₁ ++ cell :: cells₂⟩ :: rows₂, styleId⟩ :
      Table Block).ids Block.ids =
      (id :: (rows₁.flatMap (Row.ids Block.ids) ++ rowId ::
        cells₁.flatMap fun c => c.content.flatMap Block.ids)) ++ cell.content.flatMap Block.ids ++
        ((cells₂.flatMap fun c => c.content.flatMap Block.ids) ++
          rows₂.flatMap (Row.ids Block.ids)) := by
    simp [Table.ids, Row.ids, Row.items, List.flatMap_assoc]
  rw [hsplit, List.nodup_append, List.nodup_append] at hnodup
  have hbefore : ∀ i ∈ ids, i ∉ id :: (rows₁.flatMap (Row.ids Block.ids) ++ rowId ::
      cells₁.flatMap fun c => c.content.flatMap Block.ids) :=
    fun i hi hi' => hnodup.1.2.2 _ hi' _ (hids hi) rfl
  have hafter : ∀ i ∈ ids, i ∉ (cells₂.flatMap fun c => c.content.flatMap Block.ids) ++
      rows₂.flatMap (Row.ids Block.ids) :=
    fun i hi hi' => hnodup.2.2 _ (List.mem_append_right _ (hids hi)) _ hi' rfl
  have hrowIds : ∀ r' ∈ rows₁ ++ rows₂, ∀ i ∈ ids, i ∉ r'.ids Block.ids := by
    intro r' hr' i hi hi'
    rcases List.mem_append.1 hr' with hr' | hr'
    · exact hbefore i hi (List.mem_cons_of_mem _ (List.mem_append_left _
        (List.mem_flatMap.2 ⟨r', hr', hi'⟩)))
    · exact hafter i hi (List.mem_append_right _ (List.mem_flatMap.2 ⟨r', hr', hi'⟩))
  have hrow : ∀ r' ∈ rows₁ ++ rows₂, r'.flatMap g = r' := fun r' hr' =>
    hg.flatMap_row fun i hi hi' => hrowIds r' hr' i hi (List.mem_cons_of_mem _ hi')
  have hcell : ∀ c' ∈ cells₁ ++ cells₂, c'.flatMap g = c' := by
    intro c' hc'
    refine hg.flatMap_cell fun i hi hi' => ?_
    rcases List.mem_append.1 hc' with hc' | hc'
    · exact hbefore i hi (List.mem_cons_of_mem _ (List.mem_append_right _ (List.mem_cons_of_mem _
        (List.mem_flatMap.2 ⟨c', hc', hi'⟩))))
    · exact hafter i hi (List.mem_append_left _ (List.mem_flatMap.2 ⟨c', hc', hi'⟩))
  have hrows : ∀ r' ∈ rows₁ ++ ⟨rowId, cells₁ ++ cell :: cells₂⟩ :: rows₂, r'.id ∉ ids := by
    intro r' hr' hid
    rcases List.mem_append.1 hr' with hr' | hr'
    · exact hrowIds r' (List.mem_append_left _ hr') _ hid List.mem_cons_self
    rcases List.mem_cons.1 hr' with rfl | hr'
    · exact hbefore _ hid (by simp)
    · exact hrowIds r' (List.mem_append_right _ hr') _ hid List.mem_cons_self
  have hmap : ∀ {α : Type} {f : α → α} {as : List α}, (∀ a ∈ as, f a = a) → as.map f = as :=
    fun h => (List.map_congr_left h).trans (List.map_id'' (fun _ => rfl) _)
  rw [hg.table (fun hid => hbefore _ hid List.mem_cons_self) hrows]
  simp [Table.flatMap, Row.flatMap, hmap fun r' hr' => hrow r' (List.mem_append_left _ hr'),
    hmap fun r' hr' => hrow r' (List.mem_append_right _ hr'),
    hmap fun c' hc' => hcell c' (List.mem_append_left _ hc'),
    hmap fun c' hc' => hcell c' (List.mem_append_right _ hc')]

end Block.IsLocal

namespace Block

/-- A change of a container that only affects nodes in it is one of all blocks, where no number
    is given twice. -/
theorem modifyContainer?_eq_flatMap {ids : List NodeId} {g : Block → List Block}
    (hg : IsLocal ids g) {bs xs : List Block} {path : Path} {f : List Block → List Block}
    (h : container? bs path = some xs) (hids : ids ⊆ xs.flatMap Block.ids)
    (hf : (xs.flatMap Block.ids).Nodup → f xs = xs.flatMap g)
    (hnodup : (bs.flatMap Block.ids).Nodup) :
    modifyContainer? f bs path = some (bs.flatMap g) := by
  fun_induction container? bs path with
  | case1 bs =>
    obtain rfl := Option.some.inj h
    rw [modifyContainer?, hf hnodup]
  | case2 bs b r c path t hb ih =>
    obtain ⟨row, hr, h⟩ := Option.bind_eq_some_iff.1 h
    obtain ⟨cell, hc, h⟩ := Option.bind_eq_some_iff.1 h
    obtain ⟨as, bs', rfl, rfl⟩ := exists_append_of_getElem? hb
    rw [List.flatMap_append, List.flatMap_cons, ids_table, List.nodup_append,
      List.nodup_append] at hnodup
    -- All that is affected is in this cell, so the table itself and the blocks beside it stay.
    have hcellIds : ids ⊆ cell.content.flatMap Block.ids := by
      intro i hi
      obtain ⟨x, hx, hi⟩ := List.mem_flatMap.1 (hids hi)
      obtain ⟨y, hy, hx⟩ := List.mem_flatMap.1 (mem_subblocks_of_container? h hx)
      exact List.mem_flatMap.2 ⟨y, hy, (ids_sublist_of_mem_subblocks hx).subset hi⟩
    have htable : cell.content.flatMap Block.ids ⊆ t.ids Block.ids := by
      intro i hi
      obtain ⟨y, hy, hi⟩ := List.mem_flatMap.1 hi
      refine List.mem_cons_of_mem _ (List.mem_flatMap.2
        ⟨row, List.mem_of_getElem? hr, List.mem_cons_of_mem _ ?_⟩)
      exact List.mem_flatMap.2 ⟨y, Row.mem_items.2 ⟨cell, List.mem_of_getElem? hc, hy⟩, hi⟩
    have hcell : (cell.content.flatMap Block.ids).Nodup := by
      have hrow := (List.nodup_flatMap.1 (List.nodup_cons.1 hnodup.2.1.1).2).1 _
        (List.mem_of_getElem? hr)
      have hitems := (List.nodup_cons.1 hrow).2
      rw [Row.items, List.flatMap_assoc] at hitems
      exact (List.nodup_flatMap.1 hitems).1 _ (List.mem_of_getElem? hc)
    have has : as.flatMap g = as := hg.flatMap_eq fun i hi hi' =>
      hnodup.2.2 _ hi' _ (List.mem_append_left _ (htable (hcellIds hi))) rfl
    have hbs : bs'.flatMap g = bs' := hg.flatMap_eq fun i hi hi' =>
      hnodup.2.1.2.2 _ (htable (hcellIds hi)) _ hi' rfl
    have hmodify := ih cell h hcell
    rw [List.flatMap_append, List.flatMap_cons, has, hbs,
      hg.table_eq hr hc hcellIds hnodup.2.1.1]
    simp [modifyContainer?, hr, hc, hmodify, Cell.flatMap]
  | case3 => cases h
  | case4 => cases h

end Block

namespace Document

variable {doc doc' : Document}

/-- Where no number is given twice, the replacement of neighbours is a graft. -/
theorem replaceBlocks?_eq_graft (hnodup : (doc.body.flatMap Block.ids).Nodup) {ids : List NodeId}
    {blocks removed : List Block} (h : doc.replaceBlocks? ids blocks = some (removed, doc')) :
    doc' = { doc with body := doc.body.flatMap (Block.graft (Block.swap ids blocks)) } := by
  obtain ⟨path, xs, k, b, hat, hne, hids, hxs, hd⟩ := exists_of_replaceBlocks? h
  have hmodify := Block.modifyContainer?_eq_flatMap (f := fun bs =>
      bs.take k ++ blocks ++ bs.drop (k + ids.length))
    (Block.isLocal_graft_swap ids blocks) hat.container ?_ (fun hnodupXs => ?_) hnodup
  rotate_left
  · rw [hxs, ← hids]
    exact fun i hi => Block.map_id_subset_flatMap_ids _ ((List.Sublist.map _
      ((List.sublist_append_right _ _).trans (List.sublist_append_left _ _))).subset hi)
  · rw [hxs] at hnodupXs
    have hgraft := Block.flatMap_graft_swap blocks hne hnodupXs
    rw [hids, ← hxs] at hgraft
    exact hgraft.symm
  rw [modifySiblings?, hat.last, Option.bind_some, hmodify, Option.map_some,
    Option.some.injEq] at hd
  exact hd.symm

end Document

end DocTemplate
