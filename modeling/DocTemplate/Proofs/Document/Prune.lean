import DocTemplate.Proofs.Document.Graft

/-!
# Pruning

To *prune* some blocks is to take parts out of them: paragraphs and tables, and rows of tables.
Which parts those are is said by number, and all of them go at once, in one pass over the tree
(`Block.prune`); a part that is in another one goes with it. What is left stays in its order.

Removals of nodes, one by one, are prunings where no number is given twice. So their order does
not matter, nor does it matter if a node is removed twice, or after what it was in.

* `Block.prune_prune`: to prune twice is to take out the parts of both;
* `Block.prune_of_forall_notMem`: a block without any of the parts stays as it is;
* `Block.paragraphs_prune`: the paragraphs that are left if only paragraphs are taken out;
* `Document.removeBlock?_cases`, `Document.removeRow?_cases`: removals are prunings.
-/

namespace DocTemplate

/-- A part that can be taken out of a document, by its number. -/
inductive Part where
  /-- A paragraph or a table. -/
  | block (id : NodeId)
  | row (id : NodeId)
  deriving DecidableEq

/-- The part that a node is. -/
def Node.part : Node → Part
  | paragraph p => .block p.id
  | table id => .block id
  | row id => .row id

namespace Table

variable {α β : Type} {keep keep' : NodeId → Bool}

/-- The table with some of its rows, by their numbers. -/
def filterRows (keep : NodeId → Bool) (t : Table α) : Table α :=
  { t with rows := t.rows.filter fun r => keep r.id }

theorem filterRows_map (f : α → β) (t : Table α) :
    (t.map f).filterRows keep = (t.filterRows keep).map f := by
  simp [filterRows, map, Row.map, List.filter_map, Function.comp_def]

theorem filterRows_flatMap (f : α → List β) (t : Table α) :
    (t.flatMap f).filterRows keep = (t.filterRows keep).flatMap f := by
  simp [filterRows, flatMap, Row.flatMap, List.filter_map, Function.comp_def]

theorem filterRows_filterRows (t : Table α) :
    (t.filterRows keep).filterRows keep' = t.filterRows fun id => keep id && keep' id := by
  simp [filterRows, List.filter_filter, Bool.and_comm]

theorem filterRows_eq_self {t : Table α} (h : ∀ r ∈ t.rows, keep r.id) : t.filterRows keep = t := by
  rw [filterRows, List.filter_eq_self.2 h]

theorem rows_filterRows_subset (t : Table α) : (t.filterRows keep).rows ⊆ t.rows :=
  List.filter_subset_self _

theorem items_filterRows_subset (t : Table α) : (t.filterRows keep).items ⊆ t.items := by
  intro a ha
  obtain ⟨r, hr, ha⟩ := List.mem_flatMap.1 ha
  exact List.mem_flatMap.2 ⟨r, t.rows_filterRows_subset hr, ha⟩

end Table

namespace Block

variable {hidden hidden' : List Part}

/-- What is left of a block without some parts. -/
def prune (hidden : List Part) : Block → List Block :=
  fold (fun p => if .block p.id ∈ hidden then [] else [paragraph p]) fun t =>
    if .block t.id ∈ hidden then []
    else [table ((t.filterRows fun id => .row id ∉ hidden).flatMap fun blocks => blocks)]

@[simp] theorem prune_paragraph (p : Paragraph) :
    (paragraph p).prune hidden = if .block p.id ∈ hidden then [] else [paragraph p] := by
  simp [prune]

@[simp] theorem prune_table (t : Table Block) :
    (table t).prune hidden = if .block t.id ∈ hidden then []
      else [table ((t.filterRows fun id => .row id ∉ hidden).flatMap (prune hidden))] := by
  rw [prune, fold_table, Table.filterRows_map, Table.flatMap_map]
  rfl

/-- Only which parts are taken out matters. -/
theorem prune_congr (h : ∀ part, part ∈ hidden ↔ part ∈ hidden') (b : Block) :
    b.prune hidden = b.prune hidden' := by
  simp only [prune, h]

/-- To prune twice is to take out the parts of both at once. -/
theorem prune_prune (b : Block) :
    (b.prune hidden).flatMap (prune hidden') = b.prune (hidden ++ hidden') := by
  induction b using Block.induction with
  | paragraph p =>
    by_cases hp : .block p.id ∈ hidden <;> simp [hp]
  | table t ih =>
    by_cases ht : .block t.id ∈ hidden
    · simp [ht]
    · have hitems : ∀ b ∈ (t.filterRows fun id => decide (.row id ∉ hidden ++ hidden')).items,
          (b.prune hidden).flatMap (prune hidden') = b.prune (hidden ++ hidden') :=
        fun b hb => ih b (t.items_filterRows_subset hb)
      have hid : ((t.filterRows fun id => decide (.row id ∉ hidden)).flatMap (prune hidden)).id =
        t.id := rfl
      rw [prune_table, if_neg ht, List.flatMap_singleton, prune_table, hid,
        Table.filterRows_flatMap, Table.filterRows_filterRows, Table.flatMap_flatMap, prune_table]
      simp only [List.mem_append, ht, false_or, not_or, Bool.decide_and] at hitems ⊢
      rw [Table.flatMap_congr hitems]

/-- A block without any of the parts stays as it is. -/
theorem prune_of_forall_notMem {b : Block} (around : List CellPosition)
    (h : ∀ e ∈ b.outline around, e.node.part ∉ hidden) : b.prune hidden = [b] := by
  induction b using Block.induction generalizing around with
  | paragraph p =>
    have hp : .block p.id ∉ hidden := h ⟨.paragraph p, around⟩ (by simp)
    rw [prune_paragraph, if_neg hp]
  | table t ih =>
    rw [outline_table] at h
    have ht : .block t.id ∉ hidden := h ⟨.table t.id, around⟩ (Table.mem_outline.2 (.inl rfl))
    have hrow : ∀ r ∈ t.rows, .row r.id ∉ hidden := fun r hr =>
      h ⟨.row r.id, around⟩ (Table.mem_outline.2 (.inr ⟨r, hr, Row.mem_outline.2 (.inl rfl)⟩))
    have hitem : ∀ b ∈ t.items, b.prune hidden = [b] := by
      intro b hb
      obtain ⟨⟨i, c, k⟩, hindex⟩ := Table.exists_index_of_mem_items hb
      obtain ⟨row, cell, hr, hc, hk⟩ := Table.mem_indexed.1 hindex
      refine ih b hb (⟨t.id, row.id, c⟩ :: around) fun e he => h e (Table.mem_outline.2 (.inr
        ⟨row, List.mem_of_getElem? hr, Row.mem_outline.2 (.inr ?_)⟩))
      exact ⟨cell, c, b, hc, List.mem_of_getElem? hk, he⟩
    rw [prune_table, if_neg ht, Table.filterRows_eq_self fun r hr => decide_eq_true (hrow r hr),
      Table.flatMap_congr hitem, Table.flatMap_singleton]

theorem flatMap_prune_of_forall_notMem {bs : List Block} {around : List CellPosition}
    (h : ∀ e ∈ outlineOf bs around, e.node.part ∉ hidden) : bs.flatMap (prune hidden) = bs := by
  rw [List.flatMap_congr fun b hb => prune_of_forall_notMem around fun e he =>
    h e (List.mem_flatMap.2 ⟨b, hb, he⟩)]
  simp

/-- What is left has its numbers, in the same order. -/
theorem ids_prune_sublist (b : Block) : ((b.prune hidden).flatMap ids).Sublist b.ids := by
  induction b using Block.induction with
  | paragraph p =>
    rw [prune_paragraph]
    split <;> simp
  | table t ih =>
    rw [prune_table]
    split
    · simp
    · rw [List.flatMap_singleton, ids_table, ids_table, Table.ids, Table.ids]
      refine .cons_cons _ ?_
      rw [Table.flatMap, List.flatMap_map]
      refine .trans (List.Sublist.flatMap_right _ fun r hr => ?_)
        (List.Sublist.flatMap List.filter_sublist _)
      have hitems : (r.flatMap (prune hidden)).items = r.items.flatMap (prune hidden) := by
        simp [Row.items, Row.flatMap, Cell.flatMap, List.flatMap_map, List.flatMap_assoc]
      rw [Row.ids, Row.ids, hitems, List.flatMap_assoc]
      refine .cons_cons _ (List.Sublist.flatMap_right _ fun b hb => ih b ?_)
      exact List.mem_flatMap.2 ⟨r, t.rows_filterRows_subset hr, hb⟩

/-- If no tables and no rows are taken out, only these paragraphs go. -/
theorem paragraphs_prune {b : Block} (htable : ∀ t, .table t ∈ b.subblocks → .block t.id ∉ hidden)
    (hrow : ∀ id, .row id ∉ hidden) :
    paragraphsOf (b.prune hidden) = b.paragraphs.filter fun p => .block p.id ∉ hidden := by
  induction b using Block.induction with
  | paragraph p =>
    by_cases hp : .block p.id ∈ hidden <;> simp [paragraphsOf, hp]
  | table t ih =>
    rw [prune_table, if_neg (htable t (self_mem_subblocks _)),
      Table.filterRows_eq_self fun r _ => decide_eq_true (hrow r.id), paragraphsOf,
      List.flatMap_singleton, paragraphs_table, Table.items_flatMap, paragraphs_table,
      List.flatMap_assoc, List.filter_flatMap]
    exact List.flatMap_congr fun b hb => ih b hb fun t' ht' => htable t' (subblocks_subset hb ht')

/-! ## Removals as prunings -/

/-- To take out one block is to put none in its place. -/
theorem graft_swap_nil (id : NodeId) (b : Block) :
    b.graft (swap [id] []) = b.prune [.block id] := by
  have hswap : ∀ id', swap [id] [] id' = if id' = id then some [] else none := by
    intro id'
    simp [swap, eq_comm]
  induction b using Block.induction with
  | paragraph p =>
    by_cases hp : p.id = id <;> simp [hswap, hp]
  | table t ih =>
    by_cases ht : t.id = id
    · simp [hswap, ht]
    · simp [hswap, ht, Table.filterRows_eq_self, Table.flatMap_congr ih]

theorem isLocal_prune_row (id : NodeId) : IsLocal [id] (prune [.row id]) where
  away h := by
    refine prune_of_forall_notMem [] fun e he hpart => h (List.mem_singleton_self id) ?_
    obtain ⟨node, around⟩ := e
    obtain rfl : node = .row id := by cases node <;> simp_all [Node.part]
    exact List.mem_map_of_mem he
  table _ hrows := by
    rw [prune_table, if_neg (by simp), Table.filterRows_eq_self]
    simpa using hrows

/-- To take a row out of a table. -/
theorem prune_row {t : Table Block} {rows₁ rows₂ : List (Row Block)} {row : Row Block}
    (hrows : t.rows = rows₁ ++ row :: rows₂) (hnodup : (t.ids ids).Nodup) :
    (table t).prune [.row row.id] = [table { t with rows := rows₁ ++ rows₂ }] := by
  rw [Table.ids, hrows, List.nodup_cons] at hnodup
  have hother : ∀ r ∈ rows₁ ++ rows₂, row.id ∉ r.ids ids := by
    intro r hr hid
    have hrow : row.id ∈ row.ids ids := List.mem_cons_self
    have hpairwise := (List.nodup_flatMap.1 hnodup.2).2
    rw [List.pairwise_append, List.pairwise_cons] at hpairwise
    rcases List.mem_append.1 hr with hr | hr
    · exact hpairwise.2.2 r hr row List.mem_cons_self hid hrow
    · exact hpairwise.2.1.1 r hr hrow hid
  have hfilter : t.filterRows (fun id => decide (.row id ∉ [Part.row row.id])) =
      { t with rows := rows₁ ++ rows₂ } := by
    have hkeep : ∀ r ∈ rows₁ ++ rows₂, r.id ≠ row.id := fun r hr heq =>
      hother r hr (heq ▸ List.mem_cons_self)
    rw [Table.filterRows, hrows, List.filter_append, List.filter_cons]
    simp only [List.mem_singleton, Part.row.injEq, not_true_eq_false, decide_false, Bool.false_eq_true,
      if_false]
    rw [← List.filter_append, List.filter_eq_self.2 fun r hr => decide_eq_true (hkeep r hr)]
  rw [prune_table, if_neg (by simp), hfilter, Table.flatMap]
  congr 3
  refine (List.map_congr_left fun r hr => ?_).trans (List.map_id' _)
  exact (isLocal_prune_row row.id).flatMap_row fun i hi hi' =>
    hother r hr (List.mem_singleton.1 hi ▸ List.mem_cons_of_mem _ hi')

end Block

namespace Document

variable {doc : Document} {hidden hidden' : List Part} {id : NodeId}

/-- The document without some parts. -/
def prune (hidden : List Part) (doc : Document) : Document :=
  { doc with body := doc.body.flatMap (Block.prune hidden) }

theorem prune_prune : (doc.prune hidden).prune hidden' = doc.prune (hidden ++ hidden') := by
  rw [prune, prune, prune, List.flatMap_assoc, List.flatMap_congr fun b _ => b.prune_prune]

theorem prune_congr (h : ∀ part, part ∈ hidden ↔ part ∈ hidden') :
    doc.prune hidden = doc.prune hidden' := by
  rw [prune, prune, List.flatMap_congr fun b _ => b.prune_congr h]

theorem prune_of_forall_notMem (h : ∀ e ∈ doc.outline, e.node.part ∉ hidden) :
    doc.prune hidden = doc := by
  rw [prune, Block.flatMap_prune_of_forall_notMem h]

theorem ids_prune_sublist :
    ((doc.prune hidden).body.flatMap Block.ids).Sublist (doc.body.flatMap Block.ids) := by
  rw [prune, List.flatMap_assoc]
  exact List.Sublist.flatMap_right _ fun b _ => b.ids_prune_sublist


/-- If no tables and no rows are taken out, only these paragraphs go. -/
theorem paragraphs_prune
    (htable : ∀ t, .table t ∈ doc.body.flatMap Block.subblocks → .block t.id ∉ hidden)
    (hrow : ∀ id, .row id ∉ hidden) :
    (doc.prune hidden).paragraphs = doc.paragraphs.filter fun p => .block p.id ∉ hidden := by
  rw [paragraphs, paragraphs, prune, Block.paragraphsOf, Block.paragraphsOf, List.flatMap_assoc,
    List.filter_flatMap]
  exact List.flatMap_congr fun b hb => Block.paragraphs_prune
    (fun t ht => htable t (List.mem_flatMap.2 ⟨b, hb, ht⟩)) hrow

/-- Where no number is given twice, a block is removed by pruning, if it is there. -/
theorem removeBlock?_cases (hnodup : (doc.body.flatMap Block.ids).Nodup) (id : NodeId) :
    (∃ b, doc.removeBlock? id = some (b, doc.prune [.block id])) ∨
      doc.removeBlock? id = none ∧ doc.prune [.block id] = doc := by
  cases hpath : doc.locate? id with
  | none =>
    refine .inr ⟨removeBlock?_eq_none_iff.2 hpath, prune_of_forall_notMem fun e he hpart => ?_⟩
    have hnone := locate?_eq_none_iff.1 hpath e he
    obtain ⟨node, around⟩ := e
    cases node <;> simp_all [Node.part, Node.isBlock, Placed.id, Node.id]
  | some path =>
    obtain ⟨xs, k, b, hat, hid⟩ := exists_isAt hpath
    obtain ⟨before, after, rfl, rfl⟩ := exists_append_of_getElem? hat.block
    have hmodify := Block.modifyContainer?_eq_flatMap (f := fun bs => bs.eraseIdx before.length)
      (Block.isLocal_graft_swap [b.id] []) hat.container (by simp [Block.id_mem_ids])
      (fun hxs => ?_) hnodup
    · refine .inl ⟨b, ?_⟩
      rw [removeBlock?, hpath, Option.bind_some, hat.block?, Option.bind_some, modifySiblings?,
        hat.last, Option.bind_some, hmodify, hid, List.flatMap_congr fun b _ =>
          Block.graft_swap_nil id b]
      rfl
    · have hsplit : ((before ++ [b] ++ after).flatMap Block.ids).Nodup := by simpa using hxs
      have hgraft := Block.flatMap_graft_swap [] (List.cons_ne_nil _ _) hsplit
      simpa [List.eraseIdx_append_of_length_le] using hgraft.symm

/-- Where no number is given twice, a row is removed by pruning, if it is there. -/
theorem removeRow?_cases (hnodup : (doc.body.flatMap Block.ids).Nodup) (id : NodeId) :
    (∃ row, doc.removeRow? id = some (row, doc.prune [.row id])) ∨
      doc.removeRow? id = none ∧ doc.prune [.row id] = doc := by
  cases hpath : doc.locateRow? id with
  | none =>
    refine .inr ⟨by rw [removeRow?, hpath, Option.bind_none], prune_of_forall_notMem ?_⟩
    rintro ⟨node, around⟩ he hpart
    obtain rfl : node = .row id := by cases node <;> simp_all [Node.part]
    exact locateRow?_eq_none hpath around he
  | some found =>
    obtain ⟨path, j⟩ := found
    obtain ⟨xs, k, t, row, hat, hrow, rfl⟩ := exists_isAt_of_locateRow? hpath
    obtain ⟨before, after, rfl, rfl⟩ := exists_append_of_getElem? hat.block
    obtain ⟨rows₁, rows₂, hrows, rfl⟩ := exists_append_of_getElem? hrow
    have hmem : row.id ∈ t.ids Block.ids :=
      List.mem_cons_of_mem _ (List.mem_flatMap.2 ⟨row, List.mem_of_getElem? hrow, List.mem_cons_self⟩)
    have hmodify := Block.modifyContainer?_eq_flatMap (f := fun bs => bs.modify before.length
        fun _ => .table { t with rows := t.rows.eraseIdx rows₁.length })
      (Block.isLocal_prune_row row.id) hat.container
      (by simp [hmem]) (fun hxs => ?_) hnodup
    · refine .inl ⟨row, ?_⟩
      rw [removeRow?, hpath, Option.bind_some]
      dsimp only
      rw [hat.block?, Option.bind_some, Block.table?, Option.bind_some, hrow, Option.bind_some,
        modifyBlock?, modifySiblings?, hat.last, Option.bind_some, hmodify]
      rfl
    · rw [List.flatMap_append, List.flatMap_cons, Block.ids_table, List.nodup_append,
        List.nodup_append] at hxs
      have hlocal := Block.isLocal_prune_row row.id
      rw [List.flatMap_append, List.flatMap_cons, Block.prune_row hrows hxs.2.1.1,
        hlocal.flatMap_eq fun i hi hi' => hxs.2.2 _ hi' _ (List.mem_append_left _
          (List.mem_singleton.1 hi ▸ hmem)) rfl,
        hlocal.flatMap_eq fun i hi hi' => hxs.2.1.2.2 _ (List.mem_singleton.1 hi ▸ hmem) _ hi' rfl]
      simp [List.modify_eq_take_drop, hrows, List.eraseIdx_append_of_length_le]

end Document

end DocTemplate
