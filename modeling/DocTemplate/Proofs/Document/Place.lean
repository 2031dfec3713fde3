import DocTemplate.Document.Edit
import DocTemplate.Proofs.Document.Outline
import Mathlib.Data.List.Basic

/-!
# Places in the outline

A path that names a container names a segment of the outline, and a change of the
container is a change of that segment. A node is found by its number if the
outline has it, and then it is where the path says.

* `Block.exists_segment`: a container is a segment of the outline, with the same
  cells around all of its blocks, and changing one changes the other;
* `Document.exists_isAt`: the path of a number leads to a block with that number;
* `Document.locate?_eq_none_iff`, `Document.locateRow?_eq_none`: it is missing only if no
  block, or no row, has the number.
-/

namespace DocTemplate

/-- A list around one of its items. -/
theorem exists_append_of_getElem? {α : Type} {l : List α} {i : Nat} {a : α} (h : l[i]? = some a) :
    ∃ as bs, l = as ++ a :: bs ∧ as.length = i := by
  obtain ⟨hi, rfl⟩ := List.getElem?_eq_some_iff.1 h
  refine ⟨l.take i, l.drop (i + 1), ?_, List.length_take_of_le (Nat.le_of_lt hi)⟩
  rw [List.getElem_cons_drop, List.take_append_drop]

section Layers

variable {α : Type} {inner : α → List CellPosition → List Placed} {around : List CellPosition}

/-- The content of a cell is a segment of the outline of its row. -/
theorem Row.exists_segment {r : Row α} {i : Nat} {c : Cell α} (h : r.cells[i]? = some c)
    (table : NodeId) :
    ∃ pre post,
      r.outline inner around table = pre ++ c.outline inner around ⟨table, r.id, i⟩ ++ post ∧
      ∀ c' : Cell α, ({ r with cells := r.cells.set i c' }).outline inner around table =
        pre ++ c'.outline inner around ⟨table, r.id, i⟩ ++ post := by
  obtain ⟨id, cells⟩ := r
  obtain ⟨as, bs, rfl, rfl⟩ := exists_append_of_getElem? h
  refine ⟨⟨.row id, around⟩ ::
      as.zipIdx.flatMap fun c => c.1.outline inner around ⟨table, id, c.2⟩,
    (bs.zipIdx (as.length + 1)).flatMap fun c => c.1.outline inner around ⟨table, id, c.2⟩,
    ?_, fun content => ?_⟩
  · simp [outline, List.zipIdx_append, List.zipIdx_cons]
  · simp [outline, List.zipIdx_append, List.zipIdx_cons]

/-- A row is a segment of the outline of its table. -/
theorem Table.exists_segment {t : Table α} {i : Nat} {r : Row α} (h : t.rows[i]? = some r) :
    ∃ pre post, t.outline inner around = pre ++ r.outline inner around t.id ++ post ∧
      (∀ r', ({ t with rows := t.rows.set i r' }).outline inner around =
        pre ++ r'.outline inner around t.id ++ post) ∧
      ({ t with rows := t.rows.eraseIdx i }).outline inner around = pre ++ post := by
  obtain ⟨id, rows, styleId⟩ := t
  obtain ⟨as, bs, rfl, rfl⟩ := exists_append_of_getElem? h
  refine ⟨⟨.table id, around⟩ :: as.flatMap (Row.outline inner around id),
    bs.flatMap (Row.outline inner around id), ?_, fun r' => ?_, ?_⟩
  · simp [outline]
  · simp [outline]
  · simp [outline, List.eraseIdx_append_of_length_le]

variable {β : Type}

theorem Table.indexed_map (f : α → β) (t : Table α) :
    (t.map f).indexed = t.indexed.map fun (i, a) => (i, f a) := by
  simp only [indexed, map, Row.map, Cell.map, List.zipIdx_map, List.flatMap_map, List.map_flatMap,
    List.map_map, Prod.map]
  rfl

theorem Table.mem_indexed {t : Table α} {r c k : Nat} {a : α} :
    ((r, c, k), a) ∈ t.indexed ↔ ∃ row cell, t.rows[r]? = some row ∧ row.cells[c]? = some cell ∧
      cell.content[k]? = some a := by
  simp only [indexed, List.mem_flatMap, List.mem_map, Prod.exists, List.mk_mem_zipIdx_iff_getElem?,
    Prod.mk.injEq]
  constructor
  · rintro ⟨row, _, hr, cell, _, hc, _, _, ha, ⟨rfl, rfl, rfl⟩, rfl⟩
    exact ⟨row, cell, hr, hc, ha⟩
  · rintro ⟨row, cell, hr, hc, ha⟩
    exact ⟨row, r, hr, cell, c, hc, a, k, ha, ⟨rfl, rfl, rfl⟩, rfl⟩

theorem Table.mem_items_of_getElem? {t : Table α} {r c k : Nat} {row : Row α} {cell : Cell α}
    {a : α} (hr : t.rows[r]? = some row) (hc : row.cells[c]? = some cell)
    (hk : cell.content[k]? = some a) : a ∈ t.items :=
  mem_items.2
    ⟨row, List.mem_of_getElem? hr, cell, List.mem_of_getElem? hc, List.mem_of_getElem? hk⟩

theorem Table.exists_index_of_mem_items {t : Table α} {a : α} (h : a ∈ t.items) :
    ∃ i, (i, a) ∈ t.indexed := by
  obtain ⟨row, hrow, cell, hcell, ha⟩ := mem_items.1 h
  obtain ⟨r, hr⟩ := List.mem_iff_getElem?.1 hrow
  obtain ⟨c, hc⟩ := List.mem_iff_getElem?.1 hcell
  obtain ⟨k, hk⟩ := List.mem_iff_getElem?.1 ha
  exact ⟨(r, c, k), Table.mem_indexed.2 ⟨row, cell, hr, hc, hk⟩⟩

end Layers

namespace Block

/-- A container is a segment of the outline, in which it may be changed. -/
theorem exists_segment {blocks xs : List Block} {path : Path}
    (h : container? blocks path = some xs) (around : List CellPosition) :
    ∃ pre post inside, outlineOf blocks around = pre ++ outlineOf xs inside ++ post ∧
      ∀ f, ∃ blocks', modifyContainer? f blocks path = some blocks' ∧
        outlineOf blocks' around = pre ++ outlineOf (f xs) inside ++ post := by
  fun_induction container? blocks path generalizing around with
  | case1 blocks =>
    obtain rfl := Option.some.inj h
    exact ⟨[], [], around, by simp, fun f => ⟨f blocks, rfl, by simp⟩⟩
  | case2 blocks b r c path t hb ih =>
    obtain ⟨row, hr, h⟩ := Option.bind_eq_some_iff.1 h
    obtain ⟨cell, hc, h⟩ := Option.bind_eq_some_iff.1 h
    obtain ⟨pre, post, inside, hcontent, hmodify⟩ := ih cell h (⟨t.id, row.id, c⟩ :: around)
    obtain ⟨preCell, postCell, hrow, hsetCell⟩ := @Row.exists_segment _ outline around
      _ _ _ hc t.id
    obtain ⟨preRow, postRow, htable, hsetRow, -⟩ := @Table.exists_segment _ outline
      around _ _ _ hr
    obtain ⟨as, bs, rfl, rfl⟩ := exists_append_of_getElem? hb
    refine ⟨outlineOf as around ++ preRow ++ preCell ++ pre,
      post ++ postCell ++ postRow ++ outlineOf bs around, inside, ?_, fun f => ?_⟩
    · have hcell : cell.outline outline around ⟨t.id, row.id, c⟩ =
          pre ++ outlineOf xs inside ++ post := hcontent
      rw [outlineOf_append, outlineOf_cons, outline_table, htable, hrow, hcell]
      simp
    · obtain ⟨content, hm, hout⟩ := hmodify f
      have hcell : ({ cell with content } : Cell Block).outline outline around ⟨t.id, row.id, c⟩ =
          pre ++ outlineOf (f xs) inside ++ post := hout
      refine ⟨_, by simp [modifyContainer?, hr, hc, hm]; rfl, ?_⟩
      rw [outlineOf_append, outlineOf_cons, outline_table, hsetRow, hsetCell, hcell]
      simp
  | case3 => cases h
  | case4 => cases h

/-! ## Finding a node -/

variable {id : NodeId}

theorem find?_table (t : Table Block) :
    (table t).find? id = if t.id = id then some [] else
      t.indexed.findSome? fun ((r, c, k), b) => (b.find? id).map (r :: c :: k :: ·) := by
  simp only [find?, fold_table, Table.indexed_map, List.findSome?_map]
  rfl

theorem findRow?_table (t : Table Block) :
    (table t).findRow? id =
      match t.rows.findIdx? fun row => row.id = id with
      | some i => some ([], i)
      | none => t.indexed.findSome? fun ((r, c, k), b) =>
          (b.findRow? id).map fun (path, i) => (r :: c :: k :: path, i) := by
  simp only [findRow?, fold_table, Table.indexed_map, List.findSome?_map]
  simp only [Table.map, List.findIdx?_map]
  rfl

/-- The place of a number in a block is that of a block with the number. -/
theorem exists_of_find? {b : Block} {path : Path} (h : b.find? id = some path)
    {blocks : List Block} {i : Nat} (hb : blocks[i]? = some b) :
    ∃ xs k found, (i :: path).getLast? = some k ∧
      container? blocks (i :: path).dropLast = some xs ∧ xs[k]? = some found ∧ found.id = id := by
  induction b using Block.induction generalizing path blocks i with
  | paragraph p =>
    simp only [find?, fold_paragraph, Option.ite_none_right_eq_some, Option.some.injEq] at h
    obtain ⟨rfl, rfl⟩ := h
    exact ⟨blocks, i, _, rfl, rfl, hb, rfl⟩
  | table t ih =>
    rw [find?_table] at h
    by_cases ht : t.id = id
    · rw [if_pos ht] at h
      obtain rfl := Option.some.inj h
      exact ⟨blocks, i, _, rfl, rfl, hb, ht⟩
    · rw [if_neg ht] at h
      obtain ⟨⟨⟨r, c, k⟩, b⟩, hmem, h⟩ := List.exists_of_findSome?_eq_some h
      obtain ⟨rest, hrest, rfl⟩ := Option.map_eq_some_iff.1 h
      obtain ⟨row, cell, hr, hc, hk⟩ := Table.mem_indexed.1 hmem
      obtain ⟨xs, j, found, hlast, hcontainer, hfound⟩ :=
        ih b (Table.mem_items_of_getElem? hr hc hk) hrest hk
      refine ⟨xs, j, found, ?_, ?_, hfound⟩
      · simpa [List.getLast?_cons_cons] using hlast
      · simpa [List.dropLast_cons_cons, container?, hb, hr, hc] using hcontainer

/-- The place of a row in a block is that of a table which has the row. -/
theorem exists_of_findRow? {b : Block} {path : Path} {j : Nat}
    (h : b.findRow? id = some (path, j)) {blocks : List Block} {i : Nat}
    (hb : blocks[i]? = some b) :
    ∃ xs k t row, (i :: path).getLast? = some k ∧
      container? blocks (i :: path).dropLast = some xs ∧ xs[k]? = some (.table t) ∧
      t.rows[j]? = some row ∧ row.id = id := by
  induction b using Block.induction generalizing path blocks i with
  | paragraph p => simp [findRow?] at h
  | table t ih =>
    rw [findRow?_table] at h
    split at h
    · next j' hj =>
      cases h
      obtain ⟨hlt, hid, -⟩ := List.findIdx?_eq_some_iff_getElem.1 hj
      exact ⟨blocks, i, t, _, rfl, rfl, hb, List.getElem?_eq_getElem hlt, by simpa using hid⟩
    · obtain ⟨⟨⟨r, c, k⟩, b⟩, hmem, h⟩ := List.exists_of_findSome?_eq_some h
      obtain ⟨⟨rest, j⟩, hrest, h⟩ := Option.map_eq_some_iff.1 h
      cases h
      obtain ⟨row, cell, hr, hc, hk⟩ := Table.mem_indexed.1 hmem
      obtain ⟨xs, j, t', row', hlast, hcontainer, hfound⟩ :=
        ih b (Table.mem_items_of_getElem? hr hc hk) hrest hk
      refine ⟨xs, j, t', row', ?_, ?_, hfound⟩
      · simpa [List.getLast?_cons_cons] using hlast
      · simpa [List.dropLast_cons_cons, container?, hb, hr, hc] using hcontainer

/-- A number is missing in a block only if no paragraph or table in it has the
    number. -/
theorem find?_eq_none_iff {b : Block} (around : List CellPosition) :
    b.find? id = none ↔ ∀ e ∈ b.outline around, e.node.isBlock → e.id ≠ id := by
  induction b using Block.induction generalizing around with
  | paragraph p => simp [find?, Placed.id, Node.id, Node.isBlock]
  | table t ih =>
    rw [find?_table, outline_table]
    by_cases ht : t.id = id
    · rw [if_pos ht]
      refine iff_of_false (by simp) fun h => ?_
      exact h _ (Table.mem_outline.2 (.inl rfl)) rfl ht
    · rw [if_neg ht, List.findSome?_eq_none_iff]
      constructor
      · intro h e he hblock
        rcases Table.mem_outline.1 he with rfl | ⟨r, hr, he⟩
        · exact ht
        rcases Row.mem_outline.1 he with rfl | ⟨cell, i, b, hcell, hb, he⟩
        · cases hblock
        obtain ⟨j, hr⟩ := List.mem_iff_getElem?.1 hr
        obtain ⟨k, hb⟩ := List.mem_iff_getElem?.1 hb
        have hnone := h ((j, i, k), b) (Table.mem_indexed.2 ⟨r, cell, hr, hcell, hb⟩)
        exact (ih b (Table.mem_items_of_getElem? hr hcell hb) _).1 (by simpa using hnone) e he hblock
      · rintro h ⟨⟨r, c, k⟩, b⟩ hmem
        obtain ⟨row, cell, hr, hc, hk⟩ := Table.mem_indexed.1 hmem
        rw [Option.map_eq_none_iff, ih b (Table.mem_items_of_getElem? hr hc hk)
          (⟨t.id, row.id, c⟩ :: around)]
        refine fun e he => h e (Table.mem_outline.2 (.inr ⟨row, List.mem_of_getElem? hr, ?_⟩))
        exact Row.mem_outline.2 (.inr ⟨cell, c, b, hc, List.mem_of_getElem? hk, he⟩)

/-- A row is missing in a block only if no table in it has a row with the number. -/
theorem findRow?_eq_none {b : Block} (h : b.findRow? id = none) (around : List CellPosition) :
    ∀ a, ⟨.row id, a⟩ ∉ b.outline around := by
  induction b using Block.induction generalizing around with
  | paragraph p => simp
  | table t ih =>
    intro a hmem
    rw [findRow?_table] at h
    split at h
    · cases h
    · next hrows =>
      rw [outline_table] at hmem
      rcases Table.mem_outline.1 hmem with heq | ⟨r, hr, hmem⟩
      · cases heq
      rcases Row.mem_outline.1 hmem with heq | ⟨cell, i, b, hcell, hb, hmem⟩
      · cases heq
        rw [List.findIdx?_eq_none_iff] at hrows
        simpa using hrows r hr
      obtain ⟨j, hr⟩ := List.mem_iff_getElem?.1 hr
      obtain ⟨k, hb⟩ := List.mem_iff_getElem?.1 hb
      rw [List.findSome?_eq_none_iff] at h
      have hnone := h ((j, i, k), b) (Table.mem_indexed.2 ⟨r, cell, hr, hcell, hb⟩)
      exact ih b (Table.mem_items_of_getElem? hr hcell hb) (by simpa using hnone) _ a hmem

end Block

namespace Document

variable {doc : Document} {id : NodeId}

/-- A path leads to a block: `xs` is its container, and `k` its place there. -/
structure IsAt (doc : Document) (path : Path) (xs : List Block) (k : Nat) (b : Block) : Prop where
  last : path.getLast? = some k
  container : doc.container? path.dropLast = some xs
  block : xs[k]? = some b

namespace IsAt

variable {path : Path} {xs : List Block} {k : Nat} {b : Block}

theorem siblings? (h : doc.IsAt path xs k b) : doc.siblings? path = some xs := by
  have hne : path ≠ [] := by
    rintro rfl
    cases h.last
  simp [Document.siblings?, hne, h.container]

theorem block? (h : doc.IsAt path xs k b) : doc.block? path = some b := by
  simp [Document.block?, h.last, h.siblings?, h.block]

/-- The block is a segment of the outline, as part of its container, which may be
    changed. -/
theorem exists_segment (h : doc.IsAt path xs k b) :
    ∃ pre post around, doc.outline = pre ++ Block.outlineOf xs around ++ post ∧
      ∀ f, ∃ body, doc.modifySiblings? path f = some { doc with body } ∧
        Block.outlineOf body [] = pre ++ Block.outlineOf (f k xs) around ++ post := by
  obtain ⟨pre, post, around, hout, hmodify⟩ := Block.exists_segment h.container []
  refine ⟨pre, post, around, hout, fun f => ?_⟩
  obtain ⟨body, hbody, hout'⟩ := hmodify (f k)
  exact ⟨body, by simp [modifySiblings?, h.last, hbody], hout'⟩

end IsAt

/-- The path of a number leads to a block with the number. -/
theorem exists_isAt {path : Path} (h : doc.locate? id = some path) :
    ∃ xs k b, doc.IsAt path xs k b ∧ b.id = id := by
  obtain ⟨⟨b, i⟩, hmem, h⟩ := List.exists_of_findSome?_eq_some h
  obtain ⟨rest, hrest, rfl⟩ := Option.map_eq_some_iff.1 h
  obtain ⟨xs, k, found, hlast, hcontainer, hk, hid⟩ :=
    Block.exists_of_find? hrest (List.mk_mem_zipIdx_iff_getElem?.1 hmem)
  exact ⟨xs, k, found, ⟨hlast, hcontainer, hk⟩, hid⟩

/-- The path of a row leads to a table that has the row. -/
theorem exists_isAt_of_locateRow? {path : Path} {j : Nat} (h : doc.locateRow? id = some (path, j)) :
    ∃ xs k t row, doc.IsAt path xs k (.table t) ∧ t.rows[j]? = some row ∧ row.id = id := by
  obtain ⟨⟨b, i⟩, hmem, h⟩ := List.exists_of_findSome?_eq_some h
  obtain ⟨⟨rest, j⟩, hrest, h⟩ := Option.map_eq_some_iff.1 h
  cases h
  obtain ⟨xs, k, t, row, hlast, hcontainer, hk, hrow, hid⟩ :=
    Block.exists_of_findRow? hrest (List.mk_mem_zipIdx_iff_getElem?.1 hmem)
  exact ⟨xs, k, t, row, ⟨hlast, hcontainer, hk⟩, hrow, hid⟩

/-- A number is missing only if no paragraph or table has it. -/
theorem locate?_eq_none_iff :
    doc.locate? id = none ↔ ∀ e ∈ doc.outline, e.node.isBlock → e.id ≠ id := by
  simp only [locate?, List.findSome?_eq_none_iff, Option.map_eq_none_iff, outline,
    Block.outlineOf, List.mem_flatMap]
  constructor
  · rintro h e ⟨b, hb, he⟩
    obtain ⟨i, hi⟩ := List.mem_iff_getElem?.1 hb
    exact (Block.find?_eq_none_iff []).1
      (h (b, i) (List.mk_mem_zipIdx_iff_getElem?.2 hi)) e he
  · rintro h ⟨b, i⟩ hmem
    refine (Block.find?_eq_none_iff []).2 fun e he => h e ⟨b, ?_, he⟩
    exact List.fst_mem_of_mem_zipIdx hmem

/-- A row is missing only if no table has a row with the number. -/
theorem locateRow?_eq_none (h : doc.locateRow? id = none) (a : List CellPosition) :
    ⟨.row id, a⟩ ∉ doc.outline := by
  intro hmem
  obtain ⟨b, hb, hmem⟩ := List.mem_flatMap.1 hmem
  obtain ⟨i, hi⟩ := List.mem_iff_getElem?.1 hb
  rw [locateRow?, List.findSome?_eq_none_iff] at h
  have hnone := h (b, i) (List.mk_mem_zipIdx_iff_getElem?.2 hi)
  exact Block.findRow?_eq_none (by simpa using hnone) [] a hmem

end Document

end DocTemplate
