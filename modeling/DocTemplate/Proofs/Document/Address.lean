import DocTemplate.Proofs.Document.Graft
import DocTemplate.Proofs.Document.Hole

/-!
# Addresses

Every node has an *address*: a paragraph or a table its path, and a row the path of its table
and its place among the rows. All nodes with their addresses are listed in reading order
(`Block.addresses`), each once. So where no number is given twice, a number has one address,
and what a search finds by number is what a path leads to.

* `Block.map_snd_addresses`: the numbers at the addresses are those of the nodes;
* `Document.eq_of_block?`, `Document.eq_of_row`: a number has one address;
* `Document.locate?_eq_some_iff`, `Document.locateRow?_eq_some_iff`: the search for a number;
* `Document.pathsMatchNumbers_of_nodup`: paths and numbers, in both directions.
-/

namespace DocTemplate

/-- Where a node is in some blocks. -/
inductive Address where
  /-- A paragraph or a table, at a path. -/
  | block (path : Path)
  /-- A row of the table at a path, by its place in the table. -/
  | row (path : Path) (i : Nat)
  deriving DecidableEq

namespace Address

/-- The address of what is behind a path. -/
def within (outer : Path) : Address → Address
  | block path => block (outer ++ path)
  | row path i => row (outer ++ path) i

theorem within_within (outer inner : Path) (a : Address) :
    (a.within inner).within outer = a.within (outer ++ inner) := by
  cases a <;> simp [within]

@[simp] theorem within_nil (a : Address) : a.within [] = a := by
  cases a <;> rfl

end Address

/-! ## The list of addresses -/

section Layers

variable {α : Type} (inner : α → List (Address × NodeId))

/-- The nodes of a row, the `i`-th one of its table, by their addresses in the table. -/
def Row.addresses (i : Nat) (r : Row α) : List (Address × NodeId) :=
  (.row [] i, r.id) :: r.cells.zipIdx.flatMap fun (cell, c) =>
    cell.content.zipIdx.flatMap fun (item, k) =>
      (inner item).map fun (a, id) => (a.within [i, c, k], id)

/-- The nodes of a table by their addresses in it. -/
def Table.addresses (t : Table α) : List (Address × NodeId) :=
  (.block [], t.id) :: t.rows.zipIdx.flatMap fun (r, i) => r.addresses inner i

variable {inner}

theorem Table.addresses_map {β : Type} {inner : β → List (Address × NodeId)} (f : α → β)
    (t : Table α) : (t.map f).addresses inner = t.addresses fun a => inner (f a) := by
  simp only [addresses, Row.addresses, map, Row.map, Cell.map, List.zipIdx_map, List.flatMap_map,
    Prod.map]
  rfl

theorem Row.map_snd_addresses {ids : α → List NodeId} {r : Row α} (i : Nat)
    (h : ∀ item ∈ r.items, (inner item).map Prod.snd = ids item) :
    (r.addresses inner i).map Prod.snd = r.ids ids := by
  have hcell : ∀ c ∈ r.cells.zipIdx, (c.1.content.zipIdx.flatMap fun (item, k) =>
      (inner item).map fun (a, id) => (a.within [i, c.2, k], id)).map Prod.snd =
        c.1.content.flatMap ids := by
    intro c hc
    rw [List.map_flatMap, ← flatMap_zipIdx_fst ids c.1.content 0]
    refine List.flatMap_congr fun x hx => ?_
    rw [List.map_map, ← h x.1 (mem_items.2
      ⟨c.1, List.fst_mem_of_mem_zipIdx hc, List.fst_mem_of_mem_zipIdx hx⟩)]
    rfl
  rw [addresses, List.map_cons, List.map_flatMap, List.flatMap_congr hcell,
    flatMap_zipIdx_fst (fun c : Cell α => c.content.flatMap ids), Row.ids, items,
    List.flatMap_assoc]

theorem Table.map_snd_addresses {ids : α → List NodeId} {t : Table α}
    (h : ∀ item ∈ t.items, (inner item).map Prod.snd = ids item) :
    (t.addresses inner).map Prod.snd = t.ids ids := by
  have hrow : ∀ r ∈ t.rows.zipIdx, (r.1.addresses inner r.2).map Prod.snd = r.1.ids ids :=
    fun r hr => Row.map_snd_addresses r.2 fun item hitem => h item
      (List.mem_flatMap.2 ⟨r.1, List.fst_mem_of_mem_zipIdx hr, hitem⟩)
  rw [addresses, List.map_cons, List.map_flatMap, List.flatMap_congr hrow,
    flatMap_zipIdx_fst (Row.ids ids), Table.ids]

theorem Row.mem_addresses {r : Row α} {i c k : Nat} {cell : Cell α} {item : α} {a : Address}
    {id : NodeId} (hc : r.cells[c]? = some cell) (hk : cell.content[k]? = some item)
    (ha : (a, id) ∈ inner item) : (a.within [i, c, k], id) ∈ r.addresses inner i :=
  List.mem_cons_of_mem _ (List.mem_flatMap.2 ⟨(cell, c), List.mk_mem_zipIdx_iff_getElem?.2 hc,
    List.mem_flatMap.2 ⟨(item, k), List.mk_mem_zipIdx_iff_getElem?.2 hk,
      List.mem_map.2 ⟨(a, id), ha, rfl⟩⟩⟩)

theorem Table.mem_addresses {t : Table α} {i : Nat} {r : Row α} {x : Address × NodeId}
    (hr : t.rows[i]? = some r) (hx : x ∈ r.addresses inner i) : x ∈ t.addresses inner :=
  List.mem_cons_of_mem _ (List.mem_flatMap.2 ⟨(r, i), List.mk_mem_zipIdx_iff_getElem?.2 hr, hx⟩)

end Layers

namespace Block

/-- The nodes of a block by their addresses in it. -/
def addresses : Block → List (Address × NodeId) :=
  fold (fun p => [(.block [], p.id)]) (Table.addresses fun inner => inner)

theorem addresses_paragraph (p : Paragraph) : (paragraph p).addresses = [(.block [], p.id)] := by
  simp [addresses]

theorem addresses_table (t : Table Block) : (table t).addresses = t.addresses addresses := by
  rw [addresses, fold_table, Table.addresses_map]

/-- The nodes of some blocks by their addresses. -/
def addressesOf (blocks : List Block) : List (Address × NodeId) :=
  blocks.zipIdx.flatMap fun (b, i) => b.addresses.map fun (a, id) => (a.within [i], id)

/-- Every node has one address. -/
theorem map_snd_addresses (b : Block) : b.addresses.map Prod.snd = b.ids := by
  induction b using Block.induction with
  | paragraph p => rw [addresses_paragraph, ids_paragraph]; rfl
  | table t ih => rw [addresses_table, ids_table, Table.map_snd_addresses ih]

theorem map_snd_addressesOf (blocks : List Block) :
    (addressesOf blocks).map Prod.snd = blocks.flatMap ids := by
  rw [addressesOf, List.map_flatMap, ← flatMap_zipIdx_fst ids blocks 0]
  refine List.flatMap_congr fun x _ => ?_
  rw [List.map_map, ← map_snd_addresses]
  rfl

theorem self_mem_addresses (b : Block) : (.block [], b.id) ∈ b.addresses := by
  cases b with
  | paragraph p => rw [addresses_paragraph]; exact List.mem_singleton_self _
  | table t => rw [addresses_table]; exact List.mem_cons_self

variable {blocks : List Block} {b : Block} {i : Nat} {a : Address} {id : NodeId}

theorem mem_addressesOf (hb : blocks[i]? = some b) (ha : (a, id) ∈ b.addresses) :
    (a.within [i], id) ∈ addressesOf blocks :=
  List.mem_flatMap.2 ⟨(b, i), List.mk_mem_zipIdx_iff_getElem?.2 hb,
    List.mem_map.2 ⟨(a, id), ha, rfl⟩⟩

theorem exists_of_mem_addressesOf (h : (a, id) ∈ addressesOf blocks) :
    ∃ (i : Nat) (b : Block) (inner : Address), blocks[i]? = some b ∧ (inner, id) ∈ b.addresses ∧
      a = inner.within [i] := by
  obtain ⟨⟨b, i⟩, hb, h⟩ := List.mem_flatMap.1 h
  obtain ⟨⟨inner, id⟩, hinner, h⟩ := List.mem_map.1 h
  cases h
  exact ⟨i, b, inner, List.mk_mem_zipIdx_iff_getElem?.1 hb, hinner, rfl⟩

end Block

/-- What is in a hole is behind the path of the hole. -/
theorem Hole.mem_addressesOf_fill (hole : Hole) {xs : List Block} {a : Address} {id : NodeId}
    (h : (a, id) ∈ Block.addressesOf xs) :
    (a.within hole.path, id) ∈ Block.addressesOf (hole.fill xs) := by
  induction hole with
  | nil => simpa using h
  | cons l hole ih =>
    obtain ⟨k, b, inner, hk, hinner, heq⟩ := Block.exists_of_mem_addressesOf ih
    have htable := Table.mem_addresses (l.getElem?_rows _)
      (Row.mem_addresses (l.getElem?_cells _) hk hinner)
    rw [← Block.addresses_table] at htable
    have hmem := Block.mem_addressesOf (l.getElem?_fill _) htable
    rw [path_cons, ← Address.within_within, heq, Address.within_within, Level.path]
    rwa [Address.within_within] at hmem

namespace Document

variable {doc : Document} {path path' : Path} {b b' : Block} {id : NodeId}

theorem map_snd_addressesOf_body :
    (Block.addressesOf doc.body).map Prod.snd = doc.outline.map Placed.id := by
  rw [Block.map_snd_addressesOf, outline, Block.map_id_outlineOf]

/-- What a path leads to is listed at the path. -/
theorem mem_addressesOf_of_block? (h : doc.block? path = some b) {a : Address}
    (ha : (a, id) ∈ b.addresses) : (a.within path, id) ∈ Block.addressesOf doc.body := by
  obtain ⟨hole, before, after, rfl, hbody⟩ := block?_eq_some_iff.1 h
  have hmem := hole.mem_addressesOf_fill (Block.mem_addressesOf
    (show (before ++ b :: after)[before.length]? = some b by simp) ha)
  rwa [← hbody, Address.within_within] at hmem

section Nodup

variable (hnodup : (doc.outline.map Placed.id).Nodup)

include hnodup

theorem eq_of_mem_addressesOf {a a' : Address} (h : (a, id) ∈ Block.addressesOf doc.body)
    (h' : (a', id) ∈ Block.addressesOf doc.body) : a = a' := by
  rw [← map_snd_addressesOf_body] at hnodup
  exact congrArg Prod.fst (List.inj_on_of_nodup_map hnodup h h' rfl)

/-- Where no number is given twice, one path leads to a block with a number. -/
theorem eq_of_block? (h : doc.block? path = some b) (h' : doc.block? path' = some b')
    (hid : b.id = b'.id) : path = path' := by
  have haddress := eq_of_mem_addressesOf hnodup
    (mem_addressesOf_of_block? h b.self_mem_addresses)
    (mem_addressesOf_of_block? h' (hid ▸ b'.self_mem_addresses))
  simpa [Address.within] using haddress

/-- And one table has a row with a number, at one place. -/
theorem eq_of_row {t t' : Table Block} {i i' : Nat} {row row' : Row Block}
    (h : doc.block? path = some (.table t)) (hrow : t.rows[i]? = some row)
    (h' : doc.block? path' = some (.table t')) (hrow' : t'.rows[i']? = some row')
    (hid : row.id = row'.id) : path = path' ∧ i = i' := by
  have hmem : ∀ {t : Table Block} {i : Nat} {row : Row Block}, t.rows[i]? = some row →
      (.row [] i, row.id) ∈ (Block.table t).addresses := by
    intro t i row hrow
    rw [Block.addresses_table]
    exact Table.mem_addresses hrow List.mem_cons_self
  have haddress := eq_of_mem_addressesOf hnodup (mem_addressesOf_of_block? h (hmem hrow))
    (mem_addressesOf_of_block? h' (hid ▸ hmem hrow'))
  simpa [Address.within] using haddress

/-! ## The search for a number -/

/-- The search for a number finds the path to the block with the number. -/
theorem locate?_eq_some_iff :
    doc.locate? id = some path ↔ ∃ b, doc.block? path = some b ∧ b.id = id := by
  constructor
  · intro h
    obtain ⟨xs, k, b, hat, hid⟩ := exists_isAt h
    exact ⟨b, hat.block?, hid⟩
  · rintro ⟨b, hb, rfl⟩
    obtain ⟨xs, k, hat⟩ := exists_isAt_of_block? hb
    obtain ⟨around, hsub, -⟩ := hat.exists_exchange
    -- The search finds something, and where it finds it is where the block is.
    cases hpath : doc.locate? b.id with
    | none =>
      refine absurd b.id_node (locate?_eq_none_iff.1 hpath _ (hsub (b.node_mem_outline around)) ?_)
      cases b <;> rfl
    | some path' =>
      obtain ⟨xs', k', b', hat', hid⟩ := exists_isAt hpath
      rw [eq_of_block? hnodup hat'.block? hb hid]

/-- The search for the number of a row finds the path to its table, and its place there. -/
theorem locateRow?_eq_some_iff {i : Nat} : doc.locateRow? id = some (path, i) ↔
    ∃ t row, doc.block? path = some (.table t) ∧ t.rows[i]? = some row ∧ row.id = id := by
  constructor
  · intro h
    obtain ⟨xs, k, t, row, hat, hrow, hid⟩ := exists_isAt_of_locateRow? h
    exact ⟨t, row, hat.block?, hrow, hid⟩
  · rintro ⟨t, row, ht, hrow, rfl⟩
    obtain ⟨xs, k, hat⟩ := exists_isAt_of_block? ht
    obtain ⟨around, hsub, -⟩ := hat.exists_exchange
    cases hpath : doc.locateRow? row.id with
    | none =>
      refine absurd (hsub ?_) (locateRow?_eq_none hpath around)
      rw [Block.outline_table]
      exact Table.mem_outline.2 (.inr ⟨row, List.mem_of_getElem? hrow, Row.mem_outline.2 (.inl rfl)⟩)
    | some found =>
      obtain ⟨path', i'⟩ := found
      obtain ⟨xs', k', t', row', hat', hrow', hid⟩ := exists_isAt_of_locateRow? hpath
      obtain ⟨rfl, rfl⟩ := eq_of_row hnodup hat'.block? hrow' ht hrow hid
      rfl

/-! ## Paths and numbers -/

/-- Where no number is given twice, every block in the document is at a path. -/
theorem exists_block?_of_mem_subblocks (hb : b ∈ doc.body.flatMap Block.subblocks) :
    ∃ path, doc.block? path = some b := by
  rw [outline, Block.map_id_outlineOf] at hnodup
  obtain ⟨path, -, hpath⟩ :=
    Option.bind_eq_some_iff.1 ((node?_eq_some_iff hnodup).2 ⟨hb, rfl⟩)
  exact ⟨path, hpath⟩

end Nodup

theorem mem_subblocks_of_block? (h : doc.block? path = some b) :
    b ∈ doc.body.flatMap Block.subblocks := by
  obtain ⟨xs, k, hat⟩ := exists_isAt_of_block? h
  exact Block.mem_subblocks_of_container? hat.container (List.mem_of_getElem? hat.block)

/-- Numbers lead to paths, and paths to numbers. -/
structure PathsMatchNumbers (doc : Document) : Prop where
  /-- The numbers with a path are those of paragraphs and tables in the document. -/
  locates (id : NodeId) : (doc.locate? id).isSome ↔
    ∃ b ∈ doc.body.flatMap Block.subblocks, b.id = id
  /-- The path leads to what has the number, and to its place in its container. -/
  leads {id : NodeId} {path : Path} (h : doc.locate? id = some path) :
    ∃ b container xs k, b.id = id ∧ doc.block? path = some b ∧ path = container ++ [k] ∧
      doc.container? container = some xs ∧ xs[k]? = some b
  /-- What a path leads to has the number of that path. -/
  returns {path : Path} {b : Block} (h : doc.block? path = some b) : doc.locate? b.id = some path
  /-- The numbers with a table and a place in it are those of rows in the document. -/
  locatesRow (id : NodeId) : (doc.locateRow? id).isSome ↔
    ∃ t row, .table t ∈ doc.body.flatMap Block.subblocks ∧ row ∈ t.rows ∧ row.id = id
  /-- The row with the number is in that table, at that place. -/
  leadsToRow (id : NodeId) (path : Path) (i : Nat) : doc.locateRow? id = some (path, i) ↔
    ∃ t row, doc.block? path = some (.table t) ∧ t.rows[i]? = some row ∧ row.id = id

/-- Where no number is given twice, the search by number and the walk along a path are inverse
    to each other. -/
theorem pathsMatchNumbers_of_nodup (hnodup : (doc.outline.map Placed.id).Nodup) :
    doc.PathsMatchNumbers where
  locates id := by
    rw [Option.isSome_iff_exists]
    constructor
    · rintro ⟨path, h⟩
      obtain ⟨b, hb, hid⟩ := (locate?_eq_some_iff hnodup).1 h
      exact ⟨b, mem_subblocks_of_block? hb, hid⟩
    · rintro ⟨b, hb, hid⟩
      obtain ⟨path, hpath⟩ := exists_block?_of_mem_subblocks hnodup hb
      exact ⟨path, (locate?_eq_some_iff hnodup).2 ⟨b, hpath, hid⟩⟩
  leads h := by
    obtain ⟨b, hb, hid⟩ := (locate?_eq_some_iff hnodup).1 h
    obtain ⟨hole, before, after, rfl, hbody⟩ := block?_eq_some_iff.1 hb
    refine ⟨b, hole.path, before ++ b :: after, before.length, hid, hb, rfl, ?_, by simp⟩
    rw [container?, hbody, hole.container?_fill]
  returns h := (locate?_eq_some_iff hnodup).2 ⟨_, h, rfl⟩
  locatesRow id := by
    rw [Option.isSome_iff_exists]
    constructor
    · rintro ⟨⟨path, i⟩, h⟩
      obtain ⟨t, row, ht, hrow, hid⟩ := (locateRow?_eq_some_iff hnodup).1 h
      exact ⟨t, row, mem_subblocks_of_block? ht, List.mem_of_getElem? hrow, hid⟩
    · rintro ⟨t, row, ht, hrow, hid⟩
      obtain ⟨path, hpath⟩ := exists_block?_of_mem_subblocks hnodup ht
      obtain ⟨i, hi⟩ := List.mem_iff_getElem?.1 hrow
      exact ⟨(path, i), (locateRow?_eq_some_iff hnodup).2 ⟨t, row, hpath, hi, hid⟩⟩
  leadsToRow id path i := locateRow?_eq_some_iff hnodup

/-- A table in the second cell of another table, with a row that has no cells. -/
def folded : Document where
  body := [.paragraph { id := 1 },
    .table { id := 2, rows := [⟨3, [
      { content := [.paragraph { id := 4 }] },
      { content := [.paragraph { id := 5 }, .table { id := 6, rows := [⟨7, []⟩, ⟨8, [
          { content := [.paragraph { id := 9 }, .paragraph { id := 10 }] }]⟩] }] }]⟩] },
    .paragraph { id := 11 }]

theorem pathsMatchNumbers_folded : (folded.outline.map Placed.id).Nodup ∧
    folded.locate? 10 = some [1, 0, 1, 1, 1, 0, 1] ∧
    folded.locateRow? 8 = some ([1, 0, 1, 1], 1) ∧ folded.locate? 8 = none ∧
    folded.PathsMatchNumbers := by
  have hnodup : (folded.outline.map Placed.id).Nodup := by decide +kernel
  exact ⟨hnodup, by decide +kernel, by decide +kernel, by decide +kernel,
    pathsMatchNumbers_of_nodup hnodup⟩

end Document

end DocTemplate
