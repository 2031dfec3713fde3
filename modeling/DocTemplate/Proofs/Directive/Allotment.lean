import DocTemplate.Proofs.Directive.Contiguity
import DocTemplate.Proofs.Directive.Move
import DocTemplate.Proofs.Document.Graft

/-!
# The numbers of nodes

Every edit finds its node by number, so a document should have a number for every node, and
no number twice. Edits keep that, with one exception. A header that is written into a cell
without a paragraph needs a paragraph of its own, and that one has no number. Such cells are
*bare* (`TableFill.IsBare`), and no other paragraphs are without a number
(`Document.Allotted`).

All but the last pass of edits give new nodes the next numbers and leave the other ones what
they have. A filling exchanges the rows of a table: the row with headers has the nodes that
it had, except in bare cells; the records are new; and the rest stays.

* `Move.numbered`: what the passes before the fillings keep;
* `Document.Allotted.not_isBare`: a bare cell of a table has no paragraph, anywhere;
* `TableFill.allotted_fill`: what a filling makes of the numbers;
* `Move.allotted_fills`: and what fillings and removals of tables do, one after the other.
-/

namespace DocTemplate

/-- A value of some kind that is not there twice has one argument. -/
theorem eq_of_nodup_filter_map {α β : Type} {f : α → β} {P : β → Bool} {as : List α}
    (h : ((as.map f).filter P).Nodup) {x y : α} (hx : x ∈ as) (hy : y ∈ as) (hxy : f x = f y)
    (hP : P (f x)) : x = y := by
  rw [List.filter_map] at h
  exact List.inj_on_of_nodup_map h (List.mem_filter.2 ⟨hx, hP⟩)
    (List.mem_filter.2 ⟨hy, show P (f y) = true from hxy ▸ hP⟩) hxy

/-- The node is a paragraph directly in one of some cells. -/
def Placed.IsParagraphOf (cells : CellPosition → Prop) (x : Placed) : Prop :=
  ∃ p position around, x = ⟨.paragraph p, position :: around⟩ ∧ cells position

namespace Placed.IsParagraphOf

variable {cells cells' : CellPosition → Prop} {x : Placed}

theorem mono (h : ∀ position, cells position → cells' position) (hx : x.IsParagraphOf cells) :
    x.IsParagraphOf cells' := by
  obtain ⟨p, position, around, rfl, hposition⟩ := hx
  exact ⟨p, position, around, rfl, h position hposition⟩

theorem or_iff : (x.IsParagraphOf fun position => cells position ∨ cells' position) ↔
    x.IsParagraphOf cells ∨ x.IsParagraphOf cells' := by
  constructor
  · rintro ⟨p, position, around, rfl, hposition | hposition⟩
    · exact .inl ⟨p, position, around, rfl, hposition⟩
    · exact .inr ⟨p, position, around, rfl, hposition⟩
  · rintro (h | h)
    · exact h.mono fun _ => .inl
    · exact h.mono fun _ => .inr

theorem paragraph_iff {p : Paragraph} {position : CellPosition} {around : List CellPosition} :
    (⟨.paragraph p, position :: around⟩ : Placed).IsParagraphOf cells ↔ cells position := by
  refine ⟨?_, fun h => ⟨p, position, around, rfl, h⟩⟩
  rintro ⟨p', position', around', heq, h⟩
  cases heq
  exact h

end Placed.IsParagraphOf

/-! ## The cells of a tree of blocks -/

namespace Block

/-- A number that is not given twice names one block, also if others have no number. -/
theorem eq_of_mem_subblocks_of_le {bs : List Block} {around : List CellPosition} {n : Nat}
    (hnodup : (Placed.originalIds n (outlineOf bs around)).Nodup) {x y : Block}
    (hx : x ∈ bs.flatMap subblocks) (hy : y ∈ bs.flatMap subblocks) (hid : x.id = y.id)
    (hpos : 0 < x.id) (hle : x.id ≤ n) : x = y := by
  have hsub : ((bs.flatMap subblocks).map id).Sublist ((outlineOf bs around).map Placed.id) := by
    rw [List.map_flatMap, map_id_outlineOf]
    exact List.Sublist.flatMap_right _ fun b _ => b.map_id_subblocks_sublist
  rw [Placed.originalIds_eq_filter] at hnodup
  refine eq_of_nodup_filter_map ((hsub.filter _).nodup hnodup) hx hy hid ?_
  simp [hpos, hle]

end Block

/-! ## Numbers in a document -/

namespace Document

variable {doc doc' : Document} {old kept fresh kept' : List Placed} {bare bare' : CellPosition → Prop}

/-- A change of nodes that keep their numbers. -/
theorem Exchange.numbered_of_map_id (h : doc.Exchange old kept doc')
    (hids : kept.map Placed.id = old.map Placed.id) (hdoc : doc.Numbered) : doc'.Numbered := by
  obtain ⟨pre, post, hold, hnew⟩ := h.outline
  have hmap : doc'.outline.map Placed.id = doc.outline.map Placed.id := by
    simp only [hold, hnew, List.map_append, hids]
  refine ⟨hmap ▸ hdoc.nodup, fun x hx => ?_⟩
  have hmem : x.id ∈ doc.outline.map Placed.id := hmap ▸ List.mem_map_of_mem hx
  obtain ⟨y, hy, hid⟩ := List.mem_map.1 hmem
  rw [← hid, h.lastId]
  exact hdoc.bounds y hy

/-- No number is there twice, or has not been given out yet; and what has no number are the
    paragraphs directly in some cells. -/
structure Allotted (bare : CellPosition → Prop) (doc : Document) : Prop where
  nodup : ∀ n, (Placed.originalIds n doc.outline).Nodup
  le : ∀ x ∈ doc.outline, x.id ≤ doc.lastId
  zero : ∀ x ∈ doc.outline, x.id = 0 ↔ x.IsParagraphOf bare
  /-- The cells are in rows that have been numbered. -/
  rows : ∀ position, bare position → position.row ≤ doc.lastId

theorem Numbered.allotted (h : doc.Numbered) : doc.Allotted fun _ => False where
  nodup := h.nodup_originalIds
  le x hx := (h.bounds x hx).2
  zero x hx := by
    refine iff_of_false (Nat.ne_of_gt (h.bounds x hx).1) ?_
    rintro ⟨_, _, _, _, ⟨⟩⟩
  rows _ h := h.elim

namespace Allotted

variable (h : doc.Allotted bare)

include h

/-- All nodes are numbered if no cell of those without a numbered paragraph is left. -/
theorem numbered_iff : doc.Numbered ↔ ∀ x ∈ doc.outline, ¬ x.IsParagraphOf bare := by
  constructor
  · intro hnumbered x hx hbare
    exact Nat.ne_of_gt (hnumbered.bounds x hx).1 ((h.zero x hx).2 hbare)
  · intro hnone
    have hpos : ∀ x ∈ doc.outline, 0 < x.id := fun x hx =>
      Nat.pos_of_ne_zero fun hid => hnone x hx ((h.zero x hx).1 hid)
    refine ⟨?_, fun x hx => ⟨hpos x hx, h.le x hx⟩⟩
    have hall : doc.outline.filter (Placed.isOriginal doc.lastId) = doc.outline :=
      List.filter_eq_self.2 fun x hx => Placed.isOriginal_iff.2 ⟨hpos x hx, h.le x hx⟩
    exact hall ▸ h.nodup doc.lastId

theorem congr (hbare : ∀ position, bare position ↔ bare' position) : doc.Allotted bare' := by
  obtain rfl : bare = bare' := funext fun position => propext (hbare position)
  exact h

theorem of_lastId {last : Nat} (hle : doc.lastId ≤ last) :
    ({ doc with lastId := last } : Document).Allotted bare where
  nodup := h.nodup
  le x hx := Nat.le_trans (h.le x hx) hle
  zero := h.zero
  rows position hposition := Nat.le_trans (h.rows position hposition) hle

/-- What is no paragraph has a number. -/
theorem pos_of_paragraph?_eq_none {x : Placed} (hx : x ∈ doc.outline) (hp : x.paragraph? = none) :
    0 < x.id := by
  refine Nat.pos_of_ne_zero fun hid => ?_
  obtain ⟨p, position, around, rfl, -⟩ := (h.zero x hx).1 hid
  cases hp

/-- Nodes may go. -/
theorem of_loses (hloses : doc.Loses doc') : doc'.Allotted bare := by
  have hsub := hloses.sublist
  refine ⟨fun n => ((hsub.filter _).map _).nodup (h.nodup n), fun x hx => ?_,
    fun x hx => h.zero x (hsub.subset hx), fun position hposition => ?_⟩
  · rw [hloses.lastId]
    exact h.le x (hsub.subset hx)
  · rw [hloses.lastId]
    exact h.rows position hposition

omit h in
/-- Nodes with new numbers among others, no number of which is there twice. -/
theorem nodup_originalIds_insert {n : Nat} {front back : List Placed}
    (hothers : (Placed.originalIds n (front ++ back)).Nodup) (hfresh : (fresh.map Placed.id).Nodup)
    (hne : ∀ x ∈ fresh, ∀ y ∈ front ++ back, y.id ≠ x.id) :
    (Placed.originalIds n (front ++ fresh ++ back)).Nodup := by
  -- The order of the segments does not matter.
  have hperm : (Placed.originalIds n (front ++ fresh ++ back)).Perm
      (Placed.originalIds n fresh ++ Placed.originalIds n (front ++ back)) := by
    refine List.perm_iff_count.2 fun id => ?_
    simp only [Placed.originalIds, List.filter_append, List.map_append, List.count_append]
    omega
  rw [hperm.nodup_iff, List.nodup_append]
  refine ⟨(List.filter_sublist.map _).nodup hfresh, hothers, ?_⟩
  rintro _ hid _ hid' rfl
  obtain ⟨x, hx, rfl⟩ := List.mem_map.1 hid
  obtain ⟨y, hy, hyx⟩ := List.mem_map.1 hid'
  exact hne x (List.mem_of_mem_filter hx) y (List.mem_of_mem_filter hy) hyx

/-- A segment is exchanged for nodes that were there, and for new ones with the next numbers
    between them. -/
theorem of_exchange {last : Nat} (hle : doc.lastId ≤ last)
    (hex : ({ doc with lastId := last } : Document).Exchange old (kept ++ fresh ++ kept') doc')
    (hkept : ∀ n, (Placed.originalIds n (kept ++ kept')).Sublist (Placed.originalIds n old))
    (hbounds : ∀ x ∈ kept ++ kept', x.id ≤ doc.lastId)
    (hzero : ∀ x ∈ kept ++ kept', x.id = 0 ↔ x.IsParagraphOf bare)
    (hfresh : fresh.map Placed.id = List.range' (doc.lastId + 1) (last - doc.lastId))
    (hrows : ∀ q position around, ⟨.paragraph q, position :: around⟩ ∈ fresh →
      doc.lastId < position.row) :
    doc'.Allotted bare := by
  obtain ⟨pre, post, hold, hnew⟩ := hex.outline
  have hold : doc.outline = pre ++ old ++ post := hold
  have hlast : doc'.lastId = last := hex.lastId
  have hids : ∀ x ∈ fresh, doc.lastId < x.id ∧ x.id ≤ last := by
    intro x hx
    have hid : x.id ∈ fresh.map Placed.id := List.mem_map_of_mem hx
    rwa [hfresh, Numbering.mem_next_iff hle] at hid
  have hsides : ∀ x ∈ pre ++ kept ++ (kept' ++ post), x.id ≤ doc.lastId ∧
      (x.id = 0 ↔ x.IsParagraphOf bare) := by
    intro x hx
    have hmem : x ∈ kept ++ kept' ∨ x ∈ doc.outline := by
      rw [hold]
      simp only [List.mem_append] at hx ⊢
      tauto
    rcases hmem with hmem | hmem
    · exact ⟨hbounds x hmem, hzero x hmem⟩
    · exact ⟨h.le x hmem, h.zero x hmem⟩
  have hnew : doc'.outline = pre ++ kept ++ fresh ++ (kept' ++ post) := by
    simp only [hnew, List.append_assoc]
  have hcases : ∀ x ∈ doc'.outline, x ∈ fresh ∨ x ∈ pre ++ kept ++ (kept' ++ post) := by
    intro x hx
    rw [hnew] at hx
    simp only [List.mem_append] at hx ⊢
    tauto
  refine ⟨fun n => ?_, fun x hx => ?_, fun x hx => ?_, fun position hposition => ?_⟩
  · rw [hnew]
    refine nodup_originalIds_insert ?_ (hfresh ▸ List.nodup_range') fun x hx y hy => ?_
    · refine List.Sublist.nodup ?_ (h.nodup n)
      have hkept := hkept n
      simp only [hold, Placed.originalIds, List.filter_append, List.map_append,
        List.append_assoc] at hkept ⊢
      rw [← List.append_assoc (List.map _ (List.filter _ kept))]
      exact (List.Sublist.refl _).append (hkept.append (List.Sublist.refl _))
    · exact Nat.ne_of_lt (Nat.lt_of_le_of_lt (hsides y hy).1 (hids x hx).1)
  · rw [hlast]
    rcases hcases x hx with hx | hx
    · exact (hids x hx).2
    · exact Nat.le_trans (hsides x hx).1 hle
  · rcases hcases x hx with hx | hx
    · refine iff_of_false (Nat.ne_of_gt (Nat.lt_of_le_of_lt (Nat.zero_le _) (hids x hx).1)) ?_
      rintro ⟨q, position, around, rfl, hposition⟩
      exact Nat.not_le.2 (hrows q position around hx) (h.rows position hposition)
    · exact (hsides x hx).2
  · rw [hlast]
    exact Nat.le_trans (h.rows position hposition) hle

end Allotted

end Document

/-! ## Passes before the fillings -/

variable {f : Filler} {d d' : Draft}

/-- Before the fillings, every node gets and keeps a number of its own. -/
theorem Move.numbered {m : Move} (hm : m.pass ≠ .fills) (h : (m.perform f).Yields d () d')
    (hd : d.document.Numbered) : d'.document.Numbered := by
  cases does h with
  | loses hloses => exact hloses.numbered hd
  | repeats hrepeat => exact Repetition.numbered_perform hrepeat hd
  | rewords _ _ hex => exact hex.numbered_of_map_id rfl hd
  | fills => exact absurd rfl hm

/-! ## Fillings -/

theorem Row.getElem?_cells_headed (headers : List String) (row : Row Block) (k : Nat) :
    (row.headed headers).cells[k]? =
      row.cells[k]?.map fun c => (headers[k]?.map fun header => c.filled header).getD c := by
  obtain ⟨id, cells⟩ := row
  simp only [headed]
  induction cells generalizing headers k with
  | nil => simp
  | cons c cells ih =>
    cases headers with
    | nil => simp
    | cons header headers =>
      cases k with
      | zero => simp
      | succ k => simpa using ih headers k

/-- A node of a row with headers is one of the row, or a paragraph in place of the first one
    of its cell, or of none. -/
theorem Row.cases_of_mem_headed {headers : List String} {row : Row Block} {x : Placed}
    {around : List CellPosition} {table : NodeId}
    (hx : x ∈ (row.headed headers).outline Block.outline around table) :
    x ∈ row.outline Block.outline around table ∨
      ∃ k < headers.length, ∃ cell, row.cells[k]? = some cell ∧
        ∃ q, x = ⟨.paragraph q, ⟨table, row.id, k⟩ :: around⟩ ∧
          q.id = ((cell.content.findSome? Block.paragraph?).getD {}).id := by
  rcases Row.mem_outline.1 hx with rfl | ⟨cell', k, item, hcell', hitem, hx⟩
  · exact .inl (Row.mem_outline.2 (.inl rfl))
  rw [getElem?_cells_headed, Option.map_eq_some_iff] at hcell'
  obtain ⟨cell, hcell, rfl⟩ := hcell'
  cases hheader : headers[k]? with
  | none =>
    rw [hheader] at hitem
    exact .inl (Row.mem_outline.2 (.inr ⟨cell, k, item, hcell, hitem, hx⟩))
  | some header =>
    rw [hheader] at hitem
    obtain rfl := List.mem_singleton.1 hitem
    rw [Block.outline_paragraph, List.mem_singleton] at hx
    exact .inr ⟨k, (List.getElem?_eq_some_iff.1 hheader).1, cell, hcell, _, hx, rfl⟩

namespace TableLayout

variable {rows : List (Row Block)} {layout : TableLayout}

theorem mem_rows_of_header (h : ofRows? rows = some layout) {header : Row Block}
    (hheader : header ∈ layout.header) : header ∈ rows := by
  rw [rows_eq_of_ofRows? h]
  exact List.mem_append_left _ (Option.mem_toList.2 hheader)

end TableLayout

namespace TableFill

/-- The cells of a table that are going to have a header, but have no paragraph. -/
def IsBare (t : Table Block) (headers : List String) (position : CellPosition) : Prop :=
  position.table = t.id ∧ ∃ layout, TableLayout.ofRows? t.rows = some layout ∧
    ∃ header ∈ layout.header, position.row = header.id ∧ position.cell < headers.length ∧
      ∃ cell, header.cells[position.cell]? = some cell ∧
        cell.content.findSome? Block.paragraph? = none

variable {t : Table Block} {data : Grid} {bare : CellPosition → Prop}

/-- The rows of a table that is in the document have numbers of their own. -/
theorem eq_of_mem_rows (hd : d.document.Allotted bare) (ht : d.document.table? t.id = some t)
    {row row' : Row Block} (hrow : row ∈ t.rows) (hrow' : row' ∈ t.rows) (hid : row.id = row'.id) :
    row = row' := by
  have hnode := Document.table?_eq_some_iff.1 ht
  obtain ⟨-, inside, hsub⟩ := Document.node_mem_outline hnode
  have hmem : (⟨.row row.id, inside⟩ : Placed) ∈ d.document.outline := by
    refine hsub ?_
    rw [Block.outline_table]
    exact Table.mem_outline.2 (.inr ⟨row, hrow, Row.mem_outline.2 (.inl rfl)⟩)
  have hpos : 0 < row.id := hd.pos_of_paragraph?_eq_none hmem rfl
  have hle : row.id ≤ d.document.lastId := hd.le _ hmem
  have hids : (t.rows.map Row.id).Sublist (d.document.outline.map Placed.id) := by
    obtain ⟨b, hb, ht'⟩ := List.mem_flatMap.1 (Document.mem_subblocks_of_node? hnode).1
    rw [Document.outline, Block.map_id_outlineOf]
    refine .trans ?_ (sublist_flatMap_of_mem hb)
    refine .trans ?_ (Block.ids_sublist_of_mem_subblocks ht')
    rw [Block.ids_table, List.map_eq_flatMap]
    exact .cons _ (List.Sublist.flatMap_right _ fun r _ => .cons_cons _ (List.nil_sublist _))
  have hnodup := hd.nodup d.document.lastId
  rw [Placed.originalIds_eq_filter] at hnodup
  exact eq_of_nodup_filter_map ((hids.filter _).nodup hnodup) hrow hrow' hid (by simp [hpos, hle])

/-- A bare cell of a table has no paragraph, anywhere in the document. -/
theorem not_isBare (hd : d.document.Allotted bare) (ht : d.document.table? t.id = some t)
    {headers : List String} {x : Placed} (hx : x ∈ d.document.outline) :
    ¬ x.IsParagraphOf (IsBare t headers) := by
  rintro ⟨q, position, around, rfl, htable, layout, hlayout, header, hheader, hrow, -, cell, hcell, hnone⟩
  obtain ⟨b, hb, hx⟩ := List.mem_flatMap.1 hx
  rcases Block.exists_cell_of_mem_outline hx with ⟨-, hnil⟩ |
    ⟨-, t', ht', hid, row, hrow', hrowId, cell', hcell', hq⟩
  · cases hnil
  obtain ⟨htmem, -⟩ := Document.mem_subblocks_of_node? (Document.table?_eq_some_iff.1 ht)
  obtain ⟨-, inside, hsub⟩ := Document.node_mem_outline (Document.table?_eq_some_iff.1 ht)
  have htnode : (⟨.table t.id, inside⟩ : Placed) ∈ d.document.outline :=
    hsub (by rw [Block.outline_table]; exact Table.mem_outline.2 (.inl rfl))
  have htt' : Block.table t = .table t' :=
    Block.eq_of_mem_subblocks_of_le (hd.nodup d.document.lastId) htmem
      (List.mem_flatMap.2 ⟨b, hb, ht'⟩) (htable.symm.trans hid.symm)
      (hd.pos_of_paragraph?_eq_none htnode rfl) (hd.le _ htnode)
  cases htt'
  obtain rfl : header = row :=
    eq_of_mem_rows hd ht (TableLayout.mem_rows_of_header hlayout hheader) hrow' (hrow.symm.trans hrowId.symm)
  rw [hcell] at hcell'
  cases hcell'
  exact absurd (List.findSome?_eq_none_iff.1 hnone _ hq) (by simp [Block.paragraph?])

/-- The cells without a paragraph, once a table has its headers. -/
theorem allotted_headed (hd : d.document.Allotted bare) (ht : d.document.table? t.id = some t)
    (headers : List String) :
    d.document.Allotted fun position => bare position ∨ IsBare t headers position where
  nodup := hd.nodup
  le := hd.le
  zero x hx := by
    rw [Placed.IsParagraphOf.or_iff, or_iff_left (not_isBare hd ht hx)]
    exact hd.zero x hx
  rows position hposition := by
    rcases hposition with hposition | ⟨-, layout, hlayout, header, hheader, hrow, -⟩
    · exact hd.rows position hposition
    · obtain ⟨-, inside, hsub⟩ := Document.node_mem_outline (Document.table?_eq_some_iff.1 ht)
      rw [hrow]
      refine hd.le ⟨.row header.id, inside⟩ (hsub ?_)
      rw [Block.outline_table]
      exact Table.mem_outline.2 (.inr ⟨header, TableLayout.mem_rows_of_header hlayout hheader,
        Row.mem_outline.2 (.inl rfl)⟩)

/-- The nodes of a row with headers, of which the only new ones are the paragraphs in bare
    cells. -/
theorem zero_iff_of_mem_headed (hd : d.document.Allotted bare) {layout : TableLayout}
    (hlayout : TableLayout.ofRows? t.rows = some layout) {header : Row Block}
    (hheader : header ∈ layout.header) {headers : List String}
    (hbare : ∀ position, IsBare t headers position → bare position) {around : List CellPosition}
    (hsub : header.outline Block.outline around t.id ⊆ d.document.outline) {x : Placed}
    (hx : x ∈ (header.headed headers).outline Block.outline around t.id) :
    x.id ≤ d.document.lastId ∧ (x.id = 0 ↔ x.IsParagraphOf bare) := by
  rcases Row.cases_of_mem_headed hx with hx | ⟨k, hk, cell, hcell, q, rfl, hq⟩
  · exact ⟨hd.le x (hsub hx), hd.zero x (hsub hx)⟩
  cases hp : cell.content.findSome? Block.paragraph? with
  | none =>
    have hid : q.id = 0 := by rw [hq, hp]; rfl
    refine ⟨Nat.le_trans (Nat.le_of_eq hid) (Nat.zero_le _), iff_of_true hid ?_⟩
    refine Placed.IsParagraphOf.paragraph_iff.2 ?_
    exact hbare _ ⟨rfl, layout, hlayout, header, hheader, rfl, hk, cell, hcell, hp⟩
  | some p =>
    -- The number is that of the paragraph that was there.
    obtain ⟨b, hb, hbp⟩ := List.exists_of_findSome?_eq_some hp
    obtain rfl : b = .paragraph p := by cases b <;> simp_all [Block.paragraph?]
    have hmem : (⟨.paragraph p, ⟨t.id, header.id, k⟩ :: around⟩ : Placed) ∈ d.document.outline :=
      hsub (Row.mem_outline.2 (.inr ⟨cell, k, _, hcell, hb, by simp⟩))
    have hid : q.id = p.id := by rw [hq, hp]; rfl
    have hzero : p.id = 0 ↔ _ := (hd.zero _ hmem).trans Placed.IsParagraphOf.paragraph_iff
    rw [Placed.IsParagraphOf.paragraph_iff, ← hzero, ← hid]
    exact ⟨Nat.le_trans (Nat.le_of_eq hid) (hd.le _ hmem), Iff.rfl⟩

/-- The nodes of records have numbers, and are in rows that have. -/
theorem map_id_records {records : List (Row Block)} {around : List CellPosition} {table : NodeId} :
    (records.flatMap (Row.outline Block.outline around table)).map Placed.id =
      records.flatMap (Row.ids Block.ids) := by
  rw [List.map_flatMap]
  exact List.flatMap_congr fun r _ => Row.map_id_outline (fun b _ a => b.map_id_outline a) _ _

theorem row_mem_of_mem_records {records : List (Row Block)} {around rest : List CellPosition}
    {table : NodeId} {q : Paragraph} {position : CellPosition}
    (h : (⟨.paragraph q, position :: rest⟩ : Placed) ∈
      records.flatMap (Row.outline Block.outline around table)) :
    position.row ∈ records.flatMap (Row.ids Block.ids) := by
  obtain ⟨row, hrow, h⟩ := List.mem_flatMap.1 h
  refine List.mem_flatMap.2 ⟨row, hrow, ?_⟩
  rcases Row.mem_outline.1 h with h | ⟨cell, k, item, hcell, hitem, h⟩
  · cases h
  rcases Block.exists_cell_of_mem_outline h with ⟨-, haround⟩ | ⟨hid, -⟩
  · cases haround
    exact List.mem_cons_self
  · exact List.mem_cons_of_mem _ (List.mem_flatMap.2 ⟨item, Row.mem_items.2
      ⟨cell, List.mem_of_getElem? hcell, hitem⟩, hid⟩)

/-- Of the numbers in a table, those in its headers and in the rows that stay are left. -/
theorem sublist_originalIds_headed (layout : TableLayout) {headers : List String} {table : NodeId}
    {around : List CellPosition} (n : Nat) :
    (Placed.originalIds n
      ((⟨.table table, around⟩ :: (layout.header.map (Row.headed headers)).toList.flatMap
        (Row.outline Block.outline around table)) ++
          layout.rest.flatMap (Row.outline Block.outline around table))).Sublist
      (Placed.originalIds n (⟨.table table, around⟩ ::
        (layout.header.toList ++ layout.template :: layout.rest).flatMap
          (Row.outline Block.outline around table))) := by
  have hrefl : ∀ around p, Paragraph.Edited (fun _ => True) around p p := fun _ _ => .inl rfl
  have hrest := Placed.Descend.of_sublist (n := n) hrefl
    (List.sublist_append_right (layout.template.outline Block.outline around table)
      (layout.rest.flatMap (Row.outline Block.outline around table)))
  have hheader : Placed.Descend (Paragraph.Edited fun _ => True) n
      (layout.header.toList.flatMap (Row.outline Block.outline around table))
      ((layout.header.map (Row.headed headers)).toList.flatMap
        (Row.outline Block.outline around table)) := layout.descend_header trivial headers
  have hdescend := (hheader.append hrest).cons hrefl ⟨.table table, around⟩
  simpa using hdescend.ids

/-- A filling adds the bare cells that it writes headers into. -/
theorem allotted_fill {settings : Settings} {layout : TableLayout}
    (ht : d.document.table? t.id = some t) (hlayout : TableLayout.ofRows? t.rows = some layout)
    (h : (fill settings data t.id layout).Yields d () d') (hd : d.document.Allotted bare) :
    d'.document.Allotted fun position => bare position ∨ IsBare t data.headers position := by
  have hd' := allotted_headed hd ht data.headers
  obtain ⟨last, records, d₁, hle, -, hids, hdoc | ⟨around, hex⟩⟩ := yields_fill ht h
  · rw [hdoc]
    exact hd'.of_lastId hle
  have hrows := TableLayout.rows_eq_of_ofRows? hlayout
  have hold : (Block.table t).outline around ⊆ d.document.outline := hex.subset
  rw [Block.outline_table, Table.outline, hrows] at hold hex
  have hmem : ∀ x ∈ (⟨.table t.id, around⟩ :: (layout.header.map (Row.headed data.headers)).toList.flatMap
      (Row.outline Block.outline around t.id)) ++
        layout.rest.flatMap (Row.outline Block.outline around t.id),
      x.id ≤ d.document.lastId ∧ (x.id = 0 ↔ x.IsParagraphOf fun position =>
        bare position ∨ IsBare t data.headers position) := by
    intro x hx
    rw [List.cons_append, List.mem_cons, List.mem_append] at hx
    rcases hx with rfl | hx | hx
    · exact ⟨hd'.le _ (hold List.mem_cons_self), hd'.zero _ (hold List.mem_cons_self)⟩
    · obtain ⟨_, hheaded, hx⟩ := List.mem_flatMap.1 hx
      obtain ⟨header, hheader, rfl⟩ := Option.map_eq_some_iff.1 (Option.mem_toList.1 hheaded)
      refine zero_iff_of_mem_headed hd' hlayout hheader (fun _ => .inr) (fun y hy => hold ?_) hx
      simp only [List.mem_cons, List.flatMap_append, List.mem_append]
      exact .inr (.inl (List.mem_flatMap.2 ⟨header, Option.mem_toList.2 hheader, hy⟩))
    · have hx : x ∈ d.document.outline := by
        refine hold ?_
        simp only [List.mem_cons, List.flatMap_append, List.flatMap_cons, List.mem_append]
        exact .inr (.inr (.inr hx))
      exact ⟨hd'.le x hx, hd'.zero x hx⟩
  have hfresh : (records.flatMap (Row.outline Block.outline around t.id)).map Placed.id = _ :=
    map_id_records.trans hids
  refine hd'.of_exchange hle (by simpa [TableLayout.rows, Table.outline] using hex)
    (sublist_originalIds_headed layout) (fun x hx => (hmem x hx).1) (fun x hx => (hmem x hx).2)
    hfresh fun q position rest hq => ?_
  have hrow := row_mem_of_mem_records hq
  rw [hids, Numbering.mem_next_iff hle] at hrow
  exact hrow.1

/-- The cells that an edit is going to write headers into, but that have no paragraph. -/
def Bares (doc : Document) (edit : Edit) (position : CellPosition) : Prop :=
  ∃ i data table t, edit = .fillTable i data ∧ target? doc i.site = some table ∧
    doc.table? table = some t ∧ IsBare t data.headers position

theorem allotted_perform {edit : Edit} (h : (perform f edit).Yields d () d')
    (hd : d.document.Allotted bare) :
    d'.document.Allotted fun position => bare position ∨ Bares d.document edit position := by
  have hnone : (∀ i data, edit ≠ .fillTable i data) → d.document.Loses d'.document →
      d'.document.Allotted fun position => bare position ∨ Bares d.document edit position := by
    intro hne hloses
    refine (hd.of_loses hloses).congr fun position => (or_iff_left ?_).symm
    rintro ⟨i, data, -, -, heq, -⟩
    exact hne i data heq
  cases edit with
  | dropTable i => exact hnone (fun _ _ => nofun) (loses_dropTable h)
  | fillTable i data =>
    have hsame : ∀ {table t}, target? d.document i.site = some table →
        d.document.table? table = some t → ∀ position,
          bare position ∨ IsBare t data.headers position ↔
            bare position ∨ Bares d.document (.fillTable i data) position := by
      intro table t htarget ht position
      refine or_congr_right ⟨fun h => ⟨i, data, table, t, rfl, htarget, ht, h⟩, ?_⟩
      rintro ⟨_, _, table', t', heq, htarget', ht', h⟩
      cases heq
      obtain rfl := Option.some.inj (htarget.symm.trans htarget')
      obtain rfl := Option.some.inj (ht.symm.trans ht')
      exact h
    have hid : ∀ {table t}, d.document.table? table = some t → t.id = table := fun ht =>
      (Document.node_mem_outline (Document.table?_eq_some_iff.1 ht)).1
    rcases yields_fillTable h with rfl | ⟨table, t, layout, htarget, ht, hlayout, hfill⟩
    · -- Nothing is written, since there is no table or no row in it.
      by_cases hfound : ∃ table t, target? d'.document i.site = some table ∧
          d'.document.table? table = some t
      · obtain ⟨table, t, htarget, ht⟩ := hfound
        obtain rfl := hid ht
        exact (allotted_headed hd ht data.headers).congr (hsame htarget ht)
      · refine hd.congr fun position => (or_iff_left ?_).symm
        rintro ⟨_, _, table, t, heq, htarget, ht, -⟩
        cases heq
        exact hfound ⟨table, t, htarget, ht⟩
    · obtain rfl := hid ht
      exact (allotted_fill ht hlayout hfill hd).congr (hsame htarget ht)
  | _ =>
    obtain ⟨-, rfl⟩ := Revision.yields_pure.1 h
    exact hnone (fun _ _ => nofun) (.inl rfl)

end TableFill

/-- Fillings and removals of tables add the bare cells that they write headers into. -/
theorem Move.allotted_fills {moves : List Move} (hmoves : ∀ m ∈ moves, m.pass = .fills)
    {bare : CellPosition → Prop} (h : (moves.forM (perform f)).Yields d () d')
    (hd : d.document.Allotted bare) :
    d'.document.Allotted fun position => bare position ∨ ∃ m d₁,
      Revision.Reaches (perform f) moves d m d₁ ∧ TableFill.Bares d₁.document m.edit position := by
  induction moves generalizing d bare with
  | nil =>
    obtain rfl := Revision.yields_forM_nil.1 h
    refine hd.congr fun position => (or_iff_left ?_).symm
    rintro ⟨m, d₁, hreach, -⟩
    exact absurd hreach.mem List.not_mem_nil
  | cons m moves ih =>
    rw [List.forall_mem_cons] at hmoves
    obtain ⟨d₁, hm, hrest⟩ := Revision.yields_forM_cons.1 h
    have hd₁ := TableFill.allotted_perform (f := f) (by rw [perform, hmoves.1] at hm; exact hm) hd
    refine (ih hmoves.2 hrest hd₁).congr fun position => ?_
    simp only [Revision.reaches_cons_iff hm, or_assoc]
    refine or_congr_right ⟨?_, ?_⟩
    · rintro (hbares | ⟨m', d₂, hreach, hbares⟩)
      · exact ⟨m, d, .inl ⟨rfl, rfl⟩, hbares⟩
      · exact ⟨m', d₂, .inr hreach, hbares⟩
    · rintro ⟨m', d₂, ⟨rfl, rfl⟩ | hreach, hbares⟩
      · exact .inl hbares
      · exact .inr ⟨m', d₂, hreach, hbares⟩

end DocTemplate
