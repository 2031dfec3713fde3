import DocTemplate.Document.Numbering
import DocTemplate.Proofs.Document.Outline

/-!
# Numbers

A numbering gives the next numbers, without gaps and in reading order, and changes
nothing else. Both are said of any computation that gives numbers
(`Numbering.Gives`), and go from the items of a list to the list, and from the
blocks in a table to the table.

* `Block.gives_numbered`: a block is numbered so;
* `Document.numberBlocks_spec`: numbered blocks have new numbers, and paragraphs
  that only differ in their number;
* `Document.nodup_outline_assignIds`: a numbered document has no number twice.
-/

namespace DocTemplate

/-- The paragraph without its number. -/
def Paragraph.unnumbered (p : Paragraph) : Paragraph :=
  { p with id := 0 }

namespace Numbering

variable {α β : Type}

/-- A computation gives the numbers after the last one to the nodes of its outcome
    (`ids`), the paragraphs of which (`texts`) are known but for their numbers. -/
structure Gives (n : Numbering α) (ids : α → List NodeId) (texts : α → List Paragraph)
    (ps : List Paragraph) : Prop where
  le (last : Nat) : last ≤ (n.run last).2
  ids (last : Nat) : ids (n.run last).1 = List.range' (last + 1) ((n.run last).2 - last)
  texts (last : Nat) : texts (n.run last).1 = ps

variable {ids : α → List NodeId} {texts : α → List Paragraph} {ps : List Paragraph}

/-- The numbers that are given are those after the last one. -/
theorem mem_next_iff {last next id : Nat} (h : last ≤ next) :
    id ∈ List.range' (last + 1) (next - last) ↔ last < id ∧ id ≤ next := by
  rw [List.mem_range'_1]
  omega

/-- The next numbers, and those after them. -/
theorem next_append_next {last next next' : Nat} (h : last ≤ next) (h' : next ≤ next') :
    List.range' (last + 1) (next - last) ++ List.range' (next + 1) (next' - next) =
      List.range' (last + 1) (next' - last) := by
  rw [show next + 1 = last + 1 + 1 * (next - last) by omega, List.range'_append]
  congr 1
  omega

/-- Nothing is numbered. -/
theorem gives_pure (ps : List Paragraph) :
    Gives (pure () : Numbering Unit) (fun _ => []) (fun _ => ps) ps where
  le last := Nat.le_refl last
  ids last := by
    change [] = List.range' (last + 1) (last - last)
    simp
  texts last := rfl

/-- A node with nodes in it. -/
theorem Gives.cons {n : Numbering α} (h : n.Gives ids texts ps) (f : NodeId → α → β)
    (ids' : β → List NodeId) (texts' : β → List Paragraph)
    (hids : ∀ id a, ids' (f id a) = id :: ids a) (htexts : ∀ id a, texts' (f id a) = texts a) :
    Gives (do let id ← fresh; let a ← n; return f id a) ids' texts' ps := by
  have hrun : ∀ last, (StateT.run (do let id ← fresh; let a ← n; return f id a) last : β × Nat) =
      (f (last + 1) (n.run (last + 1)).1, (n.run (last + 1)).2) := fun last => rfl
  refine ⟨fun last => ?_, fun last => ?_, fun last => ?_⟩
  · have := h.le (last + 1)
    rw [hrun]
    omega
  · have hle := h.le (last + 1)
    rw [hrun, hids, h.ids, show (n.run (last + 1)).2 - last = (n.run (last + 1)).2 - (last + 1) + 1 by
      omega, List.range'_succ]
  · rw [hrun, htexts, h.texts]

/-- The items of a list one after the other. -/
theorem Gives.mapM {γ : Type} {n : γ → Numbering α} {ps : γ → List Paragraph} {cs : List γ}
    (h : ∀ c ∈ cs, (n c).Gives ids texts (ps c)) :
    (cs.mapM n).Gives (fun as => as.flatMap ids) (fun as => as.flatMap texts) (cs.flatMap ps) := by
  induction cs with
  | nil =>
    refine ⟨fun last => Nat.le_refl last, fun last => ?_, fun last => rfl⟩
    change [] = List.range' (last + 1) (last - last)
    simp
  | cons c cs ih =>
    have hc := h c List.mem_cons_self
    have hcs := ih fun c hc => h c (List.mem_cons_of_mem _ hc)
    have hrun : ∀ last, (((c :: cs).mapM n).run last : List α × Nat) =
        (((n c).run last).1 :: ((cs.mapM n).run ((n c).run last).2).1,
          ((cs.mapM n).run ((n c).run last).2).2) := by
      intro last
      rw [List.mapM_cons]
      rfl
    refine ⟨fun last => ?_, fun last => ?_, fun last => ?_⟩
    · rw [hrun]
      exact Nat.le_trans (hc.le last) (hcs.le _)
    · rw [hrun, List.flatMap_cons, hc.ids, hcs.ids]
      exact next_append_next (hc.le last) (hcs.le _)
    · rw [hrun, List.flatMap_cons, List.flatMap_cons, hc.texts, hcs.texts]

/-- The outcome of a computation, put into something else. -/
theorem Gives.map {n : Numbering α} (h : n.Gives ids texts ps) {f : α → β}
    {ids' : β → List NodeId} {texts' : β → List Paragraph}
    (hids : ∀ a, ids' (f a) = ids a) (htexts : ∀ a, texts' (f a) = texts a) :
    Gives (do let a ← n; return f a) ids' texts' ps where
  le := h.le
  ids last := (hids _).trans (h.ids last)
  texts last := (htexts _).trans (h.texts last)

end Numbering

section Layers

variable {α β : Type}

/-- The numbers of the row and of the items in its cells. -/
def Row.ids (ids : α → List NodeId) (r : Row α) : List NodeId :=
  r.id :: r.items.flatMap ids

/-- The numbers of the table, of its rows and of the items in their cells. -/
def Table.ids (ids : α → List NodeId) (t : Table α) : List NodeId :=
  t.id :: t.rows.flatMap (Row.ids ids)

theorem Row.map_id_outline {inner : α → List CellPosition → List Placed} {ids : α → List NodeId}
    {r : Row α} (h : ∀ item ∈ r.items, ∀ around, (inner item around).map Placed.id = ids item)
    (around : List CellPosition) (table : NodeId) :
    (r.outline inner around table).map Placed.id = r.ids ids := by
  have hcell : ∀ c ∈ r.cells.zipIdx,
      (c.1.outline inner around ⟨table, r.id, c.2⟩).map Placed.id = c.1.content.flatMap ids := by
    intro c hc
    rw [Cell.outline, List.map_flatMap]
    exact List.flatMap_congr fun item hitem =>
      h item (mem_items.2 ⟨c.1, List.fst_mem_of_mem_zipIdx hc, hitem⟩) _
  rw [outline, List.map_cons, List.map_flatMap, List.flatMap_congr hcell,
    flatMap_zipIdx_fst (fun c : Cell α => c.content.flatMap ids), Row.ids, items,
    List.flatMap_assoc]
  rfl

theorem Table.map_id_outline {inner : α → List CellPosition → List Placed} {ids : α → List NodeId}
    {t : Table α} (h : ∀ item ∈ t.items, ∀ around, (inner item around).map Placed.id = ids item)
    (around : List CellPosition) : (t.outline inner around).map Placed.id = t.ids ids := by
  rw [outline, List.map_cons, List.map_flatMap, Table.ids]
  congr 1
  refine List.flatMap_congr fun r hr => Row.map_id_outline (fun item hitem => h item ?_) _ _
  simp only [items, List.mem_flatMap]
  exact ⟨r, hr, hitem⟩

variable {num : β → Numbering α} {ids : α → List NodeId} {texts : α → List Paragraph}
  {ps : β → List Paragraph}

theorem Row.gives_numbered {r : Row β} (h : ∀ b ∈ r.items, (num b).Gives ids texts (ps b)) :
    (r.map num).numbered.Gives (Row.ids ids) (fun r => r.items.flatMap texts)
      (r.items.flatMap ps) := by
  have hcell : ∀ c ∈ r.cells, @Numbering.Gives (Cell α)
      (do let content ← c.content.mapM num; return ⟨content, c.gridSpan⟩)
      (fun c => c.content.flatMap ids) (fun c => c.content.flatMap texts)
      (c.content.flatMap ps) := by
    intro c hc
    exact (Numbering.Gives.mapM fun b hb => h b (mem_items.2 ⟨c, hc, hb⟩)).map
      (fun _ => rfl) (fun _ => rfl)
  have hrow := (Numbering.Gives.mapM hcell).cons (fun id cells => (⟨id, cells⟩ : Row α)) (Row.ids ids)
    (fun r => r.items.flatMap texts)
    (fun id cells => by simp [Row.ids, items, List.flatMap_assoc])
    (fun id cells => by simp [items, List.flatMap_assoc])
  have hmap : (r.map num).numbered =
      (do
        let id ← Numbering.fresh
        let cells ← r.cells.mapM fun c => do
          let content ← c.content.mapM num
          return (⟨content, c.gridSpan⟩ : Cell α)
        return ⟨id, cells⟩) := by
    simp only [numbered, map, List.mapM_map, Function.comp_def, Cell.map]
  rw [hmap, items, List.flatMap_assoc]
  exact hrow

theorem Table.gives_numbered {t : Table β} (h : ∀ b ∈ t.items, (num b).Gives ids texts (ps b)) :
    (t.map num).numbered.Gives (Table.ids ids) (fun t => t.items.flatMap texts)
      (t.items.flatMap ps) := by
  have hrow : ∀ r ∈ t.rows, (r.map num).numbered.Gives (Row.ids ids)
      (fun r => r.items.flatMap texts) (r.items.flatMap ps) := by
    intro r hr
    refine Row.gives_numbered fun b hb => h b ?_
    simp only [items, List.mem_flatMap]
    exact ⟨r, hr, hb⟩
  have htable := (Numbering.Gives.mapM hrow).cons
    (fun id rows => (⟨id, rows, t.styleId⟩ : Table α)) (Table.ids ids)
    (fun t => t.items.flatMap texts)
    (fun id rows => rfl) (fun id rows => by simp [items, List.flatMap_assoc])
  have hmap : (t.map num).numbered =
      (do
        let id ← Numbering.fresh
        let rows ← t.rows.mapM fun r => (r.map num).numbered
        return ⟨id, rows, t.styleId⟩) := by
    simp only [numbered, map, List.mapM_map]
    rfl
  rw [hmap, items, List.flatMap_assoc]
  exact htable

end Layers

namespace Block

/-- The numbers of the nodes of a block, in reading order. -/
def ids (b : Block) : List NodeId :=
  (b.outline []).map Placed.id

theorem map_id_outline (b : Block) (around : List CellPosition) :
    (b.outline around).map Placed.id = b.ids := by
  suffices ∀ around around', (b.outline around).map Placed.id = (b.outline around').map Placed.id from
    this around []
  induction b using Block.induction with
  | paragraph p => simp [Placed.id]
  | table t ih =>
    intro around around'
    rw [outline_table, outline_table, Table.map_id_outline (fun b hb a => ih b hb a []),
      Table.map_id_outline (fun b hb a => ih b hb a [])]

@[simp] theorem ids_paragraph (p : Paragraph) : ids (paragraph p) = [p.id] := by
  simp [ids, Placed.id, Node.id]

@[simp] theorem ids_table (t : Table Block) : ids (table t) = t.ids ids := by
  rw [ids, outline_table, Table.map_id_outline fun b _ a => b.map_id_outline a]

/-- The paragraphs of a block, but for their numbers. -/
def texts (b : Block) : List Paragraph :=
  b.paragraphs.map Paragraph.unnumbered

@[simp] theorem texts_paragraph (p : Paragraph) : (paragraph p).texts = [p.unnumbered] := by
  simp [texts]

@[simp] theorem texts_table (t : Table Block) : (table t).texts = t.items.flatMap texts := by
  simp only [texts, paragraphs_table, List.map_flatMap]
  rfl

theorem gives_numbered (b : Block) : b.numbered.Gives ids texts b.texts := by
  induction b using Block.induction with
  | paragraph p =>
    have h := (Numbering.gives_pure [p.unnumbered]).cons
      (fun id _ => Block.paragraph { p with id }) ids texts
      (fun id _ => by simp)
      (fun id _ => by simp [Paragraph.unnumbered])
    rw [texts_paragraph]
    simpa [numbered] using h
  | table t ih =>
    have h := (Table.gives_numbered ih).map ids_table texts_table
    rw [texts_table]
    simpa [numbered] using h

theorem map_id_outlineOf (bs : List Block) (around : List CellPosition) :
    (outlineOf bs around).map Placed.id = bs.flatMap ids := by
  rw [outlineOf, List.map_flatMap]
  exact List.flatMap_congr fun b _ => b.map_id_outline around

end Block

namespace Document

variable (doc : Document)

/-- Numbered blocks have the next numbers, and their paragraphs are the same but
    for these. -/
theorem numberBlocks_spec (blocks : List Block) :
    (∃ last, doc.lastId ≤ last ∧ (doc.numberBlocks blocks).2 = { doc with lastId := last }) ∧
      (doc.numberBlocks blocks).1.flatMap Block.ids =
        List.range' (doc.lastId + 1) ((doc.numberBlocks blocks).2.lastId - doc.lastId) ∧
      (doc.numberBlocks blocks).1.flatMap Block.texts = blocks.flatMap Block.texts := by
  have hg := Numbering.Gives.mapM fun b (_ : b ∈ blocks) => b.gives_numbered
  exact ⟨⟨_, hg.le _, rfl⟩, hg.ids _, hg.texts _⟩

/-- A numbered row has the next numbers. -/
theorem numberRow_spec (row : Row Block) :
    (∃ last, doc.lastId ≤ last ∧ (doc.numberRow row).2 = { doc with lastId := last }) ∧
      (doc.numberRow row).1.ids Block.ids =
        List.range' (doc.lastId + 1) ((doc.numberRow row).2.lastId - doc.lastId) := by
  have hg := Row.gives_numbered fun b (_ : b ∈ row.items) => b.gives_numbered
  exact ⟨⟨_, hg.le _, rfl⟩, hg.ids _⟩

/-- The paragraphs of a numbered row are the same but for their numbers. -/
theorem texts_numberRow (row : Row Block) :
    (doc.numberRow row).1.items.flatMap Block.texts = row.items.flatMap Block.texts :=
  (Row.gives_numbered fun b (_ : b ∈ row.items) => b.gives_numbered).texts _

/-- The numbers of a numbered document are those from 1 to the last one. -/
theorem map_id_outline_assignIds :
    doc.assignIds.outline.map Placed.id = List.range' 1 doc.assignIds.lastId := by
  obtain ⟨-, hids, -⟩ := numberBlocks_spec { doc with lastId := 0 } doc.body
  rw [outline, Block.map_id_outlineOf]
  exact hids

theorem nodup_outline_assignIds : (doc.assignIds.outline.map Placed.id).Nodup := by
  rw [map_id_outline_assignIds]
  exact List.nodup_range'

/-- Numbering a document gives its paragraphs numbers and changes nothing else in them. -/
theorem paragraphs_assignIds :
    doc.assignIds.paragraphs.map Paragraph.unnumbered =
      doc.paragraphs.map Paragraph.unnumbered := by
  obtain ⟨-, -, htexts⟩ := numberBlocks_spec { doc with lastId := 0 } doc.body
  simp only [paragraphs, Block.paragraphsOf, List.map_flatMap]
  exact htexts

end Document

end DocTemplate
