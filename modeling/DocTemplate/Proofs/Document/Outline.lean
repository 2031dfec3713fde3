import DocTemplate.Document.Walk
import Mathlib.Data.List.Basic

/-!
# Outlines

The *outline* of a document lists its nodes in reading order: a paragraph, or a
table before its rows, or a row before what is in its cells, each with the cells
around it. It forgets what does not matter for the place of a node, so it turns
statements on trees of blocks into statements on lists.

* `Block.paragraphs_eq_outline`: the paragraphs of a block are those of its outline;
* `Block.outline_mapParagraphs`: a change of all paragraphs is one of all entries;
* `Block.suffix_of_mem_outline`: the cells around a block are around all its nodes;
* `Block.around_of_mem_outline`: the table of a cell around a node of a block, if it
  is not around the block, is a node of the block too;
* `Block.eq_or_around_of_mem_outline`: a paragraph of a block is the block itself,
  or the block is a table, and around the paragraph.
-/

namespace DocTemplate

/-- A node of a document. -/
inductive Node where
  | paragraph (p : Paragraph)
  | table (id : NodeId)
  | row (id : NodeId)
  deriving DecidableEq

namespace Node

/-- The number of the node. -/
def id : Node → NodeId
  | paragraph p => p.id
  | table id | row id => id

/-- The paragraph, of a paragraph. -/
def paragraph? : Node → Option Paragraph
  | paragraph p => some p
  | _ => none

/-- Whether the node is a paragraph or a table. -/
def isBlock : Node → Bool
  | row _ => false
  | _ => true

/-- The node with a change to its paragraph, if it is one. -/
def mapParagraph (f : Paragraph → Paragraph) : Node → Node
  | paragraph p => paragraph (f p)
  | node => node

end Node

/-- A node with the cells around it, the innermost one first. -/
structure Placed where
  node : Node
  around : List CellPosition
  deriving DecidableEq

namespace Placed

/-- The number of the node. -/
def id (e : Placed) : NodeId :=
  e.node.id

/-- The paragraph, of a paragraph. -/
def paragraph? (e : Placed) : Option Paragraph :=
  e.node.paragraph?

/-- The node at its place with a change to its paragraph, if it is one. -/
def mapParagraph (f : Paragraph → Paragraph) (e : Placed) : Placed :=
  { e with node := e.node.mapParagraph f }

end Placed

/-- What does not depend on the places in a list is collected as from the list. -/
theorem flatMap_zipIdx_fst {α β : Type} (f : α → List β) (as : List α) (start : Nat) :
    ((as.zipIdx start).flatMap fun x => f x.1) = as.flatMap f := by
  rw [← List.flatMap_map Prod.fst f, List.zipIdx_map_fst]

theorem Row.mem_items {α : Type} {r : Row α} {a : α} :
    a ∈ r.items ↔ ∃ c ∈ r.cells, a ∈ c.content :=
  List.mem_flatMap

theorem Table.mem_items {α : Type} {t : Table α} {a : α} :
    a ∈ t.items ↔ ∃ r ∈ t.rows, ∃ c ∈ r.cells, a ∈ c.content := by
  simp only [items, List.mem_flatMap, Row.mem_items]

section Layers

variable {α : Type} (inner : α → List CellPosition → List Placed) (around : List CellPosition)

/-- The nodes in a cell at a position. -/
def Cell.outline (position : CellPosition) (c : Cell α) : List Placed :=
  c.content.flatMap fun item => inner item (position :: around)

/-- The row and the nodes in its cells. -/
def Row.outline (table : NodeId) (r : Row α) : List Placed :=
  ⟨.row r.id, around⟩ ::
    r.cells.zipIdx.flatMap fun (cell, i) => cell.outline inner around ⟨table, r.id, i⟩

/-- The table, its rows and the nodes in its cells. -/
def Table.outline (t : Table α) : List Placed :=
  ⟨.table t.id, around⟩ :: t.rows.flatMap (Row.outline inner around t.id)

variable {inner around} {e : Placed}

theorem Row.mem_outline {table : NodeId} {r : Row α} :
    e ∈ Row.outline inner around table r ↔ e = ⟨.row r.id, around⟩ ∨
      ∃ cell i item, r.cells[i]? = some cell ∧ item ∈ cell.content ∧
        e ∈ inner item (⟨table, r.id, i⟩ :: around) := by
  simp only [Row.outline, Cell.outline, List.mem_cons, List.mem_flatMap, Prod.exists,
    List.mk_mem_zipIdx_iff_getElem?]
  exact or_congr_right ⟨fun ⟨c, i, hc, a, ha, he⟩ => ⟨c, i, a, hc, ha, he⟩,
    fun ⟨c, i, a, hc, ha, he⟩ => ⟨c, i, hc, a, ha, he⟩⟩

theorem Table.mem_outline {t : Table α} :
    e ∈ Table.outline inner around t ↔ e = ⟨.table t.id, around⟩ ∨
      ∃ r ∈ t.rows, e ∈ Row.outline inner around t.id r := by
  simp [Table.outline]

/-- A node in a table is the table itself, one of its rows, or in a cell. -/
theorem Table.cases_of_mem_outline {t : Table α} (h : e ∈ Table.outline inner around t) :
    e = ⟨.table t.id, around⟩ ∨ (∃ r ∈ t.rows, e = ⟨.row r.id, around⟩) ∨
      ∃ item ∈ t.items, ∃ position : CellPosition, position.table = t.id ∧
        e ∈ inner item (position :: around) := by
  rcases Table.mem_outline.1 h with rfl | ⟨r, hr, he⟩
  · exact .inl rfl
  · rcases Row.mem_outline.1 he with rfl | ⟨cell, i, item, hcell, hitem, he⟩
    · exact .inr (.inl ⟨r, hr, rfl⟩)
    · exact .inr (.inr ⟨item, Table.mem_items.2 ⟨r, hr, cell, List.mem_of_getElem? hcell, hitem⟩,
        _, rfl, he⟩)

/-- The items may be changed before or after they are listed. -/
theorem Table.outline_map {β : Type} {inner : β → List CellPosition → List Placed} (f : α → β)
    (t : Table α) : (t.map f).outline inner around = t.outline (fun a => inner (f a)) around := by
  simp only [outline, map, Row.map, List.flatMap_map, List.cons.injEq, true_and]
  refine List.flatMap_congr fun r _ => ?_
  simp [Row.outline, Cell.outline, Cell.map, List.zipIdx_map, List.flatMap_map]

theorem Table.items_map {β : Type} (f : α → β) (t : Table α) : (t.map f).items = t.items.map f := by
  simp [items, map, Row.items, Row.map, Cell.map, List.flatMap_map, List.map_flatMap]

/-- A change of the nodes in the cells is a change of the outline. -/
theorem Table.map_outline {inner' : α → List CellPosition → List Placed} {f : Placed → Placed}
    (t : Table α) (htable : ∀ id a, f ⟨.table id, a⟩ = ⟨.table id, a⟩)
    (hrow : ∀ id a, f ⟨.row id, a⟩ = ⟨.row id, a⟩)
    (h : ∀ item ∈ t.items, ∀ around, (inner item around).map f = inner' item around) :
    (t.outline inner around).map f = t.outline inner' around := by
  rw [outline, outline, List.map_cons, htable, List.map_flatMap]
  congr 1
  refine List.flatMap_congr fun r hr => ?_
  rw [Row.outline, Row.outline, List.map_cons, hrow, List.map_flatMap]
  congr 1
  refine List.flatMap_congr fun c hc => ?_
  simp only [Cell.outline, List.map_flatMap]
  exact List.flatMap_congr fun item hitem =>
    h item (mem_items.2 ⟨r, hr, c.1, List.fst_mem_of_mem_zipIdx hc, hitem⟩) _

/-- What does not depend on the cells around is listed as the items are. -/
theorem Table.filterMap_outline {β : Type} {f : Placed → Option β} {g : α → List β} (t : Table α)
    (htable : ∀ id a, f ⟨.table id, a⟩ = none) (hrow : ∀ id a, f ⟨.row id, a⟩ = none)
    (h : ∀ item ∈ t.items, ∀ around, (inner item around).filterMap f = g item) :
    (t.outline inner around).filterMap f = t.items.flatMap g := by
  have hcells : ∀ r ∈ t.rows, (r.outline inner around t.id).filterMap f = r.items.flatMap g := by
    intro r hr
    have hcell : ∀ c ∈ r.cells.zipIdx,
        (c.1.outline inner around ⟨t.id, r.id, c.2⟩).filterMap f = c.1.content.flatMap g := by
      intro c hc
      rw [Cell.outline, List.filterMap_flatMap]
      exact List.flatMap_congr fun item hitem =>
        h item (mem_items.2 ⟨r, hr, c.1, List.fst_mem_of_mem_zipIdx hc, hitem⟩) _
    rw [Row.outline, List.filterMap_cons_none (hrow _ _), List.filterMap_flatMap,
      List.flatMap_congr hcell, flatMap_zipIdx_fst (fun c : Cell α => c.content.flatMap g),
      Row.items, List.flatMap_assoc]
  rw [outline, List.filterMap_cons_none (htable _ _), List.filterMap_flatMap,
    List.flatMap_congr hcells, items, List.flatMap_assoc]

end Layers

namespace Block

/-- The nodes of a block in reading order, with the cells around each; `around`
    are those around the block. -/
def outline : Block → (around : List CellPosition) → List Placed :=
  fold (fun p around => [⟨.paragraph p, around⟩]) fun t around =>
    t.outline (fun item around => item around) around

/-- The nodes of some blocks. -/
def outlineOf (blocks : List Block) (around : List CellPosition) : List Placed :=
  blocks.flatMap fun b => b.outline around

@[simp] theorem outline_paragraph (p : Paragraph) (around : List CellPosition) :
    (paragraph p).outline around = [⟨.paragraph p, around⟩] := by
  simp [outline]

@[simp] theorem outline_table (t : Table Block) (around : List CellPosition) :
    (table t).outline around = t.outline outline around := by
  rw [outline, fold_table, Table.outline_map]

@[simp] theorem outlineOf_nil (around : List CellPosition) : outlineOf [] around = [] := rfl

@[simp] theorem outlineOf_cons (b : Block) (bs : List Block) (around : List CellPosition) :
    outlineOf (b :: bs) around = b.outline around ++ outlineOf bs around :=
  List.flatMap_cons

@[simp] theorem outlineOf_append (as bs : List Block) (around : List CellPosition) :
    outlineOf (as ++ bs) around = outlineOf as around ++ outlineOf bs around :=
  List.flatMap_append

/-- The node that the block is. -/
def node : Block → Node
  | paragraph p => .paragraph p
  | table t => .table t.id

theorem id_node (b : Block) : b.node.id = b.id := by
  cases b <;> rfl

theorem node_mem_outline (b : Block) (around : List CellPosition) :
    ⟨b.node, around⟩ ∈ b.outline around := by
  cases b <;> simp [node, Table.outline]

/-- The cells around a block are around all its nodes. -/
theorem suffix_of_mem_outline {b : Block} {around : List CellPosition} {e : Placed}
    (h : e ∈ b.outline around) : around <:+ e.around := by
  induction b using Block.induction generalizing around with
  | paragraph p =>
    obtain rfl : e = ⟨.paragraph p, around⟩ := by simpa using h
    exact List.suffix_rfl
  | table t ih =>
    rw [outline_table] at h
    rcases Table.cases_of_mem_outline h with rfl | ⟨r, _, rfl⟩ | ⟨b, hb, position, -, he⟩
    · exact List.suffix_rfl
    · exact List.suffix_rfl
    · exact (List.suffix_cons _ _).trans (ih b hb he)

/-- The block nodes of a block are the block itself, or else the block is a table,
    and around them. -/
theorem eq_or_around_of_mem_outline {b : Block} {around : List CellPosition} {e : Placed}
    (h : e ∈ b.outline around) (he : e.node.isBlock) :
    e = ⟨b.node, around⟩ ∨ ∃ position ∈ e.around, position.table = b.id := by
  cases b with
  | paragraph p =>
    rw [outline_paragraph, List.mem_singleton] at h
    exact .inl h
  | table t =>
    rw [outline_table] at h
    rcases Table.cases_of_mem_outline h with rfl | ⟨r, _, rfl⟩ | ⟨b, hb, position, ht, hmem⟩
    · exact .inl rfl
    · cases he
    · exact .inr ⟨position, (suffix_of_mem_outline hmem).subset List.mem_cons_self, ht⟩

/-- The tables of the cells around a node are nodes, unless they are around the
    whole block. -/
theorem around_of_mem_outline {b : Block} {around : List CellPosition} {e : Placed}
    (h : e ∈ b.outline around) {position : CellPosition} (hp : position ∈ e.around) :
    position ∈ around ∨ ∃ a, ⟨.table position.table, a⟩ ∈ b.outline around := by
  induction b using Block.induction generalizing around with
  | paragraph p =>
    obtain rfl : e = ⟨.paragraph p, around⟩ := by simpa using h
    exact .inl hp
  | table t ih =>
    rw [outline_table] at h ⊢
    rcases Table.mem_outline.1 h with rfl | ⟨r, hr, he⟩
    · exact .inl hp
    rcases Row.mem_outline.1 he with rfl | ⟨cell, i, item, hcell, hitem, he⟩
    · exact .inl hp
    have hmem : item ∈ t.items :=
      Table.mem_items.2 ⟨r, hr, cell, List.mem_of_getElem? hcell, hitem⟩
    rcases ih item hmem he with hin | ⟨a, ha⟩
    · rcases List.mem_cons.1 hin with rfl | hin
      · -- The cell of the table itself.
        exact .inr ⟨around, Table.mem_outline.2 (.inl rfl)⟩
      · exact .inl hin
    · exact .inr ⟨a, Table.mem_outline.2 (.inr ⟨r, hr,
        Row.mem_outline.2 (.inr ⟨cell, i, item, hcell, hitem, ha⟩)⟩)⟩

/-! ## Paragraphs -/

@[simp] theorem paragraphs_paragraph (p : Paragraph) : (paragraph p).paragraphs = [p] := by
  simp [paragraphs]

@[simp] theorem paragraphs_table (t : Table Block) :
    (table t).paragraphs = t.items.flatMap paragraphs := by
  simp only [paragraphs, fold_table, Table.items_map, List.flatMap]

theorem paragraphs_eq_outline (b : Block) (around : List CellPosition) :
    b.paragraphs = (b.outline around).filterMap Placed.paragraph? := by
  induction b using Block.induction generalizing around with
  | paragraph p => simp [Placed.paragraph?, Node.paragraph?]
  | table t ih =>
    rw [outline_table, paragraphs_table, t.filterMap_outline (fun _ _ => rfl) (fun _ _ => rfl)
      fun b hb around => (ih b hb around).symm]

theorem paragraphsOf_eq_outline (bs : List Block) (around : List CellPosition) :
    paragraphsOf bs = (outlineOf bs around).filterMap Placed.paragraph? := by
  rw [paragraphsOf, outlineOf, List.filterMap_flatMap]
  exact List.flatMap_congr fun b _ => b.paragraphs_eq_outline around

theorem outline_mapParagraphs (f : Paragraph → Paragraph) (b : Block)
    (around : List CellPosition) :
    (b.mapParagraphs f).outline around = (b.outline around).map (Placed.mapParagraph f) := by
  induction b using Block.induction generalizing around with
  | paragraph p => simp [mapParagraphs, Placed.mapParagraph, Node.mapParagraph]
  | table t ih =>
    rw [mapParagraphs, fold_table, outline_table, outline_table, Table.outline_map]
    exact (t.map_outline (fun _ _ => rfl) (fun _ _ => rfl)
      fun b hb around => (ih b hb around).symm).symm

theorem outlineOf_mapParagraphs (f : Paragraph → Paragraph) (bs : List Block)
    (around : List CellPosition) :
    outlineOf (bs.map (mapParagraphs f)) around =
      (outlineOf bs around).map (Placed.mapParagraph f) := by
  rw [outlineOf, outlineOf, List.flatMap_map, List.map_flatMap]
  exact List.flatMap_congr fun b _ => b.outline_mapParagraphs f around

theorem paragraphs_mapParagraphs (f : Paragraph → Paragraph) (b : Block) :
    (b.mapParagraphs f).paragraphs = b.paragraphs.map f := by
  rw [paragraphs_eq_outline _ [], paragraphs_eq_outline _ [], outline_mapParagraphs,
    List.filterMap_map, List.map_filterMap]
  refine List.filterMap_congr fun ⟨node, _⟩ _ => ?_
  cases node <;> rfl

theorem paragraphsOf_mapParagraphs (f : Paragraph → Paragraph) (bs : List Block) :
    paragraphsOf (bs.map (mapParagraphs f)) = (paragraphsOf bs).map f := by
  rw [paragraphsOf, paragraphsOf, List.flatMap_map, List.map_flatMap]
  exact List.flatMap_congr fun b _ => b.paragraphs_mapParagraphs f

end Block

namespace Document

variable (doc : Document)

/-- The nodes of the document in reading order, with the cells around each. -/
def outline : List Placed :=
  Block.outlineOf doc.body []

theorem paragraphs_eq_outline : doc.paragraphs = doc.outline.filterMap Placed.paragraph? :=
  Block.paragraphsOf_eq_outline doc.body []

theorem outline_mapParagraphs (f : Paragraph → Paragraph) :
    (doc.mapParagraphs f).outline = doc.outline.map (Placed.mapParagraph f) :=
  Block.outlineOf_mapParagraphs f doc.body []

theorem paragraphs_mapParagraphs (f : Paragraph → Paragraph) :
    (doc.mapParagraphs f).paragraphs = doc.paragraphs.map f :=
  Block.paragraphsOf_mapParagraphs f doc.body

end Document

end DocTemplate
