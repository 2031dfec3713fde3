import DocTemplate.Document.Paragraph

/-!
# Blocks and tables

The body of a document is a list of *blocks*: paragraphs, and tables whose cells
hold lists of blocks again. A table is a structure over whatever its cells hold,
`Table α`; the blocks are what closes the loop, `Block.table : Table Block →
Block`.

What is computed from a tree of blocks is a *fold*: `Block.fold p k` says what a
paragraph contributes, and what a table does given the contributions of the
blocks in its cells.

* `Block.fold_table`: the equation of a fold at a table;
* `Block.induction`: a property of blocks holds if it holds of paragraphs, and of
  every table whose blocks have it.
-/

namespace DocTemplate

/-- A cell of a table. -/
structure Cell (α : Type) where
  /-- The content, in reading order. -/
  content : List α
  /-- The number of columns of the grid it covers. -/
  gridSpan : UInt8 := 1
  deriving Repr

/-- A row of a table. -/
structure Row (α : Type) where
  /-- The identity within the document. -/
  id : NodeId := 0
  /-- The cells, from the first column on. -/
  cells : List (Cell α)
  deriving Repr

/-- A table. -/
structure Table (α : Type) where
  /-- The identity within the document. -/
  id : NodeId := 0
  /-- The rows, from the top. -/
  rows : List (Row α) := []
  /-- The named style it is based on. -/
  styleId : Option String := none
  deriving Repr

/-- A block of a document or of a cell. -/
inductive Block where
  | paragraph (p : Paragraph)
  | table (t : Table Block)

/-- A paragraph without content. -/
instance : Inhabited Block := ⟨.paragraph {}⟩

section Layers

variable {α β : Type}

/-- The cell with every item of its content changed. -/
def Cell.map (f : α → β) (c : Cell α) : Cell β :=
  { c with content := c.content.map f }

/-- The row with every item of its cells changed. -/
def Row.map (f : α → β) (r : Row α) : Row β :=
  { r with cells := r.cells.map (Cell.map f) }

/-- The table with every item of its cells changed. -/
def Table.map (f : α → β) (t : Table α) : Table β :=
  { t with rows := t.rows.map (Row.map f) }

/-- The items of the cells, in reading order. -/
def Row.items (r : Row α) : List α :=
  r.cells.flatMap Cell.content

/-- The items of the cells, in reading order. -/
def Table.items (t : Table α) : List α :=
  t.rows.flatMap Row.items

/-- The items of the cells in reading order, each with its row, its cell and its
    place in the cell. -/
def Table.indexed (t : Table α) : List ((Nat × Nat × Nat) × α) :=
  t.rows.zipIdx.flatMap fun (row, r) =>
    row.cells.zipIdx.flatMap fun (cell, c) =>
      cell.content.zipIdx.map fun (item, b) => ((r, c, b), item)

/-- The number of rows. -/
def Table.rowCount (t : Table α) : Nat :=
  t.rows.length

/-- The number of cells of the first row. -/
def Table.columnCount (t : Table α) : Nat :=
  (t.rows.head?.map fun row => row.cells.length).getD 0

end Layers

namespace Block

section Fold

variable {α : Type} (p : Paragraph → α) (k : Table α → α)

mutual

/-- The contribution of a block, from those of its paragraphs and tables. -/
def fold : Block → α
  | .paragraph x => p x
  | .table t => k (foldTable t)

/-- The contributions of the blocks in the cells of a table. -/
def foldTable : Table Block → Table α
  | ⟨id, rows, styleId⟩ => ⟨id, foldRows rows, styleId⟩

/-- The contributions of the blocks in some rows. -/
def foldRows : List (Row Block) → List (Row α)
  | [] => []
  | r :: rs => foldRow r :: foldRows rs

/-- The contributions of the blocks in a row. -/
def foldRow : Row Block → Row α
  | ⟨id, cells⟩ => ⟨id, foldCells cells⟩

/-- The contributions of the blocks in some cells. -/
def foldCells : List (Cell Block) → List (Cell α)
  | [] => []
  | c :: cs => foldCell c :: foldCells cs

/-- The contributions of the blocks in a cell. -/
def foldCell : Cell Block → Cell α
  | ⟨content, gridSpan⟩ => ⟨foldContent content, gridSpan⟩

/-- The contributions of some blocks. -/
def foldContent : List Block → List α
  | [] => []
  | b :: bs => fold b :: foldContent bs

end

theorem foldContent_eq_map (bs : List Block) : foldContent p k bs = bs.map (fold p k) := by
  induction bs with
  | nil => rfl
  | cons b bs ih => simp [foldContent, ih]

theorem foldCells_eq_map (cs : List (Cell Block)) :
    foldCells p k cs = cs.map (Cell.map (fold p k)) := by
  induction cs with
  | nil => rfl
  | cons c cs ih => cases c; simp [foldCells, foldCell, Cell.map, foldContent_eq_map, ih]

theorem foldRows_eq_map (rs : List (Row Block)) :
    foldRows p k rs = rs.map (Row.map (fold p k)) := by
  induction rs with
  | nil => rfl
  | cons r rs ih => cases r; simp [foldRows, foldRow, Row.map, foldCells_eq_map, ih]

@[simp] theorem fold_paragraph (x : Paragraph) : fold p k (.paragraph x) = p x := by
  simp [fold]

@[simp] theorem fold_table (t : Table Block) : fold p k (.table t) = k (t.map (fold p k)) := by
  cases t; simp [fold, foldTable, Table.map, foldRows_eq_map]

end Fold

/-- A property of blocks holds if it holds of paragraphs, and of every table
    whose blocks have it. -/
@[elab_as_elim]
theorem induction {motive : Block → Prop} (paragraph : ∀ p, motive (.paragraph p))
    (table : ∀ t : Table Block, (∀ b ∈ t.items, motive b) → motive (.table t)) (b : Block) :
    motive b := by
  refine Block.rec (motive_1 := motive) (motive_2 := fun t => ∀ b ∈ t.items, motive b)
    (motive_3 := fun rows => ∀ row ∈ rows, ∀ b ∈ row.items, motive b)
    (motive_4 := fun row => ∀ b ∈ row.items, motive b)
    (motive_5 := fun cells => ∀ cell ∈ cells, ∀ b ∈ cell.content, motive b)
    (motive_6 := fun cell => ∀ b ∈ cell.content, motive b)
    (motive_7 := fun content => ∀ b ∈ content, motive b) ?_ ?_ ?_ ?_ ?_ ?_ ?_ ?_ ?_ ?_ ?_ b
  all_goals simp_all [Table.items, Row.items]
  all_goals grind

/-- The identity of the paragraph or the table. -/
def id : Block → NodeId
  | paragraph p => p.id
  | table t => t.id

/-- The paragraph, of a paragraph. -/
def paragraph? : Block → Option Paragraph
  | paragraph p => some p
  | table _ => none

/-- The table, of a table. -/
def table? : Block → Option (Table Block)
  | paragraph _ => none
  | table t => some t

/-- The text: cells of a row are separated by a tab, rows by a new line, and
    the blocks of a cell by a blank. -/
def text : Block → String :=
  fold Paragraph.text fun t =>
    "\n".intercalate <| t.rows.map fun row =>
      "\t".intercalate <| row.cells.map fun cell => " ".intercalate cell.content

/-- The paragraphs of the block, in reading order. -/
def paragraphs : Block → List Paragraph :=
  fold (fun p => [p]) fun t => t.items.flatten

/-- The block with every paragraph changed. -/
def mapParagraphs (f : Paragraph → Paragraph) : Block → Block :=
  fold (fun p => paragraph (f p)) table

end Block

/-- The text of the cell. -/
def Cell.text (c : Cell Block) : String :=
  " ".intercalate (c.content.map Block.text)

/-- The text of the row. -/
def Row.text (r : Row Block) : String :=
  "\t".intercalate (r.cells.map Cell.text)

/-- The text of the table. -/
def Table.text (t : Table Block) : String :=
  "\n".intercalate (t.rows.map Row.text)

/-- Whether the text of the cell is blank. -/
def Cell.isBlank (c : Cell Block) : Bool :=
  Text.isBlank c.text

/-- A cell of one paragraph. -/
def Cell.ofParagraph (p : Paragraph) : Cell Block :=
  { content := [.paragraph p] }

/-- A cell of one text. -/
def Cell.ofText (s : String) : Cell Block :=
  .ofParagraph (.ofText s)

/-- A row with one cell for each text. -/
def Row.ofTexts (texts : List String) : Row Block :=
  { cells := texts.map Cell.ofText }

/-- The paragraphs of some blocks, in reading order. -/
def Block.paragraphsOf (blocks : List Block) : List Paragraph :=
  blocks.flatMap Block.paragraphs

end DocTemplate
