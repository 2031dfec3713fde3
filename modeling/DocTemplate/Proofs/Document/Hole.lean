import DocTemplate.Proofs.Document.Place

/-!
# Holes

Take the content of one cell out of a tree of blocks, at any depth, and what is left is a
*hole*: level by level, the table with the cell, what the table has beside the cell, and the
blocks beside the table. No level at all is the hole that the whole body fills. A hole says of
a container where it is, and all that is not in it. So an edit that changes one place of a
document is one that fills the same hole with something else.

* `Hole.container?_fill`, `Hole.modifyContainer?_fill`: the path of a hole leads to what it is
  filled with, and a change there fills it anew;
* `Block.exists_hole`: every container fills a hole;
* `Document.block?_eq_some_iff`: the block at a path is one among those that fill a hole.
-/

namespace DocTemplate

/-- A table around a hole: what it has beside the cell with the hole, and the blocks beside it. -/
structure Level where
  before : List Block
  table : NodeId
  styleId : Option String
  above : List (Row Block)
  row : NodeId
  left : List (Cell Block)
  gridSpan : UInt8
  right : List (Cell Block)
  below : List (Row Block)
  after : List Block

namespace Level

variable (l : Level) (content : List Block)

/-- The row of the hole, with the hole filled. -/
def rowOf : Row Block where
  id := l.row
  cells := l.left ++ { content, gridSpan := l.gridSpan } :: l.right

/-- The table with the hole filled. -/
def tableOf : Table Block where
  id := l.table
  rows := l.above ++ l.rowOf content :: l.below
  styleId := l.styleId

/-- The blocks with the hole filled. -/
def fill : List Block :=
  l.before ++ .table (l.tableOf content) :: l.after

/-- The place of the table, of the row and of the cell. -/
def path : Path :=
  [l.before.length, l.above.length, l.left.length]

/-- The cell of the hole. -/
def position : CellPosition :=
  ⟨l.table, l.row, l.left.length⟩

theorem getElem?_fill : (l.fill content)[l.before.length]? = some (.table (l.tableOf content)) := by
  simp [fill]

theorem getElem?_rows : (l.tableOf content).rows[l.above.length]? = some (l.rowOf content) := by
  simp [tableOf]

theorem getElem?_cells : (l.rowOf content).cells[l.left.length]? =
    some { content, gridSpan := l.gridSpan } := by
  simp [rowOf]

/-- A cell at any place in some blocks is a hole that its content fills. -/
theorem exists_eq_fill {blocks : List Block} {b r c : Nat} {t : Table Block} {row : Row Block}
    {cell : Cell Block} (hb : blocks[b]? = some (.table t)) (hr : t.rows[r]? = some row)
    (hc : row.cells[c]? = some cell) :
    ∃ l : Level, l.path = [b, r, c] ∧ l.fill cell.content = blocks := by
  obtain ⟨id, rows, styleId⟩ := t
  obtain ⟨rowId, cells⟩ := row
  obtain ⟨before, after, rfl, rfl⟩ := exists_append_of_getElem? hb
  obtain ⟨above, below, rfl, rfl⟩ := exists_append_of_getElem? hr
  obtain ⟨left, right, rfl, rfl⟩ := exists_append_of_getElem? hc
  exact ⟨⟨before, id, styleId, above, rowId, left, cell.gridSpan, right, below, after⟩, rfl, rfl⟩

end Level

/-- A place for a list of blocks in a tree of blocks: the levels around it, the outermost one
    first. -/
abbrev Hole := List Level

namespace Hole

/-- The blocks with the hole filled. -/
def fill (hole : Hole) (content : List Block) : List Block :=
  hole.foldr Level.fill content

/-- The path of what fills the hole. -/
def path (hole : Hole) : Path :=
  hole.flatMap Level.path

variable (hole : Hole) (l : Level) (xs : List Block)

@[simp] theorem fill_nil : fill [] xs = xs := rfl

@[simp] theorem fill_cons : fill (l :: hole) xs = l.fill (hole.fill xs) := rfl

@[simp] theorem path_nil : path [] = [] := rfl

@[simp] theorem path_cons : path (l :: hole) = l.path ++ hole.path := by
  simp [path]

/-- A path that goes on behind that of the hole leads into what fills the hole. -/
theorem container?_fill_append (path : Path) :
    Block.container? (hole.fill xs) (hole.path ++ path) = Block.container? xs path := by
  induction hole with
  | nil => rfl
  | cons l hole ih =>
    rw [fill_cons, path_cons, Level.path]
    simp only [List.cons_append, List.nil_append, Block.container?, Level.getElem?_fill,
      Level.getElem?_rows, Level.getElem?_cells, Option.bind_some]
    exact ih

theorem container?_fill : Block.container? (hole.fill xs) hole.path = some xs := by
  simpa [Block.container?] using hole.container?_fill_append xs []

/-- A change of what fills the hole leaves all else as it is. -/
theorem modifyContainer?_fill (f : List Block → List Block) :
    Block.modifyContainer? f (hole.fill xs) hole.path = some (hole.fill (f xs)) := by
  induction hole with
  | nil => rfl
  | cons l hole ih =>
    rw [fill_cons, path_cons, Level.path]
    simp only [List.cons_append, List.nil_append, Block.modifyContainer?, Level.getElem?_fill,
      Level.getElem?_rows, Level.getElem?_cells, Option.bind_some, ih, Option.map_some]
    simp [Level.fill, Level.tableOf, Level.rowOf]

/-- A hole in the content of a cell is one in the blocks with the table of the cell. -/
theorem exists_outer {blocks : List Block} {b r c : Nat} {t : Table Block} {row : Row Block}
    {cell : Cell Block} (hb : blocks[b]? = some (.table t)) (hr : t.rows[r]? = some row)
    (hc : row.cells[c]? = some cell) (hfill : hole.fill xs = cell.content) :
    ∃ outer : Hole, outer.path = b :: r :: c :: hole.path ∧ outer.fill xs = blocks := by
  obtain ⟨l, hpath, hblocks⟩ := Level.exists_eq_fill hb hr hc
  refine ⟨l :: hole, ?_, ?_⟩
  · rw [path_cons, hpath]
    rfl
  · rw [fill_cons, hfill, hblocks]

end Hole

/-- Every container fills a hole, that of its path. -/
theorem Block.exists_hole {blocks xs : List Block} {path : Path}
    (h : container? blocks path = some xs) :
    ∃ hole : Hole, hole.path = path ∧ hole.fill xs = blocks := by
  fun_induction container? blocks path with
  | case1 blocks =>
    obtain rfl := Option.some.inj h
    exact ⟨[], rfl, rfl⟩
  | case2 blocks b r c path t hb ih =>
    obtain ⟨row, hr, h⟩ := Option.bind_eq_some_iff.1 h
    obtain ⟨cell, hc, h⟩ := Option.bind_eq_some_iff.1 h
    obtain ⟨hole, rfl, hfill⟩ := ih cell h
    exact hole.exists_outer xs hb hr hc hfill
  | case3 => cases h
  | case4 => cases h

namespace Document

variable {doc : Document} {path : Path} {b : Block}

/-- A block among those that fill a hole is at the path of the hole and its own place. -/
theorem isAt_fill {hole : Hole} {before after : List Block}
    (h : doc.body = hole.fill (before ++ b :: after)) :
    doc.IsAt (hole.path ++ [before.length]) (before ++ b :: after) before.length b where
  last := by simp
  container := by rw [List.dropLast_concat, container?, h, hole.container?_fill]
  block := by simp

/-- A block at a path is one among those that fill the hole of its container. -/
theorem IsAt.exists_hole {xs : List Block} {k : Nat} (h : doc.IsAt path xs k b) :
    ∃ (hole : Hole) (before after : List Block), path = hole.path ++ [before.length] ∧
      k = before.length ∧ xs = before ++ b :: after ∧
        doc.body = hole.fill (before ++ b :: after) := by
  obtain ⟨hole, hpath, hfill⟩ := Block.exists_hole h.container
  obtain ⟨before, after, rfl, rfl⟩ := exists_append_of_getElem? h.block
  refine ⟨hole, before, after, ?_, rfl, rfl, hfill.symm⟩
  rw [hpath]
  exact (List.dropLast_append_getLast? _ h.last).symm

theorem exists_isAt_of_block? (h : doc.block? path = some b) : ∃ xs k, doc.IsAt path xs k b := by
  obtain ⟨k, hlast, h⟩ := Option.bind_eq_some_iff.1 h
  obtain ⟨xs, hxs, hk⟩ := Option.bind_eq_some_iff.1 h
  rw [siblings?, Option.ite_none_left_eq_some] at hxs
  exact ⟨xs, k, hlast, hxs.2, hk⟩

/-- The block at a path is one among those that fill a hole, behind as many as the last index
    says. -/
theorem block?_eq_some_iff : doc.block? path = some b ↔
    ∃ (hole : Hole) (before after : List Block), path = hole.path ++ [before.length] ∧
      doc.body = hole.fill (before ++ b :: after) := by
  constructor
  · intro h
    obtain ⟨xs, k, hat⟩ := exists_isAt_of_block? h
    obtain ⟨hole, before, after, hpath, -, -, hbody⟩ := hat.exists_hole
    exact ⟨hole, before, after, hpath, hbody⟩
  · rintro ⟨hole, before, after, rfl, hbody⟩
    exact (isAt_fill hbody).block?

end Document

end DocTemplate
