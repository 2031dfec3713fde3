import DocTemplate.Document.Basic

/-!
# Walks

A walk visits the paragraphs of some blocks in reading order, and may change
each. It knows the cells around the paragraph, the innermost one first. What a
visit may do besides is up to the monad of the walk: keep a state, or stop with
an error.
-/

namespace DocTemplate

/-- A cell, by the numbers of its table and row and its place in the row. -/
structure CellPosition where
  table : NodeId
  row : NodeId
  cell : Nat
  deriving DecidableEq, Repr

variable {m : Type → Type} [Monad m]

/-- The table with every item of its cells changed, in reading order. -/
def Table.walk {α β : Type} (visit : CellPosition → α → m β) (t : Table α) : m (Table β) := do
  let rows ← t.rows.mapM fun row => do
    let cells ← row.cells.zipIdx.mapM fun (cell, i) => do
      let content ← cell.content.mapM (visit ⟨t.id, row.id, i⟩)
      return ⟨content, cell.gridSpan⟩
    return ⟨row.id, cells⟩
  return ⟨t.id, rows, t.styleId⟩

/-- The block after a visit to each of its paragraphs; `around` are the cells
    around the block. -/
def Block.walk (visit : List CellPosition → Paragraph → m Paragraph) :
    Block → (around : List CellPosition) → m Block :=
  fold (fun p around => return .paragraph (← visit around p)) fun t around =>
    return .table (← t.walk fun position step => step (position :: around))

/-- The blocks after a visit to each of their paragraphs. -/
def Block.walkAll (visit : List CellPosition → Paragraph → m Paragraph) (blocks : List Block) :
    m (List Block) :=
  blocks.mapM fun block => block.walk visit []

/-- The table with every item of its cells changed, in reading order, wherever it is. -/
def Table.mapM {α β : Type} (f : α → m β) (t : Table α) : m (Table β) := do
  let rows ← t.rows.mapM fun row => do
    let cells ← row.cells.mapM fun cell => do
      let content ← cell.content.mapM f
      return ⟨content, cell.gridSpan⟩
    return ⟨row.id, cells⟩
  return ⟨t.id, rows, t.styleId⟩

/-- The block after a change to each of its paragraphs, in reading order. -/
def Block.mapParagraphsM (f : Paragraph → m Paragraph) : Block → m Block :=
  fold (fun p => return .paragraph (← f p)) fun t => return .table (← t.mapM fun step => step)

/-- The document after a change to each paragraph of its body, in reading order. -/
def Document.mapParagraphsM (doc : Document) (f : Paragraph → m Paragraph) : m Document :=
  return { doc with body := ← doc.body.mapM (Block.mapParagraphsM f) }

end DocTemplate
