import DocTemplate.Document.Basic

/-!
# Paths

The place of a block is a path of indices: its place in the body, or else, for
each table it is in, the place of that table, the row and the cell, and at last
its place in the innermost cell. So the length of a path is one more than a
multiple of three. A path without its last index names the *container* of the
block, a list of blocks.

A node is found by its number (`Document.locate?`, `Document.locateRow?`), the
first one in reading order if there are several.
-/

namespace DocTemplate

/-- The place of a block. -/
abbrev Path := List Nat

namespace Block

/-- The place of the node numbered `id` within a block: an empty path if it is the
    block itself. -/
def find? (id : NodeId) : Block → Option Path :=
  fold (fun p => if p.id = id then some [] else none) fun t =>
    if t.id = id then some []
    else t.indexed.findSome? fun ((r, c, b), found) => found.map (r :: c :: b :: ·)

/-- The place of the table with the row numbered `id` within a block, and the
    place of the row in it. -/
def findRow? (id : NodeId) : Block → Option (Path × Nat) :=
  fold (fun _ => none) fun t =>
    match t.rows.findIdx? fun row => row.id = id with
    | some i => some ([], i)
    | none => t.indexed.findSome? fun ((r, c, b), found) =>
        found.map fun (path, i) => (r :: c :: b :: path, i)

/-- The paragraphs of a block in reading order, each with its place in it. -/
def placedParagraphs : Block → List (Path × Paragraph) :=
  fold (fun p => [([], p)]) fun t =>
    t.indexed.flatMap fun ((r, c, b), inner) =>
      inner.map fun (path, p) => (r :: c :: b :: path, p)

/-- The container at a path without its last index. -/
def container? : List Block → Path → Option (List Block)
  | blocks, [] => some blocks
  | blocks, b :: r :: c :: path =>
    match blocks[b]? with
    | some (.table t) =>
      (t.rows[r]?).bind fun row => (row.cells[c]?).bind fun cell => container? cell.content path
    | _ => none
  | _, _ => none

/-- The blocks with one container changed. -/
def modifyContainer? (f : List Block → List Block) : List Block → Path → Option (List Block)
  | blocks, [] => some (f blocks)
  | blocks, b :: r :: c :: path =>
    match blocks[b]? with
    | some (.table t) =>
      (t.rows[r]?).bind fun row => (row.cells[c]?).bind fun cell =>
        (modifyContainer? f cell.content path).map fun content =>
          let row := { row with cells := row.cells.set c { cell with content } }
          blocks.set b (.table { t with rows := t.rows.set r row })
    | _ => none
  | _, _ => none

end Block

namespace Document

variable (doc : Document)

/-- The place of a paragraph or a table. -/
def locate? (id : NodeId) : Option Path :=
  doc.body.zipIdx.findSome? fun (block, i) => (block.find? id).map (i :: ·)

/-- The place of the table of a row, and the place of the row in it. -/
def locateRow? (id : NodeId) : Option (Path × Nat) :=
  doc.body.zipIdx.findSome? fun (block, i) =>
    (block.findRow? id).map fun (path, r) => (i :: path, r)

/-- The paragraphs of the body in reading order, each with its place. -/
def placedParagraphs : List (Path × Paragraph) :=
  doc.body.zipIdx.flatMap fun (block, i) =>
    block.placedParagraphs.map fun (path, p) => (i :: path, p)

/-- The container with the given path. -/
def container? (path : Path) : Option (List Block) :=
  Block.container? doc.body path

/-- The container of the block at a path. -/
def siblings? (path : Path) : Option (List Block) :=
  if path.isEmpty then none else doc.container? path.dropLast

/-- The block at a path. -/
def block? (path : Path) : Option Block :=
  path.getLast?.bind fun i => (doc.siblings? path).bind fun blocks => blocks[i]?

/-- The paragraph or the table with a number. -/
def node? (id : NodeId) : Option Block :=
  (doc.locate? id).bind doc.block?

/-- The paragraph with a number. -/
def paragraph? (id : NodeId) : Option Paragraph :=
  (doc.node? id).bind Block.paragraph?

/-- The table with a number. -/
def table? (id : NodeId) : Option (Table Block) :=
  (doc.node? id).bind Block.table?

end Document

end DocTemplate
