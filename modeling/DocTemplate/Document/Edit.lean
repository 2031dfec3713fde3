import DocTemplate.Document.Path

/-!
# Edits by number

Nodes are changed, removed and replaced by their numbers. An edit of a node that
is no longer there is not made (`none`), so an edit planned earlier may be tried
at any time.
-/

namespace DocTemplate

namespace Document

variable (doc : Document)

/-- The document with the container of the block at a path changed. -/
def modifySiblings? (path : Path) (f : Nat → List Block → List Block) : Option Document :=
  path.getLast?.bind fun i =>
    (Block.modifyContainer? (f i) doc.body path.dropLast).map fun body => { doc with body }

/-- The document with the block at a path changed. -/
def modifyBlock? (path : Path) (f : Block → Block) : Option Document :=
  doc.modifySiblings? path fun i blocks => blocks.modify i f

/-- The document with the paragraph of a number changed. -/
def modifyParagraph? (id : NodeId) (f : Paragraph → Paragraph) : Option Document :=
  (doc.locate? id).bind fun path => ((doc.block? path).bind Block.paragraph?).bind fun p =>
    doc.modifyBlock? path fun _ => .paragraph (f p)

/-- The document with the table of a number changed. -/
def modifyTable? (id : NodeId) (f : Table Block → Table Block) : Option Document :=
  (doc.locate? id).bind fun path => ((doc.block? path).bind Block.table?).bind fun t =>
    doc.modifyBlock? path fun _ => .table (f t)

/-- The paragraph or the table with a number, and the document without it. -/
def removeBlock? (id : NodeId) : Option (Block × Document) :=
  (doc.locate? id).bind fun path => (doc.block? path).bind fun removed =>
    (doc.modifySiblings? path fun i blocks => blocks.eraseIdx i).map fun doc => (removed, doc)

/-- The row with a number, and the document without it. -/
def removeRow? (id : NodeId) : Option (Row Block × Document) :=
  (doc.locateRow? id).bind fun (path, i) =>
    ((doc.block? path).bind Block.table?).bind fun t => (t.rows[i]?).bind fun removed =>
      (doc.modifyBlock? path fun _ => .table { t with rows := t.rows.eraseIdx i }).map
        fun doc => (removed, doc)

/-- The blocks with the given numbers, if they are neighbours in this order, and
    the document with others in their place. -/
def replaceBlocks? (ids : List NodeId) (replacement : List Block) :
    Option (List Block × Document) :=
  ids.head?.bind fun first => (doc.locate? first).bind fun path =>
    path.getLast?.bind fun start => (doc.siblings? path).bind fun siblings =>
      let removed := (siblings.drop start).take ids.length
      if removed.map Block.id = ids then
        (doc.modifySiblings? path fun _ blocks =>
          blocks.take start ++ replacement ++ blocks.drop (start + ids.length)).map
            fun doc => (removed, doc)
      else
        none

end Document

end DocTemplate
