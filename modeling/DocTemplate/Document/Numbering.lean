import DocTemplate.Document.Basic

/-!
# Numbering

Nodes are numbered in reading order: a table before its rows, a row before what
its cells hold. The numbers continue from the last one given, which is the state
of the numbering.
-/

namespace DocTemplate

/-- A computation that gives numbers to nodes. -/
abbrev Numbering := StateM Nat

/-- The next number. -/
def Numbering.fresh : Numbering NodeId :=
  modifyGet fun last => (last + 1, last + 1)

section Layers

variable {α : Type}

/-- The row with a new number, its items being numbered in turn. -/
def Row.numbered (r : Row (Numbering α)) : Numbering (Row α) := do
  let id ← Numbering.fresh
  let cells ← r.cells.mapM fun cell => do
    let content ← cell.content.mapM fun item => item
    return ⟨content, cell.gridSpan⟩
  return ⟨id, cells⟩

/-- The table with new numbers, its items being numbered in turn. -/
def Table.numbered (t : Table (Numbering α)) : Numbering (Table α) := do
  let id ← Numbering.fresh
  let rows ← t.rows.mapM Row.numbered
  return ⟨id, rows, t.styleId⟩

end Layers

/-- The block with new numbers. -/
def Block.numbered : Block → Numbering Block :=
  fold (fun p => return .paragraph { p with id := ← Numbering.fresh })
    fun t => return .table (← t.numbered)

namespace Document

variable (doc : Document)

/-- The outcome of a numbering that continues the document's. -/
def number {α : Type} (n : Numbering α) : α × Document :=
  let (a, last) := n.run doc.lastId
  (a, { doc with lastId := last })

/-- Some blocks with new numbers. -/
def numberBlocks (blocks : List Block) : List Block × Document :=
  doc.number (blocks.mapM Block.numbered)

/-- A row with new numbers. -/
def numberRow (row : Row Block) : Row Block × Document :=
  doc.number (row.map Block.numbered).numbered

/-- The document with all its nodes numbered again, from 1. -/
def assignIds : Document :=
  let (body, doc) := { doc with lastId := 0 }.numberBlocks doc.body
  { doc with body }

/-- The document with a block at the end of its body. -/
def addBlock (block : Block) : Document :=
  let (blocks, doc) := doc.numberBlocks [block]
  { doc with body := doc.body ++ blocks }

/-- The document with another comment. -/
def addComment (c : Comment) : Document :=
  { doc with comments := doc.comments ++ [c] }

end Document

end DocTemplate
