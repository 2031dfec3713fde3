import DocTemplate.Directive.Handler
import DocTemplate.Document.Edit
import DocTemplate.Document.Numbering

/-!
# Filling tables

Tabular data fills the table that a comment covers, or else the one around it.
The second row of the table is the template for the records, and the first row
takes the headers; a table with a single row has no row for headers. Null
removes the table.

A cell is filled by a text in the style of its first paragraph and its first
run. Columns beyond the cells of the template are dropped, and cells without a
column are empty, unless the settings are strict about it.
-/

namespace DocTemplate

/-- The cell with a text for its content, in the style of what is there. -/
def Cell.filled (text : String) (c : Cell Block) : Cell Block :=
  let p := (c.content.findSome? Block.paragraph?).getD {}
  let style := (p.runs.head?.map Run.style).getD {}
  { c with content := [.paragraph { p with content := [.run (.ofText text style)] }] }

/-- The row with the first cells filled by headers. -/
def Row.headed (headers : List String) (row : Row Block) : Row Block :=
  { row with
    cells := (row.cells.zip headers).map (fun (cell, header) => cell.filled header) ++
      row.cells.drop headers.length }

/-- The row with all cells filled by a record, as far as there are columns. -/
def Row.recorded (columns : Nat) (record : List String) (row : Row Block) : Row Block :=
  { row with
    cells := row.cells.zipIdx.map fun (cell, i) =>
      cell.filled (((record.take columns)[i]?).getD "") }

/-- The rows of a table by the part they play when it is filled. -/
structure TableLayout where
  /-- The row for the headers. -/
  header : Option (Row Block)
  /-- The row that is copied for each record. -/
  template : Row Block
  /-- The rows that stay as they are. -/
  rest : List (Row Block)

namespace TableLayout

/-- The layout of some rows, unless there are none. -/
def ofRows? : List (Row Block) → Option TableLayout
  | [] => none
  | [template] => some ⟨none, template, []⟩
  | header :: template :: rest => some ⟨some header, template, rest⟩

/-- The rows for the records of some data. -/
def records (layout : TableLayout) (data : Grid) : List (Row Block) :=
  data.records.map fun record => layout.template.recorded data.headers.length record

/-- The rows of the filled table, given those for the records. -/
def rows (layout : TableLayout) (headers : List String) (records : List (Row Block)) :
    List (Row Block) :=
  (layout.header.map (Row.headed headers)).toList ++ records ++ layout.rest

end TableLayout

namespace TableFill

/-- The first record that does not fit the headers. -/
def misfit? (data : Grid) : Option (List String) :=
  data.records.find? fun record => record.length ≠ data.headers.length

/-- What an instruction asks to do with its table. -/
def accept (settings : Settings) (i : Instruction) : Except Error (Option Edit) :=
  match i.arg with
  | .table data =>
    match if settings.tableFit = .strict then misfit? data else none with
    | some record => .error (.badShape data.headers.length record.length)
    | none => .ok (some (.fillTable i data))
  | .null => .ok (some (.dropTable i))
  | _ => .error (i.badArgument "table")

/-- The table that a site is about: the first one in the region, or else the one
    around its paragraph. -/
def target? (doc : Document) (site : Site) : Option NodeId :=
  (site.region.blocks.find? fun id => (doc.table? id).isSome).or (site.cell.map CellPosition.table)

/-- The table that an instruction is about. There is none, and nothing to do, if
    its paragraph is gone. -/
def target (i : Instruction) : Revision (Option NodeId) := do
  let doc ← Revision.document
  match target? doc i.site with
  | some table => return some table
  | none =>
    if i.site.cell.isNone ∧ (doc.locate? i.site.paragraph).isNone then return none
    else throw (i.misplaced .noTable)

/-- The removal of a table that is still there. -/
def drop (table : NodeId) : Revision Unit := do
  if (← Revision.edit? fun doc => doc.removeBlock? table).isSome then
    Revision.count fun r => { r with tablesRemoved := r.tablesRemoved + 1 }

/-- The filling of a table with the given layout. -/
def fill (settings : Settings) (data : Grid) (table : NodeId) (layout : TableLayout) :
    Revision Unit := do
  let columns := data.headers.length
  let cells := layout.template.cells.length
  if settings.tableFit = .strict ∧ cells < columns then
    throw (.badShape columns cells)
  -- The rows for the records are copies of a numbered one.
  let records ← (layout.records data).mapM fun row => Revision.edit fun doc => doc.numberRow row
  let filled ← Revision.edit? fun doc => do
    let doc ← doc.modifyTable? table fun t => { t with rows := layout.rows data.headers records }
    return ((), doc)
  if filled.isSome then
    Revision.count fun r => { r with tablesFilled := r.tablesFilled + 1 }

/-- What one edit does with its table. -/
def perform (filler : Filler) : Edit → Revision Unit
  | .dropTable i => do
    if let some table ← target i then drop table
  | .fillTable i data => do
    if let some table ← target i then
      let found := (← Revision.document).table? table
      if let some layout := found.bind fun t => TableLayout.ofRows? t.rows then
        fill filler.settings data table layout
  | _ => pure ()

/-- All fillings and removals. -/
def commit (filler : Filler) (edits : List Edit) : Revision Unit :=
  edits.forM (perform filler)

end TableFill

/-- The handler of tables. -/
def Handler.table : Handler where
  signatures := [("resolveTable", 1)]
  accept := TableFill.accept
  commit := TableFill.commit

end DocTemplate
