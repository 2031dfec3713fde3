import DocTemplate.Json.Record

/-!
# Reports

What happened while a document was filled, counted.
-/

namespace DocTemplate

/-- The counts. -/
structure Report where
  /-- Placeholders replaced by the value of their expression. -/
  expressionsResolved : UInt32 := 0
  /-- Placeholders whose expression has no value. -/
  expressionsRecovered : UInt32 := 0
  /-- Directives handed to their handlers. -/
  directivesApplied : UInt32 := 0
  /-- Comments left alone. -/
  directivesSkipped : UInt32 := 0
  paragraphsRemoved : UInt32 := 0
  rowsRemoved : UInt32 := 0
  tablesRemoved : UInt32 := 0
  /-- Blocks made by repetition. -/
  blocksRepeated : UInt32 := 0
  wordsReplaced : UInt32 := 0
  tablesFilled : UInt32 := 0
  /-- Runs merged into the one before. -/
  runsMerged : UInt32 := 0
  notesRemoved : UInt32 := 0
  deriving DecidableEq, Repr, Inhabited

namespace Report

/-- The counts in order, as a list of a known length. -/
def counts (r : Report) : List UInt32 :=
  [r.expressionsResolved, r.expressionsRecovered, r.directivesApplied, r.directivesSkipped,
    r.paragraphsRemoved, r.rowsRemoved, r.tablesRemoved, r.blocksRepeated, r.wordsReplaced,
    r.tablesFilled, r.runsMerged, r.notesRemoved]

/-- The report of twelve counts. -/
def ofCounts? : List UInt32 → Option Report
  | [a, b, c, d, e, f, g, h, i, j, k, l] => some ⟨a, b, c, d, e, f, g, h, i, j, k, l⟩
  | _ => none

/-- The names of the counts, in their order. -/
def countNames : List String :=
  ["expressions_resolved", "expressions_recovered", "directives_applied", "directives_skipped",
    "paragraphs_removed", "rows_removed", "tables_removed", "blocks_repeated", "words_replaced",
    "tables_filled", "runs_merged", "notes_removed"]

variable (r : Report)

/-- The report with some more placeholders. -/
def addExpressions (resolved recovered : UInt32) : Report :=
  { r with
    expressionsResolved := r.expressionsResolved + resolved
    expressionsRecovered := r.expressionsRecovered + recovered }

/-- The number of paragraphs, rows and tables removed. -/
def removals : UInt32 :=
  r.paragraphsRemoved + r.rowsRemoved + r.tablesRemoved

/-- The sums of the counts of two reports. -/
def merge (other : Report) : Report :=
  { expressionsResolved := r.expressionsResolved + other.expressionsResolved
    expressionsRecovered := r.expressionsRecovered + other.expressionsRecovered
    directivesApplied := r.directivesApplied + other.directivesApplied
    directivesSkipped := r.directivesSkipped + other.directivesSkipped
    paragraphsRemoved := r.paragraphsRemoved + other.paragraphsRemoved
    rowsRemoved := r.rowsRemoved + other.rowsRemoved
    tablesRemoved := r.tablesRemoved + other.tablesRemoved
    blocksRepeated := r.blocksRepeated + other.blocksRepeated
    wordsReplaced := r.wordsReplaced + other.wordsReplaced
    tablesFilled := r.tablesFilled + other.tablesFilled
    runsMerged := r.runsMerged + other.runsMerged
    notesRemoved := r.notesRemoved + other.notesRemoved }

/-- The report as JSON. -/
def toJson : Json :=
  .obj (countNames.zip (r.counts.map fun n => .int n.toNat))

/-- The report from JSON. -/
def ofJson? (j : Json) : Option Report := do
  let fields ← Json.fields? countNames j
  let counts ← fields.mapM (Json.required? Json.uint32?)
  ofCounts? counts

end Report

end DocTemplate
