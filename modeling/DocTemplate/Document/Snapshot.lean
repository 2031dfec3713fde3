import DocTemplate.Document.Numbering
import DocTemplate.Error
import DocTemplate.Json.Reader
import DocTemplate.Json.Record
import DocTemplate.Json.Writer

/-!
# Snapshots

A document as JSON. Every field of every part is written, in a fixed order,
optional ones as null; numbers of nodes are not. In the other direction
`Document.ofText` reads a snapshot and numbers its nodes.

For each part `toJson` writes it and `ofJson?` reads it. A block is held before
it is read, since its shape may be given after its fields; what is not in a
block is read directly.
-/

namespace DocTemplate

open Json

/-- A natural number that may be missing. -/
def Json.ofUInt32? : Option UInt32 → Json
  | none => .null
  | some n => .int n.toNat

/-- A choice with its content. -/
def Json.ofChoice (name : String) (content : Json) : Json :=
  .obj [("type", .str name), ("value", content)]

namespace RunStyle

/-- The style as JSON. -/
def toJson (s : RunStyle) : Json :=
  .obj [("style_id", ofString? s.styleId), ("bold", .bool s.bold), ("italic", .bool s.italic),
    ("underline", .bool s.underline), ("strikethrough", .bool s.strikethrough),
    ("vertical_align", .str s.verticalAlign.name), ("font_name", ofString? s.fontName),
    ("font_size", ofUInt32? s.fontSize), ("color", ofString? s.color),
    ("highlight", ofString? s.highlight), ("lang", ofString? s.lang)]

/-- The style from JSON. -/
def ofJson? (access : Access) (j : Json) : Option RunStyle := do
  let [styleId, bold, italic, underline, strikethrough, verticalAlign, fontName, fontSize, color,
      highlight, lang] ← fields? ["style_id", "bold", "italic", "underline", "strikethrough",
        "vertical_align", "font_name", "font_size", "color", "highlight", "lang"] j | none
  return {
    styleId := ← option? str? styleId
    bold := ← required? bool? bold
    italic := ← required? bool? italic
    underline := ← required? bool? underline
    strikethrough := ← required? bool? strikethrough
    verticalAlign := ← required? (oneOf? access VerticalAlign.all VerticalAlign.name) verticalAlign
    fontName := ← option? str? fontName
    fontSize := ← option? uint32? fontSize
    color := ← option? str? color
    highlight := ← option? str? highlight
    lang := ← option? str? lang }

end RunStyle

namespace SectionLayout

/-- The layout as JSON. -/
def toJson (s : SectionLayout) : Json :=
  .obj [("break_type", .str s.start.name), ("page_width", ofUInt32? s.pageWidth),
    ("page_height", ofUInt32? s.pageHeight), ("orientation", .str s.orientation.name),
    ("columns", .int s.columns.toNat)]

/-- The layout from JSON. -/
def ofJson? (access : Access) (j : Json) : Option SectionLayout := do
  let [start, pageWidth, pageHeight, orientation, columns] ←
    fields? ["break_type", "page_width", "page_height", "orientation", "columns"] j | none
  return {
    start := ← required? (oneOf? access SectionStart.all SectionStart.name) start
    pageWidth := ← option? uint32? pageWidth
    pageHeight := ← option? uint32? pageHeight
    orientation := ← required? (oneOf? access Orientation.all Orientation.name) orientation
    columns := ← required? uint8? columns }

/-- An optional layout as JSON. -/
def toJson? : Option SectionLayout → Json
  | none => .null
  | some s => s.toJson

end SectionLayout

namespace ParagraphStyle

/-- The style as JSON. -/
def toJson (s : ParagraphStyle) : Json :=
  .obj [("style_id", ofString? s.styleId), ("alignment", .str s.alignment.name),
    ("mark_style", s.markStyle.toJson), ("section_break", SectionLayout.toJson? s.sectionBreak)]

/-- The style from JSON. -/
def ofJson? (access : Access) (j : Json) : Option ParagraphStyle := do
  let [styleId, alignment, markStyle, sectionBreak] ←
    fields? ["style_id", "alignment", "mark_style", "section_break"] j | none
  return {
    styleId := ← option? str? styleId
    alignment := ← required? (oneOf? access Alignment.all Alignment.name) alignment
    markStyle := ← required? (RunStyle.ofJson? access) markStyle
    sectionBreak := ← option? (SectionLayout.ofJson? access) sectionBreak }

end ParagraphStyle

namespace RunItem

/-- The item as JSON. -/
def toJson : RunItem → Json
  | text s => ofChoice "text" (.str s)
  | lineBreak => .obj [("type", .str "line_break")]
  | tab => .obj [("type", .str "tab")]
  | footnote id => ofChoice "footnote_reference" (.int id.toInt)
  | endnote id => ofChoice "endnote_reference" (.int id.toInt)

/-- The names of the kinds of items. -/
def names : List String :=
  ["text", "line_break", "tab", "footnote_reference", "endnote_reference"]

/-- The item from JSON. -/
def ofJson? (access : Access) (j : Json) : Option RunItem := do
  let (name, _, content) ← choice? access names "type" "value" j
  match name, content with
  | "text", content => (required? str? content).map text
  | "line_break", none | "line_break", some .null => some lineBreak
  | "tab", none | "tab", some .null => some tab
  | "footnote_reference", content => (required? int64? content).map footnote
  | "endnote_reference", content => (required? int64? content).map endnote
  | _, _ => none

end RunItem

namespace Run

/-- The run as JSON. -/
def toJson (r : Run) : Json :=
  .obj [("content", .arr (r.content.map RunItem.toJson)), ("style", r.style.toJson)]

/-- The run from JSON. -/
def ofJson? (access : Access) (j : Json) : Option Run := do
  let [content, style] ← fields? ["content", "style"] j | none
  return {
    content := ← required? (list? (RunItem.ofJson? access)) content
    style := ← required? (RunStyle.ofJson? access) style }

end Run

namespace Inline

/-- The item as JSON. -/
def toJson : Inline → Json
  | run r => ofChoice "run" r.toJson
  | rangeStart id => ofChoice "comment_range_start" (.int id.toNat)
  | rangeEnd id => ofChoice "comment_range_end" (.int id.toNat)
  | reference id => ofChoice "comment_reference" (.int id.toNat)
  | proof mark => ofChoice "proof_error" (.str mark.name)

/-- The names of the kinds of items. -/
def names : List String :=
  ["run", "comment_range_start", "comment_range_end", "comment_reference", "proof_error"]

/-- The item from JSON. -/
def ofJson? (access : Access) (j : Json) : Option Inline := do
  let (name, access, content) ← choice? access names "type" "value" j
  match name with
  | "run" => (required? (Run.ofJson? access) content).map run
  | "comment_range_start" => (required? uint64? content).map rangeStart
  | "comment_range_end" => (required? uint64? content).map rangeEnd
  | "comment_reference" => (required? uint64? content).map reference
  | "proof_error" => (required? (oneOf? access ProofMark.all ProofMark.name) content).map proof
  | _ => none

end Inline

namespace Paragraph

/-- The members of a paragraph. -/
def members (p : Paragraph) : List (String × Json) :=
  [("content", .arr (p.content.map Inline.toJson)), ("style", p.style.toJson)]

/-- The paragraph as JSON. -/
def toJson (p : Paragraph) : Json :=
  .obj p.members

/-- The paragraph from JSON. -/
def ofJson? (access : Access) (j : Json) : Option Paragraph := do
  let [content, style] ← fields? ["content", "style"] j | none
  return {
    content := ← required? (list? (Inline.ofJson? access)) content
    style := ← required? (ParagraphStyle.ofJson? access) style }

end Paragraph

/-- The cell as JSON, from its blocks as JSON. -/
def Cell.toJson (c : Cell Json) : Json :=
  .obj [("content", .arr c.content), ("grid_span", .int c.gridSpan.toNat)]

/-- The row as JSON, from its blocks as JSON. -/
def Row.toJson (r : Row Json) : Json :=
  .obj [("cells", .arr (r.cells.map Cell.toJson))]

/-- The table as JSON, from its blocks as JSON. -/
def Table.toJson (t : Table Json) : Json :=
  .obj [("type", .str "table"), ("rows", .arr (t.rows.map Row.toJson)),
    ("style_id", ofString? t.styleId)]

section Layers

variable {α : Type} (item? : Json → Option α)

/-- The cell from JSON, its items being read by `item?`. -/
def Cell.ofJson? (j : Json) : Option (Cell α) := do
  let [content, gridSpan] ← fields? ["content", "grid_span"] j | none
  return ⟨← required? (list? item?) content, ← required? uint8? gridSpan⟩

/-- The row from JSON, its items being read by `item?`. -/
def Row.ofJson? (j : Json) : Option (Row α) := do
  let [cells] ← fields? ["cells"] j | none
  return { cells := ← required? (list? (Cell.ofJson? item?)) cells }

/-- The table from JSON, its items being read by `item?`. -/
def Table.ofJson? (j : Json) : Option (Table α) := do
  let [rows, styleId] ← fields? ["rows", "style_id"] j | none
  return {
    rows := ← required? (list? (Row.ofJson? item?)) rows
    styleId := ← option? str? styleId }

end Layers

namespace Block

/-- The block as JSON. -/
def toJson : Block → Json :=
  fold (fun p => .obj (("type", .str "paragraph") :: p.members)) Table.toJson

/-- The names of the shapes of blocks. -/
def shapes : List String := ["paragraph", "table"]

/-- The block of a shape from its fields, the blocks in it being read by `inner?`. -/
def ofShape? (inner? : Json → Option Block) (shape : String) (fields : Json) : Option Block :=
  match shape with
  | "paragraph" => (Paragraph.ofJson? .held fields).map paragraph
  | "table" => (Table.ofJson? inner? fields).map table
  | _ => none

/-- A block in a table from JSON, with less than `depth` tables inside each
    other. It is held with the table. -/
def ofNested? : (depth : Nat) → Json → Option Block
  | 0, _ => none
  | depth + 1, j =>
    (shape? .held shapes "type" j).bind fun (shape, fields) =>
      ofShape? (ofNested? depth) shape fields

/-- The block from JSON. Tables are not deeper than JSON is. -/
def ofJson? (j : Json) : Option Block := do
  let (shape, fields) ← shape? .direct shapes "type" (← hold? j)
  ofShape? (ofNested? j.depth) shape fields

end Block

namespace Comment

/-- The comment as JSON. -/
def toJson (c : Comment) : Json :=
  .obj [("id", .int c.id.toNat), ("author", ofString? c.author),
    ("content", .arr (c.content.map Paragraph.toJson)),
    ("parent", match c.parent with
      | none => .null
      | some id => .int id.toNat)]

/-- The comment from JSON. -/
def ofJson? (j : Json) : Option Comment := do
  let [id, author, content, parent] ← fields? ["id", "author", "content", "parent"] j | none
  return {
    id := ← required? uint64? id
    author := ← option? str? author
    content := ← required? (list? (Paragraph.ofJson? .direct)) content
    parent := ← option? uint64? parent }

end Comment

namespace Note

/-- The note as JSON. -/
def toJson (n : Note) : Json :=
  .obj [("id", .int n.id.toInt), ("kind", .str n.kind.name),
    ("content", .arr (n.content.map Paragraph.toJson))]

/-- The note from JSON. -/
def ofJson? (j : Json) : Option Note := do
  let [id, kind, content] ← fields? ["id", "kind", "content"] j | none
  return {
    id := ← required? int64? id
    kind := ← required? (oneOf? .direct NoteKind.all NoteKind.name) kind
    content := ← required? (list? (Paragraph.ofJson? .direct)) content }

end Note

namespace Document

/-- The document as JSON. -/
def toJson (doc : Document) : Json :=
  .obj [("body", .arr (doc.body.map Block.toJson)),
    ("comments", .arr (doc.comments.map Comment.toJson)),
    ("footnotes", .arr (doc.footnotes.map Note.toJson)),
    ("endnotes", .arr (doc.endnotes.map Note.toJson)),
    ("final_section", SectionLayout.toJson? doc.finalSection)]

/-- The document from JSON, with its nodes numbered. -/
def ofJson? (j : Json) : Option Document := do
  let [body, comments, footnotes, endnotes, finalSection] ←
    fields? ["body", "comments", "footnotes", "endnotes", "final_section"] j | none
  let doc : Document := {
    body := ← required? (list? Block.ofJson?) body
    comments := ← required? (list? Comment.ofJson?) comments
    footnotes := ← required? (list? Note.ofJson?) footnotes
    endnotes := ← required? (list? Note.ofJson?) endnotes
    finalSection := ← option? (SectionLayout.ofJson? .direct) finalSection }
  return doc.assignIds

/-- The document of a snapshot. -/
def ofText (s : String) : Except Error Document :=
  match (Json.read? s).bind ofJson? with
  | some doc => .ok doc
  | none => .error .badSnapshot

end Document

end DocTemplate
