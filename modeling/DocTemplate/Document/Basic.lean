import DocTemplate.Document.Block

/-!
# Documents

A document has a body of blocks, and the definitions of what is anchored in it:
comments of reviewers, footnotes and endnotes. Definitions and anchors share an
identity, and nothing forces one to exist with the other.

Paragraphs, tables and rows of the body are numbered. A document remembers the
last number it gave (`Document.lastId`), so what is added later gets new ones.
-/

namespace DocTemplate

/-- The definition of a comment. -/
structure Comment where
  /-- The identity, shared with the anchors. -/
  id : CommentId
  /-- The name of its author. -/
  author : Option String := none
  /-- The paragraphs of its text. -/
  content : List Paragraph
  /-- The comment it replies to, if it is a reply. -/
  parent : Option CommentId := none
  deriving DecidableEq, Repr

namespace Comment

/-- A comment of one paragraph. -/
def ofText (id : CommentId) (s : String) : Comment :=
  { id, content := [.ofText s] }

/-- The text, a line for each paragraph. -/
def text (c : Comment) : String :=
  "\n".intercalate (c.content.map Paragraph.text)

end Comment

/-- The roles of notes. -/
inductive NoteKind where
  /-- A note that the body refers to. -/
  | normal
  /-- The line above the notes of a page. -/
  | separator
  /-- The line above a note continued from the page before. -/
  | continuationSeparator
  /-- The notice that a note continues on the next page. -/
  | continuationNotice
  deriving DecidableEq, Repr, Inhabited

namespace NoteKind

/-- Every role. -/
def all : List NoteKind := [normal, separator, continuationSeparator, continuationNotice]

/-- The name of a role. -/
def name : NoteKind → String
  | normal => "normal"
  | separator => "separator"
  | continuationSeparator => "continuation_separator"
  | continuationNotice => "continuation_notice"

end NoteKind

/-- The definition of a footnote or an endnote. -/
structure Note where
  /-- The number. -/
  id : NoteId
  /-- The role. -/
  kind : NoteKind := .normal
  /-- The paragraphs. -/
  content : List Paragraph := []
  deriving DecidableEq, Repr

/-- A note of one paragraph that the body refers to. -/
def Note.ofText (id : NoteId) (s : String) : Note :=
  { id, content := [.ofText s] }

/-- A document. -/
structure Document where
  /-- The blocks, in reading order. -/
  body : List Block := []
  comments : List Comment := []
  footnotes : List Note := []
  endnotes : List Note := []
  /-- The layout of the last section. -/
  finalSection : Option SectionLayout := none
  /-- The last number given to a node. -/
  lastId : Nat := 0
  deriving Inhabited

namespace Document

variable (doc : Document)

/-- The first definition of a comment. -/
def comment? (id : CommentId) : Option Comment :=
  doc.comments.find? fun c => c.id == id

/-- The text of the body, a line for each block. -/
def text : String :=
  "\n".intercalate (doc.body.map Block.text)

/-- The paragraphs of the body, those in tables included. -/
def paragraphs : List Paragraph :=
  Block.paragraphsOf doc.body

/-- The document with every paragraph of its body changed. -/
def mapParagraphs (f : Paragraph → Paragraph) : Document :=
  { doc with body := doc.body.map (Block.mapParagraphs f) }

end Document

end DocTemplate
