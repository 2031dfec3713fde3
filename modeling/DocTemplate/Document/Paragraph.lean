import DocTemplate.Document.Run
import DocTemplate.Text.Blank

/-!
# Paragraphs

A paragraph is a sequence of runs, among which anchors of comments and marks of
proofing tools are interspersed. Its text is that of its runs; the byte offsets
of the text that belong to one run form a *span*.

* `toList_text`: the text of a paragraph, character by character.
-/

namespace DocTemplate

/-- The identity of a paragraph, a table or a row within a document. Zero is
    that of a node which no document has numbered. -/
abbrev NodeId := Nat

/-- The identity of a comment, shared by its definition and its anchors. -/
abbrev CommentId := UInt64

/-- The kinds of marks of proofing tools. -/
inductive ProofMark where
  | spellStart | spellEnd | gramStart | gramEnd
  deriving DecidableEq, Repr, Inhabited

namespace ProofMark

/-- Every kind of mark. -/
def all : List ProofMark := [spellStart, spellEnd, gramStart, gramEnd]

/-- The name of a kind of marks. -/
def name : ProofMark → String
  | spellStart => "spell_start"
  | spellEnd => "spell_end"
  | gramStart => "gram_start"
  | gramEnd => "gram_end"

end ProofMark

/-- An item of a paragraph. -/
inductive Inline where
  /-- A run. -/
  | run (r : Run)
  /-- The start of the range of a comment. -/
  | rangeStart (id : CommentId)
  /-- The end of the range of a comment. -/
  | rangeEnd (id : CommentId)
  /-- The reference mark of a comment. -/
  | reference (id : CommentId)
  /-- A mark of a proofing tool. -/
  | proof (mark : ProofMark)
  deriving DecidableEq, Repr, Inhabited

namespace Inline

/-- The run, of a run. -/
def run? : Inline → Option Run
  | run r => some r
  | _ => none

/-- Whether the item is a run. -/
def isRun : Inline → Bool
  | run _ => true
  | _ => false

/-- Whether the item is a mark of a proofing tool. -/
def isProof : Inline → Bool
  | proof _ => true
  | _ => false

/-- The comment of an anchor. -/
def commentId? : Inline → Option CommentId
  | rangeStart id | rangeEnd id | reference id => some id
  | _ => none

/-- The characters of the item. -/
def chars : Inline → List Char
  | run r => RunItem.charsOf r.content
  | _ => []

/-- The number of bytes of text. -/
def size (item : Inline) : Nat :=
  Text.width item.chars

/-- The item with its run changed, if it is a run. -/
def mapRun (f : Run → Run) : Inline → Inline
  | run r => run (f r)
  | item => item

end Inline

/-- The bytes of the text of a paragraph that belong to one run. -/
structure Span where
  /-- The place of the run among the items. -/
  index : Nat
  /-- The offset of the first byte. -/
  start : Nat
  /-- The offset after the last byte. -/
  stop : Nat
  deriving DecidableEq, Repr

/-- Whether the byte at the offset belongs to the span. -/
def Span.contains (s : Span) (offset : Nat) : Bool :=
  s.start ≤ offset && offset < s.stop

/-- A paragraph. -/
structure Paragraph where
  /-- The identity within the document. -/
  id : NodeId := 0
  /-- The items, in reading order. -/
  content : List Inline := []
  /-- The formatting. -/
  style : ParagraphStyle := {}
  deriving DecidableEq, Repr, Inhabited

namespace Paragraph

/-- A paragraph of one run. -/
def ofText (s : String) : Paragraph :=
  { content := [.run (.ofText s)] }

/-- A paragraph of some runs. -/
def ofRuns (runs : List Run) : Paragraph :=
  { content := runs.map .run }

variable (p : Paragraph)

/-- The paragraph with another item at its end. -/
def push (item : Inline) : Paragraph :=
  { p with content := p.content ++ [item] }

/-- The paragraph with another run of one text at its end. -/
def pushText (s : String) : Paragraph :=
  p.push (.run (.ofText s))

/-- The runs, in reading order. -/
def runs : List Run :=
  p.content.filterMap Inline.run?

/-- The paragraph with all its runs changed. -/
def mapRuns (f : Run → Run) : Paragraph :=
  { p with content := p.content.map (Inline.mapRun f) }

/-- The text of all runs. -/
def text : String :=
  String.join (p.runs.map Run.text)

theorem toList_text : p.text.toList = p.content.flatMap Inline.chars := by
  simp only [text, runs, String.toList_join]
  induction p.content with
  | nil => rfl
  | cons item items ih =>
    cases item <;>
      simp_all [List.filterMap_cons, Inline.run?, Inline.chars, Run.text, RunItem.textOf]

/-- The spans of some items, the first of which is at `index` and starts at
    `offset`. Items without text have none. -/
def spansFrom (index offset : Nat) : List Inline → List Span
  | [] => []
  | item :: items =>
    let rest := spansFrom (index + 1) (offset + item.size) items
    if item.size = 0 then rest else ⟨index, offset, offset + item.size⟩ :: rest

/-- The spans of the runs that have text. -/
def spans : List Span :=
  spansFrom 0 0 p.content

/-- The comments whose range starts in the paragraph, once for each start. -/
def rangeStarts : List CommentId :=
  p.content.filterMap fun
    | .rangeStart id => some id
    | _ => none

/-- Whether the text is blank. -/
def isBlank : Bool :=
  Text.isBlank p.text

/-- Whether the paragraph ends a section. -/
def endsSection : Bool :=
  p.style.sectionBreak.isSome

/-- The paragraph without anchors of comments, except those kept. -/
def keepAnchors (keep : CommentId → Bool) : Paragraph :=
  { p with content := p.content.filter fun item => item.commentId?.all keep }

end Paragraph

end DocTemplate
