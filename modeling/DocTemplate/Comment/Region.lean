import DocTemplate.Document.Path

/-!
# Regions of comments

A comment anchored in the body covers a *region*: the smallest sequence of
neighbouring blocks, in one container, that holds both the paragraph where its
range starts and the one where it ends (for the last time; the former, if it
never ends). The container is the deepest one that holds both paragraphs.

A comment *encloses text* if its range starts and ends within one paragraph and
there is a run with text in between.
-/

namespace DocTemplate

/-- The region of a comment. -/
structure Region where
  /-- The comment. -/
  id : CommentId
  /-- Its text. -/
  text : String
  /-- The comment it replies to, if it is a reply. -/
  parent : Option CommentId
  /-- The paragraph where the range starts. -/
  start : NodeId
  /-- The paragraph where the range ends. -/
  stop : NodeId
  /-- The blocks of the region, in order. -/
  blocks : List NodeId
  /-- The section break of the paragraph right before the region. -/
  precedingBreak : Option SectionLayout
  /-- The number of paragraphs among the blocks that end a section. -/
  breakCount : Nat
  /-- Whether the comment encloses text within one paragraph. -/
  enclosesText : Bool
  deriving DecidableEq, Repr

namespace Region

/-- Whether an odd number of sections end in the region. -/
def hasOddBreaks (r : Region) : Bool :=
  r.breakCount % 2 = 1

/-- The blocks of the region that are still in the document. -/
def attached (r : Region) (doc : Document) : List Block :=
  r.blocks.filterMap doc.node?

/-- The paragraphs in the region that are still in the document. -/
def paragraphIds (r : Region) (doc : Document) : List NodeId :=
  (Block.paragraphsOf (r.attached doc)).map Paragraph.id

end Region

namespace Path

/-- The path of the deepest container that holds the blocks at two places. -/
def commonContainer : Path → Path → Path
  | b :: r :: c :: i :: path, b' :: r' :: c' :: i' :: path' =>
    if b = b' ∧ r = r' ∧ c = c' then
      b :: r :: c :: commonContainer (i :: path) (i' :: path')
    else
      []
  | _, _ => []

end Path

namespace Paragraph

/-- The comments that enclose text in the items, where the range of each comment
    in `opened` is open, and has text in it or not. -/
def enclosing (opened : List (CommentId × Bool)) : List Inline → List CommentId
  | [] => []
  | .rangeStart id :: items => enclosing ((id, false) :: opened) items
  | .rangeEnd id :: items =>
    let rest := enclosing (opened.filter fun o => o.1 != id) items
    if opened.lookup id = some true then id :: rest else rest
  | .run r :: items =>
    -- A text lies in every range that is open.
    enclosing (if r.size = 0 then opened else opened.map fun o => (o.1, true)) items
  | _ :: items => enclosing opened items

/-- The comments that enclose text of the paragraph. -/
def enclosingComments (p : Paragraph) : List CommentId :=
  enclosing [] p.content

end Paragraph

namespace Document

variable (doc : Document)

/-- The starts of ranges in the body, in reading order: the comment, the
    paragraph and its place. -/
def rangeStarts : List (CommentId × NodeId × Path) :=
  doc.placedParagraphs.flatMap fun (path, p) => p.content.filterMap fun
    | .rangeStart id => some (id, p.id, path)
    | _ => none

/-- The ends of ranges in the body, in reading order: the comment, the paragraph
    and its place. -/
def rangeEnds : List (CommentId × NodeId × Path) :=
  doc.placedParagraphs.flatMap fun (path, p) => p.content.filterMap fun
    | .rangeEnd id => some (id, p.id, path)
    | _ => none

/-- The comments that enclose text somewhere in the body. -/
def enclosingComments : List CommentId :=
  doc.paragraphs.flatMap Paragraph.enclosingComments

/-- The region between two places, for a comment. -/
def regionOf? (c : Comment) (start : NodeId × Path) (stop : NodeId × Path) : Option Region := do
  let container := start.2.commonContainer stop.2
  let siblings ← doc.container? container
  let i ← start.2[container.length]?
  let j ← stop.2[container.length]?
  -- The range may end before it starts.
  let first := min i j
  let covered := (siblings.take (max i j + 1)).drop first
  let before := if first = 0 then none else siblings[first - 1]?
  return {
    id := c.id
    text := c.text
    parent := c.parent
    start := start.1
    stop := stop.1
    blocks := covered.map Block.id
    precedingBreak := (before.bind Block.paragraph?).bind fun p => p.style.sectionBreak
    breakCount := ((covered.filterMap Block.paragraph?).filter Paragraph.endsSection).length
    enclosesText := start.1 = stop.1 && doc.enclosingComments.contains c.id }

/-- The regions of the comments anchored in the body, in the order in which
    their ranges start. An anchor without a comment has no region. -/
def regions : List Region :=
  doc.rangeStarts.filterMap fun (id, start) =>
    (doc.comment? id).bind fun c =>
      -- The last end counts.
      let stop := (doc.rangeEnds.reverse.lookup id).getD start
      doc.regionOf? { c with id } start stop

end Document

end DocTemplate
