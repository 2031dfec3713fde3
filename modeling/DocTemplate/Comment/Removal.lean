import DocTemplate.Document.Basic

/-!
# Removing comments

Comments are removed with all their anchors, except those to keep. A reply stays
if the comment it replies to is kept.
-/

namespace DocTemplate

/-- The block without any anchor of a comment. -/
def Block.withoutAnchors (b : Block) : Block :=
  b.mapParagraphs fun p => p.keepAnchors fun _ => false

namespace Document

/-- Whether the definition of a comment stays. -/
def keepsComment (keep : List CommentId) (c : Comment) : Bool :=
  keep.contains c.id || c.parent.any keep.contains

/-- The document without the comments that are not kept, and the number of
    definitions dropped. -/
def removeComments (doc : Document) (keep : List CommentId) : Document × Nat :=
  let comments := doc.comments.filter (keepsComment keep)
  ({ doc.mapParagraphs fun p => p.keepAnchors keep.contains with comments },
    doc.comments.length - comments.length)

end Document

end DocTemplate
