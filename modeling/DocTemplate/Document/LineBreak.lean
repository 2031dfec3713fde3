import DocTemplate.Document.Run
import DocTemplate.Text.Search

/-!
# Literals for line breaks

The settings may name a literal that stands for a line break in texts. A text
is cut at the literal, from the left and without overlap; an empty literal
stands for nothing.
-/

namespace DocTemplate

namespace RunItem

/-- A text as an item; nothing if it is empty. -/
def ofPiece (s : String) : List RunItem :=
  if s.isEmpty then [] else [.text s]

/-- A text as items, with a line break for each occurrence of the literal. An
    empty text is an item. -/
def breakLines (literal : Option String) (s : String) : List RunItem :=
  match literal.filter fun l => !l.isEmpty with
  | none => [.text s]
  | some l =>
    match [lineBreak].intercalate ((Text.splitOn s l).map ofPiece) with
    | [] => [.text ""]
    | items => items

end RunItem

/-- The run with line breaks for the literal in each of its texts. -/
def Run.breakLines (literal : Option String) (r : Run) : Run :=
  { r with content := r.content.flatMap fun
    | .text s => RunItem.breakLines literal s
    | item => [item] }

end DocTemplate
