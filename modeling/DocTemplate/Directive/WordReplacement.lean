import DocTemplate.Directive.Handler
import DocTemplate.Document.Edit
import DocTemplate.Document.LineBreak

/-!
# Replacing words

The runs that a comment encloses within a paragraph become one, with a new text
and the style of the first of them. The settings say what null does; a list, a
map and tabular data have no text to put there.
-/

namespace DocTemplate

namespace WordReplacement

/-- The text that an argument stands for: `none` if the word is kept. -/
def replacement (settings : Settings) (i : Instruction) : Except Error (Option String) :=
  match i.arg with
  | .null => .ok <|
    match settings.nullWord with
    | .keep => none
    | .empty => some ""
    | .text s => some s
  | .list _ | .map _ | .table _ => .error (i.badArgument "text")
  | v => .ok (some v.text)

/-- The replacement that an instruction asks for. -/
def accept (settings : Settings) (i : Instruction) : Except Error (Option Edit) :=
  if i.site.region.enclosesText then do
    let text ← replacement settings i
    return text.map (.replaceWord i.site.paragraph i.site.region.id)
  else if settings.lenientDirectives then
    .ok none
  else
    .error (i.misplaced .notAroundText)

/-- The items with other content in the first run, and without the other runs. -/
def replaceRuns (content : List RunItem) : List Inline → List Inline
  | [] => []
  | .run r :: items => .run { r with content } :: items.filter fun item => !item.isRun
  | item :: items => item :: replaceRuns content items

/-- The items with other content in the runs between the anchors of a comment;
    `none` if an anchor is missing or there is no run between them. -/
def replaceBetween? (comment : CommentId) (content : List RunItem) (items : List Inline) :
    Option (List Inline) := do
  let start ← items.findIdx? (· = .rangeStart comment)
  let stop ← items.findIdx? (· = .rangeEnd comment)
  -- There is nothing between anchors in the wrong order.
  let between := (items.take stop).drop (start + 1)
  if between.any Inline.isRun then
    some (items.take (start + 1) ++ replaceRuns content between ++ items.drop stop)
  else
    none

/-- One replacement, if it is still possible. -/
def perform (filler : Filler) : Edit → Revision Unit
  | .replaceWord paragraph comment text => do
    let content := RunItem.breakLines filler.settings.lineBreak text
    let replaced ← Revision.edit? fun doc => do
      let p ← doc.paragraph? paragraph
      let items ← replaceBetween? comment content p.content
      let doc ← doc.modifyParagraph? paragraph fun p => { p with content := items }
      return ((), doc)
    if replaced.isSome then
      Revision.count fun r => { r with wordsReplaced := r.wordsReplaced + 1 }
  | _ => pure ()

/-- All replacements. -/
def commit (filler : Filler) (edits : List Edit) : Revision Unit :=
  edits.forM (perform filler)

end WordReplacement

/-- The handler of word replacement. -/
def Handler.wordReplacement : Handler where
  signatures := [("replaceWordWith", 1)]
  accept := WordReplacement.accept
  commit := WordReplacement.commit

end DocTemplate
