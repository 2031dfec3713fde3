import DocTemplate.Document.Walk
import DocTemplate.Expr.Eval
import DocTemplate.Placeholder.Delimiters
import DocTemplate.Placeholder.Rendering

/-!
# Filling placeholders

The placeholders of a paragraph are those of its text, whatever runs the text
is spread over. Each is evaluated and rendered, and the rendering spliced in, from
the left to the right:

* within one run, the run is split into what is before the placeholder, the
  placeholder and what is after it, all in the style of the run;
* across runs, the runs that the placeholder covers become one, in the style of
  the first; items between them that are no runs come after it.

A placeholder whose expression has no value is left empty, replaced by a text or
kept, or else fails the paragraph, as the settings say.

A splice moves all later offsets by the difference of the lengths, so the
offsets of the placeholders are those in the first text plus a *shift*.
-/

namespace DocTemplate

/-- The placeholders of a filling by what became of them. -/
structure Tally where
  /-- Those replaced by the value of their expression. -/
  resolved : UInt32 := 0
  /-- Those whose expression has no value. -/
  recovered : UInt32 := 0
  deriving DecidableEq, Repr, Inhabited

namespace Tally

/-- The sums of two tallies. -/
def add (a b : Tally) : Tally :=
  ⟨a.resolved + b.resolved, a.recovered + b.recovered⟩

end Tally

namespace Paragraph

/-- A run as an item, unless it is empty. -/
def runUnlessEmpty (r : Run) : List Inline :=
  if r.isEmpty then [] else [.run r]

/-- The run of a placeholder after its rendering. -/
def rendered (covered : Run) : Rendering → Run
  | .items content => { covered with content }
  | .run r => r

/-- The items with the text between the offsets `start` and `stop` replaced by
    a rendering; `none` if no runs have these offsets. -/
def splice? (content : List Inline) (start stop : Nat) (rendering : Rendering) :
    Option (List Inline) := do
  let spans := spansFrom 0 0 content
  let first ← spans.find? fun s => s.contains start
  let last ← spans.find? fun s => s.contains (stop - 1)
  let .run head ← content[first.index]? | none
  let .run tail ← content[last.index]? | none
  let (before, covered, between, after) :=
    if first.index = last.index then
      -- Items without characters at either end stay outside the text.
      let (left, after) := head.splitAt (stop - first.start) .right
      let (before, covered) := left.splitAt (start - first.start) .left
      (before, covered, [], after)
    else
      -- What is covered of the last run goes, with its style.
      let (before, covered) := head.splitAt (start - first.start) .left
      let between := (content.take last.index).drop (first.index + 1)
      let (_, after) := tail.splitAt (stop - last.start) .right
      (before, covered, between.filter fun item => !item.isRun, after)
  return content.take first.index ++ runUnlessEmpty before ++
    .run (rendered covered rendering) :: between ++ runUnlessEmpty after ++
    content.drop (last.index + 1)

end Paragraph

/-- What filling placeholders depends on. -/
structure Filler where
  delimiters : Delimiters
  /-- The value of an expression in a scope. -/
  evaluate : Value → String → Except Error Value := ({} : Environment).evaluate
  renderers : List Renderer := Renderer.builtin
  settings : Settings := {}

namespace Filler

variable (f : Filler) (scope : Value)

/-- The rendering of a placeholder by the value of its expression. -/
def renderingOf (p : Placeholder) : Except Error Rendering := do
  let v ← f.evaluate scope p.inner
  Renderer.renderBy f.renderers f.settings p.raw v

/-- What takes the place of a placeholder without a value: `none` for a failure,
    `some none` to keep the placeholder. -/
def recovery? : Option (Option Rendering) :=
  if f.settings.leaveEmptyOnError then some (some (.ofText ""))
  else if f.settings.replaceUnresolved then some (some (.ofText f.settings.unresolvedText))
  else if !f.settings.failOnUnresolved then some none
  else none

/-- What takes the place of a placeholder, if anything does, and its tally; an
    error shows the text of the whole paragraph. -/
def replacement (paragraphText : String) (p : Placeholder) :
    Except Error (Option Rendering × Tally) :=
  match f.renderingOf scope p with
  | .ok rendering => .ok (some rendering, ⟨1, 0⟩)
  | .error e =>
    match if e.isRecoverable then f.recovery? else none with
    | some recovered => .ok (recovered, ⟨0, 1⟩)
    | none => .error (.unresolved p.raw paragraphText e)

/-- A filling in progress. -/
structure Progress where
  /-- The items of the paragraph. -/
  content : List Inline
  /-- How far the offsets of the text to come have moved. -/
  shift : Int := 0
  tally : Tally := {}
  deriving DecidableEq, Repr

namespace Progress

/-- The filling after a placeholder got its rendering. -/
def splice (state : Progress) (p : Placeholder) (rendering : Rendering) : Progress :=
  let start := (p.start + state.shift).toNat
  let stop := (p.stop + state.shift).toNat
  match Paragraph.splice? state.content start stop rendering with
  | none => state
  | some content =>
    let inserted : Int := Text.width (RunItem.charsOf rendering.content)
    { state with content, shift := state.shift + (inserted - (stop - start : Int)) }

end Progress

/-- The filling after one more placeholder. -/
def step (paragraphText : String) (state : Progress) (p : Placeholder) :
    Except Error Progress := do
  let (rendering, tally) ← f.replacement scope paragraphText p
  let state := { state with tally := state.tally.add tally }
  return rendering.elim state (state.splice p)

/-- The paragraph with its placeholders filled and line breaks for the literal
    of the settings, and the tally. -/
def fillParagraph (p : Paragraph) : Except Error (Paragraph × Tally) := do
  let text := p.text
  let state ← (f.delimiters.scan text).foldlM (f.step scope text) { content := p.content }
  let p := { p with content := state.content }
  return (p.mapRuns (Run.breakLines f.settings.lineBreak), state.tally)

/-- A visit that fills a paragraph and adds to the tally. -/
def visit (_around : List CellPosition) (p : Paragraph) :
    StateT Tally (Except Error) Paragraph := do
  let (p, tally) ← f.fillParagraph scope p
  modify fun t => t.add tally
  return p

/-- The blocks with their placeholders filled, and the tally. -/
def fillBlocks (blocks : List Block) : Except Error (List Block × Tally) :=
  (Block.walkAll (f.visit scope) blocks).run {}

end Filler

end DocTemplate
