import DocTemplate.Calendar.Pattern
import DocTemplate.Document.LineBreak
import DocTemplate.Error
import DocTemplate.Settings.Basic
import DocTemplate.Value.Display

/-!
# Renderings

A rendering is what takes the place of a placeholder: items in the style of the
text around it, or a run with a style of its own. Values are rendered by the
first of some *renderers* that takes them. The built-in ones render null and
dates as the settings say, texts with line breaks, and everything else by its
text; nothing renders tabular data.
-/

namespace DocTemplate

/-- What takes the place of a placeholder. -/
inductive Rendering where
  /-- Items in the style of the placeholder. -/
  | items (content : List RunItem)
  /-- A run with its own style. -/
  | run (r : Run)
  deriving DecidableEq, Repr

namespace Rendering

/-- A text in the style of the placeholder. -/
def ofText (s : String) : Rendering :=
  items [.text s]

/-- The items, style aside. -/
def content : Rendering → List RunItem
  | items content => content
  | run r => r.content

/-- The text. -/
def text (r : Rendering) : String :=
  RunItem.textOf r.content

end Rendering

/-- A way to render some values. -/
structure Renderer where
  name : String
  /-- Whether it renders a value. -/
  accepts : Value → Bool
  /-- The rendering of a value in place of the given placeholder. -/
  render : Settings → (placeholder : String) → Value → Except Error Rendering

namespace Renderer

/-- Renders null as the settings say. -/
def null : Renderer where
  name := "null"
  accepts v := v.isNull
  render settings placeholder _ := .ok <| .ofText <|
    match settings.nullText with
    | .echo => placeholder
    | .empty => ""
    | .text s => s

/-- Renders dates by the patterns of the settings. -/
def date : Renderer where
  name := "date"
  accepts v := v.kind = .date ∨ v.kind = .dateTime
  render settings placeholder v :=
    let written :=
      match v with
      | .date d => Calendar.Pattern.write settings.datePattern d none
      | .dateTime dt => Calendar.Pattern.write settings.dateTimePattern dt.date (some dt.time)
      | v => some v.text
    written.elim (.error (.evaluation placeholder (.badPattern v.kind))) fun s => .ok (.ofText s)

/-- Renders texts, with a line break for each occurrence of its literal. -/
def string : Renderer where
  name := "string"
  accepts v := v.kind = .string
  render settings _ v := .ok (.items (RunItem.breakLines settings.lineBreak v.text))

/-- Renders all but tabular data by its text. -/
def plain : Renderer where
  name := "to-string"
  accepts v := v.kind ≠ .table
  render _ _ v := .ok (.ofText v.text)

/-- The built-in renderers. -/
def builtin : List Renderer :=
  [null, date, string, plain]

/-- The rendering by the first renderer that accepts the value. -/
def renderBy (renderers : List Renderer) (settings : Settings) (placeholder : String)
    (v : Value) : Except Error Rendering :=
  match renderers.find? fun r => r.accepts v with
  | some r => r.render settings placeholder v
  | none => .error (.noRenderer placeholder v.kind)

end Renderer

end DocTemplate
