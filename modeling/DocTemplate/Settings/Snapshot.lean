import DocTemplate.Json.Reader
import DocTemplate.Json.Record
import DocTemplate.Settings.Basic

/-!
# Settings as JSON

A record whose fields may all be left out; those left out have their defaults.
-/

namespace DocTemplate

open Json

namespace NullText

/-- The choice as JSON. -/
def toJson : NullText → Json
  | echo => .obj [("type", .str "echo")]
  | empty => .obj [("type", .str "empty")]
  | text s => .obj [("type", .str "text"), ("text", .str s)]

/-- The names of the choices. -/
def names : List String := ["echo", "empty", "text"]

/-- The choice from JSON. -/
def ofJson? (j : Json) : Option NullText := do
  let (name, _, content) ← choice? .direct names "type" "text" j
  match name, content with
  | "echo", none | "echo", some .null => some echo
  | "empty", none | "empty", some .null => some empty
  | "text", content => (required? str? content).map text
  | _, _ => none

end NullText

namespace NullWord

/-- The choice as JSON. -/
def toJson : NullWord → Json
  | keep => .obj [("type", .str "keep_original")]
  | empty => .obj [("type", .str "empty")]
  | text s => .obj [("type", .str "text"), ("text", .str s)]

/-- The names of the choices. -/
def names : List String := ["keep_original", "empty", "text"]

/-- The choice from JSON. -/
def ofJson? (j : Json) : Option NullWord := do
  let (name, _, content) ← choice? .direct names "type" "text" j
  match name, content with
  | "keep_original", none | "keep_original", some .null => some keep
  | "empty", none | "empty", some .null => some empty
  | "text", content => (required? str? content).map text
  | _, _ => none

end NullWord

namespace TableFit

/-- Both choices. -/
def all : List TableFit := [lenient, strict]

/-- The name of a choice. -/
def name : TableFit → String
  | lenient => "lenient"
  | strict => "strict"

/-- The choice from JSON. -/
def ofJson? (j : Json) : Option TableFit :=
  oneOf? .direct all name j

end TableFit

namespace Settings

/-- The names of the fields, in their order. -/
def fieldNames : List String :=
  ["fail_on_unresolved_expression", "replace_unresolved_expressions",
    "unresolved_expressions_default_value", "leave_empty_on_expression_error",
    "expression_prefix", "expression_suffix", "line_break_placeholder", "lenient_directives",
    "null_policy", "replace_word_null_policy", "table_fill_policy", "date_format",
    "date_time_format", "merge_similar_runs", "strip_language", "remove_orphan_notes"]

/-- The settings as JSON. -/
def toJson (s : Settings) : Json :=
  .obj (fieldNames.zip [.bool s.failOnUnresolved, .bool s.replaceUnresolved,
    .str s.unresolvedText, .bool s.leaveEmptyOnError, .str s.opening, .str s.closing,
    ofString? s.lineBreak, .bool s.lenientDirectives, s.nullText.toJson, s.nullWord.toJson,
    .str s.tableFit.name, .str s.datePattern, .str s.dateTimePattern, .bool s.mergeRuns,
    .bool s.stripLanguage, .bool s.removeOrphanNotes])

/-- The settings from JSON. -/
def ofJson? (j : Json) : Option Settings := do
  let [failOnUnresolved, replaceUnresolved, unresolvedText, leaveEmptyOnError, opening, closing,
      lineBreak, lenientDirectives, nullText, nullWord, tableFit, datePattern, dateTimePattern,
      mergeRuns, stripLanguage, removeOrphanNotes] ← leadingFields? fieldNames j | none
  let d : Settings := {}
  return {
    failOnUnresolved := ← default? d.failOnUnresolved bool? failOnUnresolved
    replaceUnresolved := ← default? d.replaceUnresolved bool? replaceUnresolved
    unresolvedText := ← default? d.unresolvedText str? unresolvedText
    leaveEmptyOnError := ← default? d.leaveEmptyOnError bool? leaveEmptyOnError
    opening := ← default? d.opening str? opening
    closing := ← default? d.closing str? closing
    lineBreak := ← option? str? lineBreak
    lenientDirectives := ← default? d.lenientDirectives bool? lenientDirectives
    nullText := ← default? d.nullText NullText.ofJson? nullText
    nullWord := ← default? d.nullWord NullWord.ofJson? nullWord
    tableFit := ← default? d.tableFit TableFit.ofJson? tableFit
    datePattern := ← default? d.datePattern str? datePattern
    dateTimePattern := ← default? d.dateTimePattern str? dateTimePattern
    mergeRuns := ← default? d.mergeRuns bool? mergeRuns
    stripLanguage := ← default? d.stripLanguage bool? stripLanguage
    removeOrphanNotes := ← default? d.removeOrphanNotes bool? removeOrphanNotes }

end Settings

end DocTemplate
