/-!
# Settings

How a document is filled: the delimiters of placeholders, what becomes of null
and of expressions without a value, how dates are written, which passes clean
up the document. The defaults are strict: the first expression without a value
fails the whole document.
-/

namespace DocTemplate

/-- What a placeholder for null becomes. -/
inductive NullText where
  /-- The placeholder as it is written. -/
  | echo
  /-- Nothing. -/
  | empty
  /-- A fixed text. -/
  | text (s : String)
  deriving DecidableEq, Repr, Inhabited

/-- What the replacement of a word by null does. -/
inductive NullWord where
  /-- Leave the word. -/
  | keep
  /-- Clear it. -/
  | empty
  /-- Write a fixed text. -/
  | text (s : String)
  deriving DecidableEq, Repr, Inhabited

/-- What happens to tabular data that does not fit the table. -/
inductive TableFit where
  /-- Missing texts leave their cells empty, further ones are dropped. -/
  | lenient
  /-- The data is refused. -/
  | strict
  deriving DecidableEq, Repr, Inhabited

/-- The settings. -/
structure Settings where
  /-- Whether an expression without a value fails the document. -/
  failOnUnresolved : Bool := true
  /-- Whether it is replaced by `unresolvedText`. -/
  replaceUnresolved : Bool := false
  /-- The text for an expression without a value. -/
  unresolvedText : String := ""
  /-- Whether an expression without a value is replaced by nothing. -/
  leaveEmptyOnError : Bool := false
  /-- The opening delimiter of placeholders. -/
  opening : String := "$\x7b"
  /-- The closing delimiter of placeholders. -/
  closing : String := "\x7d"
  /-- The literal that stands for a line break. -/
  lineBreak : Option String := none
  /-- Whether comments that are not understood are left alone. -/
  lenientDirectives : Bool := false
  nullText : NullText := .echo
  nullWord : NullWord := .keep
  tableFit : TableFit := .lenient
  /-- The pattern for dates. -/
  datePattern : String := "%Y-%m-%d"
  /-- The pattern for dates with a time of day. -/
  dateTimePattern : String := "%Y-%m-%d %H:%M:%S"
  /-- Whether neighbouring runs of one style are merged before filling. -/
  mergeRuns : Bool := true
  /-- Whether language tags and proofing marks are dropped before filling. -/
  stripLanguage : Bool := true
  /-- Whether notes without reference are dropped after filling. -/
  removeOrphanNotes : Bool := true
  deriving DecidableEq, Repr, Inhabited

namespace Settings

variable (s : Settings)

/-- Whether the document is filled even if some expression has no value. -/
def recoversUnresolved : Bool :=
  !s.failOnUnresolved || s.leaveEmptyOnError || s.replaceUnresolved

/-- The settings that replace expressions without a value by a text. -/
def replacingUnresolved (text : String) : Settings :=
  { s with replaceUnresolved := true, unresolvedText := text }

/-- The settings without any pass that cleans up. -/
def withoutCleanup : Settings :=
  { s with mergeRuns := false, stripLanguage := false, removeOrphanNotes := false }

end Settings

end DocTemplate
