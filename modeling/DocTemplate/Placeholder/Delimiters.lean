import DocTemplate.Error
import DocTemplate.Text.Search
import DocTemplate.Text.Slice

/-!
# Placeholders

A placeholder is a piece of text between two delimiters. The scan of a text goes
from the left: the first opening delimiter, then the first closing delimiter
that leaves at least one character between the two, then on from there. So a
placeholder is never empty, and placeholders do not overlap.
-/

namespace DocTemplate

/-- The delimiters of placeholders. -/
structure Delimiters where
  opening : String
  closing : String
  opening_ne : opening ≠ ""
  closing_ne : closing ≠ ""
  deriving DecidableEq, Repr

/-- A placeholder in a text. -/
structure Placeholder where
  /-- The placeholder with its delimiters. -/
  raw : String
  /-- What is between the delimiters. -/
  inner : String
  /-- The byte offset of the opening delimiter. -/
  start : Nat
  /-- The byte offset after the closing delimiter. -/
  stop : Nat
  deriving DecidableEq, Repr

namespace Delimiters

/-- The delimiters of two texts; an error if one is empty. -/
def make (opening closing : String) : Except Error Delimiters :=
  if h : opening ≠ "" ∧ closing ≠ "" then .ok ⟨opening, closing, h.1, h.2⟩
  else .error (.badDelimiters opening closing)

/-- A dollar sign and braces. -/
def standard : Delimiters :=
  ⟨"$\x7b", "\x7d", by decide, by decide⟩

/-- The text without the opening delimiter in front and the closing one at the
    end, as far as they are there. -/
def strip (d : Delimiters) (raw : String) : String :=
  let inner := (Text.dropOpening? raw d.opening).getD raw
  (Text.dropClosing? inner d.closing).getD inner

/-- The placeholders of a text that starts at `offset`. -/
def scanFrom (opening closing : List Char) (offset : Nat) (text : List Char) :
    List Placeholder :=
  match _ : Text.find? opening text with
  | none => []
  | some (_, []) => []
  | some (before, first :: rest) =>
    -- The first character is inside, even if a closing delimiter starts there.
    match _ : Text.find? closing rest with
    | none => []
    | some (more, after) =>
      let inner := first :: more
      let raw := opening ++ inner ++ closing
      let start := offset + Text.width before
      let stop := start + Text.width raw
      ⟨String.ofList raw, String.ofList inner, start, stop⟩ :: scanFrom opening closing stop after
termination_by text.length
decreasing_by
  have := Text.length_le_of_find? ‹Text.find? opening text = _›
  have := Text.length_le_of_find? ‹Text.find? closing rest = _›
  simp only [List.length_cons] at *
  omega

/-- The placeholders of a text, from the left. -/
def scan (d : Delimiters) (text : String) : List Placeholder :=
  scanFrom d.opening.toList d.closing.toList 0 text.toList

end Delimiters

end DocTemplate
