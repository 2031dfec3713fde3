/-!
# Finding a literal in a text

`Text.find?` cuts a list of characters at the first occurrence of a literal,
`Text.pieces` at all its occurrences, taken from the left and without overlap.

* `find?_eq_append`: what is before the occurrence, the literal and what is
  after it make up the text;
* `pieces_intercalate`: writing the literal between the pieces gives the text
  back.
-/

namespace DocTemplate

namespace Text

variable (needle : List Char)

/-- What is before the first occurrence of `needle` and what is after it. -/
def find? : List Char → Option (List Char × List Char)
  | [] => if needle = [] then some ([], []) else none
  | c :: cs =>
    match needle.isPrefixOf? (c :: cs) with
    | some rest => some ([], rest)
    | none => (find? cs).map fun (before, after) => (c :: before, after)

variable {needle}

theorem eq_append_of_isPrefixOf? {needle text rest : List Char}
    (h : needle.isPrefixOf? text = some rest) : text = needle ++ rest := by
  induction needle generalizing text with
  | nil =>
    change some text = some rest at h
    simpa using h
  | cons n ns ih =>
    cases text with
    | nil => cases h
    | cons c cs =>
      change (if n == c then ns.isPrefixOf? cs else none) = some rest at h
      by_cases hc : n = c
      · subst hc
        simp only [beq_self_eq_true, ↓reduceIte] at h
        simp [ih h]
      · simp [hc] at h

theorem find?_eq_append {text before after : List Char}
    (h : find? needle text = some (before, after)) : text = before ++ needle ++ after := by
  induction text generalizing before with
  | nil =>
    by_cases hn : needle = []
    · simp_all [find?]
    · simp [find?, hn] at h
  | cons c cs ih =>
    unfold find? at h
    split at h
    · rename_i rest hr
      have ht := eq_append_of_isPrefixOf? hr
      simp only [Option.some.injEq, Prod.mk.injEq] at h
      obtain ⟨rfl, rfl⟩ := h
      simpa using ht
    · obtain ⟨⟨b, a⟩, hba, h⟩ := Option.map_eq_some_iff.1 h
      simp only [Prod.mk.injEq] at h
      obtain ⟨rfl, rfl⟩ := h
      simp [ih hba]

theorem length_le_of_find? {text before after : List Char}
    (h : find? needle text = some (before, after)) : after.length ≤ text.length := by
  rw [find?_eq_append h]
  simp only [List.length_append]
  omega

theorem length_lt_of_find? {text before after : List Char} (hn : needle ≠ [])
    (h : find? needle text = some (before, after)) : after.length < text.length := by
  have := List.length_pos_iff.2 hn
  rw [find?_eq_append h]
  simp only [List.length_append]
  omega

/-- The parts of `text` between the occurrences of `needle`; the text itself
    if `needle` is empty. -/
def pieces (needle : List Char) (text : List Char) : List (List Char) :=
  if _ : needle = [] then
    [text]
  else
    match _ : find? needle text with
    | none => [text]
    | some (before, after) => before :: pieces needle after
termination_by text.length
decreasing_by exact length_lt_of_find? (by assumption) (by assumption)

theorem pieces_ne_nil (needle text : List Char) : pieces needle text ≠ [] := by
  unfold pieces
  split
  · simp
  · split <;> simp

theorem pieces_intercalate (needle text : List Char) :
    needle.intercalate (pieces needle text) = text := by
  fun_induction pieces needle text with
  | case1 text => simp
  | case2 text => simp
  | case3 text hn before after h ih =>
    have hne := pieces_ne_nil needle after
    have ht := find?_eq_append h
    match hp : pieces needle after with
    | [] => exact absurd hp hne
    | p :: ps =>
      rw [hp] at ih
      rw [List.intercalate_cons_cons, ih, ht]

/-- Whether `needle` occurs in `text`. -/
def contains (text needle : String) : Bool :=
  (find? needle.toList text.toList).isSome

/-- The parts of `text` between the occurrences of `needle`. -/
def splitOn (text needle : String) : List String :=
  (pieces needle.toList text.toList).map String.ofList

/-- The text after `opening`, if it starts with it. -/
def dropOpening? (text opening : String) : Option String :=
  (opening.toList.isPrefixOf? text.toList).map String.ofList

/-- The text before `closing`, if it ends with it. -/
def dropClosing? (text closing : String) : Option String :=
  (closing.toList.reverse.isPrefixOf? text.toList.reverse).map fun rest =>
    String.ofList rest.reverse

end Text

end DocTemplate
