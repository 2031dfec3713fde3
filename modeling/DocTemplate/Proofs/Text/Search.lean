import DocTemplate.Text.Search
import Mathlib.Data.List.Basic

/-!
# The first occurrence of a literal

`Text.find?` cuts a text at the first occurrence of a literal, the one with the least text before
it (`Text.IsFirst`), and finds nothing only if there is no occurrence at all. So there is none in what
is between the occurrences that are found one after the other.

* `Text.find?_eq_some_iff`: what is found is the first occurrence;
* `Text.find?_eq_none_iff`: nothing is found if and only if the literal does not occur;
* `Text.not_infix_of_mem_splitOn`, `Text.intercalate_splitOn`: the pieces of a text.
-/

namespace DocTemplate

namespace Text

variable {needle text rest before after before' after' : List Char}

/-- The text is `before`, the literal and `after`, and no other occurrence of the literal has less
    before it. -/
structure IsFirst (needle text before after : List Char) : Prop where
  text_eq : text = before ++ needle ++ after
  length_le {before' after' : List Char} (h : text = before' ++ needle ++ after') :
    before.length ≤ before'.length

/-- There is only one first occurrence. -/
theorem IsFirst.unique (h : IsFirst needle text before after)
    (h' : IsFirst needle text before' after') : before' = before ∧ after' = after := by
  have hlength : before'.length = before.length :=
    Nat.le_antisymm (h'.length_le h.text_eq) (h.length_le h'.text_eq)
  have htext := h'.text_eq.symm.trans h.text_eq
  rw [List.append_assoc, List.append_assoc] at htext
  obtain ⟨hbefore, hrest⟩ := List.append_inj htext hlength
  exact ⟨hbefore, List.append_cancel_left hrest⟩

theorem isPrefixOf?_eq_some_iff : needle.isPrefixOf? text = some rest ↔ text = needle ++ rest :=
  List.isPrefixOf?_eq_some_iff_append_eq.trans eq_comm

theorem isFirst_of_find? (h : find? needle text = some (before, after)) :
    IsFirst needle text before after := by
  refine ⟨find?_eq_append h, fun {before' after'} h' => ?_⟩
  induction text generalizing before before' with
  | nil =>
    have hbefore := congrArg List.length (find?_eq_append h)
    simp only [List.length_nil, List.length_append] at hbefore
    omega
  | cons c cs ih =>
    rw [find?] at h
    split at h
    · cases h
      exact Nat.zero_le _
    · -- No occurrence begins the text, so each is behind its first character.
      next hnone =>
      obtain ⟨⟨front, back⟩, hfind, heq⟩ := Option.map_eq_some_iff.1 h
      cases heq
      cases before' with
      | nil =>
        have hprefix : needle.isPrefixOf? (c :: cs) = some after' := isPrefixOf?_eq_some_iff.2 h'
        rw [hnone] at hprefix
        cases hprefix
      | cons c' cs' => exact Nat.succ_le_succ (ih hfind (List.cons.inj h').2)

/-- A literal that occurs is found. -/
theorem isSome_find? (before needle after : List Char) :
    (find? needle (before ++ needle ++ after)).isSome := by
  induction before with
  | nil =>
    rw [List.nil_append]
    cases htext : needle ++ after with
    | nil =>
      rw [(List.append_eq_nil_iff.1 htext).1]
      rfl
    | cons c cs =>
      rw [find?, isPrefixOf?_eq_some_iff.2 htext.symm]
      rfl
  | cons c cs ih =>
    rw [List.cons_append, List.cons_append, find?]
    split
    · rfl
    · rw [Option.isSome_map]
      exact ih

/-- What is found is the first occurrence. -/
theorem find?_eq_some_iff :
    find? needle text = some (before, after) ↔ IsFirst needle text before after := by
  refine ⟨isFirst_of_find?, fun h => ?_⟩
  obtain ⟨⟨before', after'⟩, hfind⟩ := Option.isSome_iff_exists.1 (isSome_find? before needle after)
  rw [← h.text_eq] at hfind
  obtain ⟨rfl, rfl⟩ := h.unique (isFirst_of_find? hfind)
  exact hfind

/-- Nothing is found if and only if the literal does not occur. -/
theorem find?_eq_none_iff :
    find? needle text = none ↔ ∀ before after, text ≠ before ++ needle ++ after := by
  constructor
  · rintro hnone before after rfl
    have hsome := isSome_find? before needle after
    rw [hnone] at hsome
    cases hsome
  · intro h
    refine Option.eq_none_iff_forall_ne_some.2 fun (before, after) hfind => ?_
    exact h before after (find?_eq_append hfind)

/-! ## Pieces -/

theorem pieces_eq_singleton (h : ¬ needle <:+: text) : pieces needle text = [text] := by
  have hnone : find? needle text = none :=
    find?_eq_none_iff.2 fun before after htext => h ⟨before, after, htext.symm⟩
  rw [pieces]
  split
  · rfl
  · split
    · rfl
    · next hfind =>
      rw [hnone] at hfind
      cases hfind

/-- The literal is in none of the pieces between its occurrences. -/
theorem not_infix_of_mem_pieces (hne : needle ≠ []) {piece : List Char}
    (h : piece ∈ pieces needle text) : ¬ needle <:+: piece := by
  fun_induction pieces needle text with
  | case1 => exact absurd ‹needle = []› hne
  | case2 text _ hnone =>
    obtain rfl := List.mem_singleton.1 h
    rintro ⟨front, back, hpiece⟩
    exact find?_eq_none_iff.1 hnone front back hpiece.symm
  | case3 text _ before after hfind ih =>
    rcases List.mem_cons.1 h with rfl | h
    · -- An occurrence before the first one would be the first one.
      rintro ⟨front, back, rfl⟩
      have hfirst := isFirst_of_find? hfind
      have htext : text = front ++ needle ++ (back ++ needle ++ after) := by
        rw [hfirst.text_eq]
        simp only [List.append_assoc]
      have hle := hfirst.length_le htext
      have hpos := List.length_pos_iff.2 hne
      rw [List.length_append, List.length_append] at hle
      omega
    · exact ih h

theorem map_toList_splitOn (s literal : String) :
    (splitOn s literal).map String.toList = pieces literal.toList s.toList := by
  rw [splitOn, List.map_map]
  exact List.map_id'' (fun _ => String.toList_ofList) _

/-- Writing the literal between the pieces gives the text back. -/
theorem intercalate_splitOn (s literal : String) : literal.intercalate (splitOn s literal) = s := by
  rw [← String.toList_inj, String.toList_intercalate, map_toList_splitOn, pieces_intercalate]

theorem splitOn_eq_singleton {s literal : String} (h : ¬ literal.toList <:+: s.toList) :
    splitOn s literal = [s] := by
  rw [splitOn, pieces_eq_singleton h, List.map_singleton, String.ofList_toList]

theorem not_infix_of_mem_splitOn {s literal piece : String} (hne : literal ≠ "")
    (h : piece ∈ splitOn s literal) : ¬ literal.toList <:+: piece.toList := by
  have hpiece : piece.toList ∈ pieces literal.toList s.toList := by
    rw [← map_toList_splitOn]
    exact List.mem_map_of_mem h
  exact not_infix_of_mem_pieces (mt String.toList_eq_nil_iff.1 hne) hpiece

end Text

end DocTemplate
