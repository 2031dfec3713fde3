import DocTemplate.Proofs.Placeholder.Scan

/-!
# Placeholders around empty ones

The first character behind an opening delimiter is inside of the placeholder, even if a closing
delimiter starts there. So an empty placeholder is none, and the scan goes on behind it to the next
closing delimiter. If there is one, what is found is a placeholder around the empty one
(`Delimiters.Swallows`), with a closing delimiter between its own.

That is the only way in which a placeholder goes beyond a closing delimiter
(`Delimiters.overruns_iff_swallows`): what is found is as short as it can be, so there is none
behind its first character (`Delimiters.Leads.eq_nil_of_inner`). Where closing delimiters may
overlap, one that overlaps that of an empty placeholder can be the end of what is found, and then
nothing is swallowed.

* `Delimiters.bounded_scan_iff`: which texts have no placeholder beyond a closing delimiter.
-/

namespace DocTemplate

namespace Delimiters

variable {d : Delimiters} {p : Placeholder}

/-- A closing delimiter occurs between the delimiters of the placeholder. -/
def Overruns (d : Delimiters) (p : Placeholder) : Prop :=
  ∃ before after, p.inner = before ++ d.closing ++ after

/-- An empty placeholder is in the text where the placeholder starts, and the latter ends a whole
    closing delimiter behind it, or later. -/
def Swallows (d : Delimiters) (text : String) (p : Placeholder) : Prop :=
  ∃ before after, text = before ++ d.opening ++ d.closing ++ after ∧ p.start = Text.size before ∧
    Text.size (before ++ d.opening ++ d.closing ++ d.closing) ≤ p.stop

/-- A closing delimiter is inside of what is found only at the start. -/
theorem Leads.eq_nil_of_inner {text before more after before' after' : List Char} {first : Char}
    (h : d.Leads text before first more after)
    (hinner : first :: more = before' ++ d.closing.toList ++ after') : before' = [] := by
  match before' with
  | [] => rfl
  | c :: cs =>
    -- Behind the first character it would come before the one that is found.
    have hmore : more = cs ++ d.closing.toList ++ after' := by simpa using (List.cons.inj hinner).2
    have hocc : more ++ d.closing.toList ++ after =
        cs ++ d.closing.toList ++ (after' ++ d.closing.toList ++ after) := by simp [hmore]
    have hle := h.closing.length_le hocc
    have hpos : 0 < d.closing.toList.length :=
      List.length_pos_iff.2 fun hnil => d.closing_ne (String.toList_inj.1 hnil)
    simp only [hmore, List.length_append] at hle
    omega

/-- A placeholder that is found goes beyond a closing delimiter iff it swallows an empty one. -/
theorem overruns_iff_swallows {text : String} (hp : p ∈ d.scan text) :
    d.Overruns p ↔ d.Swallows text p := by
  obtain ⟨front, rest, before, first, more, after, htext, hleads, rfl⟩ :=
    (greedy_scan d text).exists_found hp
  rw [hleads.text_eq] at htext
  constructor
  · rintro ⟨before', after', hinner⟩
    have hinner : first :: more = before'.toList ++ d.closing.toList ++ after'.toList := by
      simpa [placeholderAt] using congrArg String.toList hinner
    rw [hleads.eq_nil_of_inner hinner, List.nil_append] at hinner
    refine ⟨String.ofList (front ++ before),
      String.ofList (after'.toList ++ d.closing.toList ++ after), ?_, ?_, ?_⟩
    · rw [← String.toList_inj, htext, hinner]
      simp [enclose]
    · simp [placeholderAt, Text.size]
    · simp only [placeholderAt, enclose, hinner, Text.size, String.toList_append,
        String.toList_ofList, Text.width_append]
      omega
  · rintro ⟨before', after', htext', hstart, hstop⟩
    rw [htext'] at htext
    have hsplit : before'.toList ++ (d.opening.toList ++ (d.closing.toList ++ after'.toList)) =
        (front ++ before) ++
          (d.opening.toList ++ ((first :: more) ++ (d.closing.toList ++ after))) := by
      simpa [enclose] using htext
    have hwidth : Text.width before'.toList = Text.width (front ++ before) := by
      simpa [placeholderAt, Text.size] using hstart.symm
    obtain ⟨-, hbehind⟩ := Text.append_inj_of_width hsplit hwidth
    have hinner := List.append_cancel_left hbehind
    -- What is inside is at least as long as the closing delimiter, and starts as that does.
    have hle : Text.width d.closing.toList ≤ Text.width (first :: more) := by
      simp only [placeholderAt, enclose, Text.size, String.toList_append, Text.width_append]
        at hwidth hstop ⊢
      omega
    obtain ⟨after'', hclosing⟩ : d.closing.toList <+: first :: more := by
      rcases List.prefix_or_prefix_of_prefix ⟨_, hinner⟩ ⟨_, rfl⟩ with hprefix | ⟨left, hleft⟩
      · exact hprefix
      · have hnil : left = [] := by
          by_contra hne
          have hpos := Text.width_pos hne
          rw [← hleft, Text.width_append] at hle
          omega
        exact ⟨[], by rw [← hleft, hnil, List.append_nil, List.append_nil]⟩
    refine ⟨"", String.ofList after'', ?_⟩
    rw [← String.toList_inj]
    simp [placeholderAt, hclosing]

/-- A closing delimiter is between the delimiters of a placeholder at the start at most, and only
    where the placeholder swallows an empty one. -/
theorem bounded_scan_iff (d : Delimiters) (text : String) :
    (∀ p ∈ d.scan text, ∀ before after, p.inner = before ++ d.closing ++ after → before = "") ∧
      ((∀ p ∈ d.scan text, ¬ d.Overruns p) ↔ ∀ p ∈ d.scan text, ¬ d.Swallows text p) := by
  refine ⟨fun p hp before' after' hinner => ?_, ?_⟩
  · obtain ⟨front, rest, before, first, more, after, -, hleads, rfl⟩ :=
      (greedy_scan d text).exists_found hp
    have hinner : first :: more = before'.toList ++ d.closing.toList ++ after'.toList := by
      simpa [placeholderAt] using congrArg String.toList hinner
    exact String.toList_inj.1 (hleads.eq_nil_of_inner hinner)
  · exact forall₂_congr fun p hp => not_congr (overruns_iff_swallows hp)

/-- An empty placeholder in front of another one: both are taken for one. -/
theorem not_bounded_emptyField :
    ¬ ∀ p ∈ standard.scan "$\x7b\x7d$\x7bname\x7d", ¬ standard.Overruns p := by
  have hscan : standard.scan "$\x7b\x7d$\x7bname\x7d" =
      [⟨"$\x7b\x7d$\x7bname\x7d", "\x7d$\x7bname", 0, 10⟩] := by decide +kernel
  intro h
  exact h _ (hscan ▸ List.mem_cons_self) ⟨"", "$\x7bname", rfl⟩

end Delimiters

end DocTemplate
