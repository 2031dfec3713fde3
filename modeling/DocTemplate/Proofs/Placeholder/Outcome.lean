import DocTemplate.Proofs.Placeholder.Failure
import DocTemplate.Proofs.Placeholder.Scan

/-!
# How the filling of a paragraph ends

The placeholders of a paragraph are taken from the left to the right. One whose expression has no
value, or whose value has no rendering, is recovered from if its error and the settings allow it;
the first one that is not ends the filling, with the error that it has in its paragraph as it was.
If there is none, every placeholder is counted, by whether it has a rendering.

* `Filler.fault?_eq_some_iff`: when a placeholder fails, and with what error;
* `Filler.tally_foldlM`: what is counted;
* `Filler.fillParagraph_outcome`: how the filling of a paragraph ends.
-/

namespace DocTemplate

namespace Filler

section Definitions

variable (f : Filler) (scope : Value)

/-- The placeholder has no rendering because of an error, and nothing makes up for it: the error
    is none to recover from, or the settings do not recover. -/
def FailsWith (ph : Placeholder) (source : Error) : Prop :=
  f.renderingOf scope ph = .error source ∧
    (source.isRecoverable = false ∨ f.settings.recoversUnresolved = false)

/-- The placeholder is the leftmost one of a text that fails. -/
structure FailsFirst (text : String) (ph : Placeholder) (source : Error) : Prop where
  mem : ph ∈ f.delimiters.scan text
  failsWith : f.FailsWith scope ph source
  start_le {other : Placeholder} {source' : Error} (hother : other ∈ f.delimiters.scan text)
    (h : f.FailsWith scope other source') : ph.start ≤ other.start

/-- Whether the placeholder has a rendering. -/
def isRendered (ph : Placeholder) : Bool :=
  (f.renderingOf scope ph).toOption.isSome

end Definitions

variable {f : Filler} {scope : Value} {text : String} {ph : Placeholder}

/-! ## Failures -/

theorem fault?_of_error {source : Error} (h : f.renderingOf scope ph = .error source) :
    f.fault? scope text ph =
      if source.isRecoverable ∧ f.settings.recoversUnresolved then none
      else some (.unresolved ph.raw text source) := by
  rw [fault?, replacement, h]
  by_cases hrecovers : source.isRecoverable ∧ f.settings.recoversUnresolved
  · obtain ⟨recovered, hrecovered⟩ := exists_recovery? hrecovers.2
    simp only [if_pos hrecovers, if_pos hrecovers.1, hrecovered]
  · have hnone : (if source.isRecoverable then f.recovery? else none) = none := by
      split
      · next hrecoverable =>
        exact recovery?_eq_none_iff.2 (Bool.eq_false_iff.2 fun h => hrecovers ⟨hrecoverable, h⟩)
      · rfl
    simp only [if_neg hrecovers, hnone]

/-- A placeholder fails with the error that keeps it from having a rendering. -/
theorem fault?_eq_some_iff {error : Error} : f.fault? scope text ph = some error ↔
    ∃ source, f.FailsWith scope ph source ∧ error = .unresolved ph.raw text source := by
  constructor
  · intro h
    cases hrendering : f.renderingOf scope ph with
    | ok rendering =>
      rw [fault?, replacement, hrendering] at h
      cases h
    | error source =>
      rw [fault?_of_error hrendering] at h
      split at h
      · cases h
      · next hrecovers =>
        refine ⟨source, ⟨hrendering, ?_⟩, (Option.some.inj h).symm⟩
        rw [← Bool.not_eq_true, ← Bool.not_eq_true]
        exact not_and_or.1 hrecovers
  · rintro ⟨source, ⟨hrendering, hfatal⟩, rfl⟩
    rw [fault?_of_error hrendering, if_neg]
    rintro ⟨hrecoverable, hrecovers⟩
    rcases hfatal with h | h
    · exact absurd hrecoverable (Bool.eq_false_iff.1 h)
    · exact absurd hrecovers (Bool.eq_false_iff.1 h)

/-- Only one placeholder fails first, and with one error. -/
theorem FailsFirst.unique {ph' : Placeholder} {source source' : Error}
    (h : f.FailsFirst scope text ph source) (h' : f.FailsFirst scope text ph' source') :
    ph' = ph ∧ source' = source := by
  have hinj : ((f.delimiters.scan text).map Placeholder.start).Nodup := by
    have hscan := f.delimiters.greedy_scan text
    refine List.pairwise_map.2 (hscan.pairwise.imp_of_mem fun hp hq hle => ?_)
    exact Nat.ne_of_lt (Nat.lt_of_lt_of_le (hscan.start_lt_stop hp) hle)
  obtain rfl : ph' = ph := List.inj_on_of_nodup_map hinj h'.mem h.mem
    (Nat.le_antisymm (h'.start_le h.mem h.failsWith) (h.start_le h'.mem h'.failsWith))
  exact ⟨rfl, Except.error.inj (h'.failsWith.1.symm.trans h.failsWith.1)⟩

/-- The first of the placeholders that fail is the leftmost one. -/
theorem exists_failsFirst {error : Error}
    (h : (f.delimiters.scan text).findSome? (f.fault? scope text) = some error) :
    ∃ ph source, f.FailsFirst scope text ph source ∧ error = .unresolved ph.raw text source := by
  have hscan := f.delimiters.greedy_scan text
  obtain ⟨before, ph, after, hsplit, hfault, hbefore⟩ := List.findSome?_eq_some_iff.1 h
  obtain ⟨source, hfails, herror⟩ := fault?_eq_some_iff.1 hfault
  have hmem : ph ∈ f.delimiters.scan text := by
    rw [hsplit]
    exact List.mem_append_right _ List.mem_cons_self
  refine ⟨ph, source, ⟨hmem, hfails, fun {other source'} hother h' => ?_⟩, herror⟩
  rw [hsplit] at hother
  rcases List.mem_append.1 hother with hother | hother
  · -- What is before it does not fail.
    have hfault' : f.fault? scope text other = some (.unresolved other.raw text source') :=
      fault?_eq_some_iff.2 ⟨source', h', rfl⟩
    rw [hbefore other hother] at hfault'
    cases hfault'
  · rcases List.mem_cons.1 hother with rfl | hother
    · exact Nat.le_refl _
    · have hpairwise := hscan.pairwise
      rw [hsplit] at hpairwise
      have hle := List.rel_of_pairwise_cons (List.pairwise_append.1 hpairwise).2.1 hother
      exact Nat.le_trans (Nat.le_of_lt (hscan.start_lt_stop hmem)) hle

/-- If some placeholder fails, then there is one that fails first. -/
theorem findSome?_fault?_of_failsWith {source : Error} (hmem : ph ∈ f.delimiters.scan text)
    (h : f.FailsWith scope ph source) :
    ∃ error, (f.delimiters.scan text).findSome? (f.fault? scope text) = some error := by
  refine Option.isSome_iff_exists.1 (List.findSome?_isSome_iff.2 ⟨ph, hmem, ?_⟩)
  rw [fault?_eq_some_iff.2 ⟨source, h, rfl⟩]
  rfl

/-! ## Counts -/

/-- What a placeholder counts for: it has a rendering, or it is recovered from. -/
theorem tally_of_replacement {rendering : Option Rendering} {tally : Tally}
    (h : f.replacement scope text ph = .ok (rendering, tally)) :
    tally = if f.isRendered scope ph then ⟨1, 0⟩ else ⟨0, 1⟩ := by
  rw [replacement] at h
  rw [isRendered]
  cases hrendering : f.renderingOf scope ph with
  | ok r =>
    rw [hrendering] at h
    cases h
    rfl
  | error source =>
    rw [hrendering] at h
    dsimp only at h
    split at h
    · cases h
      rfl
    · cases h

theorem tally_step {state state' : Progress} (h : f.step scope text state ph = .ok state') :
    state'.tally = state.tally.add (if f.isRendered scope ph then ⟨1, 0⟩ else ⟨0, 1⟩) := by
  rw [step] at h
  obtain ⟨⟨rendering, tally⟩, hreplacement, h⟩ := Except.bind_eq_ok.1 h
  cases h
  rw [← tally_of_replacement hreplacement]
  cases rendering with
  | none => rfl
  | some rendering => exact Progress.tally_splice _ _ _

/-- Every placeholder is counted once, whatever became of the ones before it. -/
theorem tally_foldlM {phs : List Placeholder} {state state' : Progress}
    (h : phs.foldlM (f.step scope text) state = .ok state') :
    state'.tally = state.tally.add ⟨UInt32.ofNat (phs.countP (f.isRendered scope)),
      UInt32.ofNat (phs.countP fun ph => !f.isRendered scope ph)⟩ := by
  -- What was counted before is in the state, so the counts are of the placeholders ahead.
  induction phs generalizing state with
  | nil =>
    cases h
    simp [Tally.add]
  | cons ph phs ih =>
    rw [List.foldlM_cons] at h
    obtain ⟨next, hnext, h⟩ := Except.bind_eq_ok.1 h
    rw [ih h, tally_step hnext, List.countP_cons, List.countP_cons]
    cases f.isRendered scope ph with
    | true => simp [Tally.add, UInt32.ofNat_add, UInt32.add_assoc, UInt32.add_comm]
    | false => simp [Tally.add, UInt32.ofNat_add, UInt32.add_assoc, UInt32.add_comm]

/-- The filling of a paragraph fails if and only if some placeholder has an error that is not
    recovered from, and then with the error of the leftmost one, in the paragraph as it was. If it
    does not fail, every placeholder is counted, and those without a rendering as recovered from. -/
theorem fillParagraph_outcome (f : Filler) (scope : Value) (p : Paragraph) :
    ((∃ error, f.fillParagraph scope p = .error error) ↔
      ∃ ph ∈ f.delimiters.scan p.text, ∃ source, f.FailsWith scope ph source) ∧
    (∀ error, f.fillParagraph scope p = .error error ↔
      ∃ ph source, f.FailsFirst scope p.text ph source ∧
        error = .unresolved ph.raw p.text source) ∧
    ∀ q tally, f.fillParagraph scope p = .ok (q, tally) →
      tally.resolved + tally.recovered = UInt32.ofNat (f.delimiters.scan p.text).length ∧
        tally.recovered = UInt32.ofNat
          ((f.delimiters.scan p.text).countP fun ph => !f.isRendered scope ph) := by
  have hfails : ∀ error, f.fillParagraph scope p = .error error ↔
      (f.delimiters.scan p.text).findSome? (f.fault? scope p.text) = some error :=
    failsAs_fillParagraph p
  refine ⟨⟨?_, ?_⟩, fun error => ⟨fun h => exists_failsFirst ((hfails error).1 h), ?_⟩, ?_⟩
  · rintro ⟨error, h⟩
    obtain ⟨ph, source, hfirst, -⟩ := exists_failsFirst ((hfails error).1 h)
    exact ⟨ph, hfirst.mem, source, hfirst.failsWith⟩
  · rintro ⟨ph, hmem, source, h⟩
    obtain ⟨error, herror⟩ := findSome?_fault?_of_failsWith hmem h
    exact ⟨error, (hfails error).2 herror⟩
  · rintro ⟨ph, source, hfirst, rfl⟩
    obtain ⟨error, herror⟩ := findSome?_fault?_of_failsWith hfirst.mem hfirst.failsWith
    obtain ⟨ph', source', hfirst', rfl⟩ := exists_failsFirst herror
    obtain ⟨rfl, rfl⟩ := hfirst'.unique hfirst
    exact (hfails _).2 herror
  · intro q tally h
    rw [fillParagraph] at h
    obtain ⟨state, hs, h⟩ := Except.bind_eq_ok.1 h
    cases h
    have hlength : (f.delimiters.scan p.text).length =
        (f.delimiters.scan p.text).countP (f.isRendered scope) +
          (f.delimiters.scan p.text).countP fun ph => !f.isRendered scope ph := by
      simpa using (f.delimiters.scan p.text).length_eq_countP_add_countP (f.isRendered scope)
    rw [tally_foldlM hs, hlength, UInt32.ofNat_add]
    simp only [Tally.add, UInt32.zero_add, and_self]

/-! ### A reminder -/

/-- A text with three placeholders, of which the first one has a value. -/
def reminder : Paragraph :=
  .ofText "Dear $\x7bname\x7d: $\x7b1 / 0\x7d of $\x7btotal\x7d"

/-- The name for it. -/
def reminderData : Value :=
  .ofEntries [("name", .string "Ann")]

/-- The standard filler, with settings that keep placeholders without a value. -/
def keeping : Filler :=
  { standard with settings := { failOnUnresolved := false } }

/-- The second placeholder fails, unless it is kept as the third one is. -/
theorem fillParagraph_outcome_reminder :
    (∃ ph source, standard.FailsFirst reminderData reminder.text ph source ∧
      standard.fillParagraph reminderData reminder =
        .error (.unresolved ph.raw reminder.text source)) ∧
    ∃ q tally, keeping.fillParagraph reminderData reminder = .ok (q, tally) ∧
      tally = ⟨1, 2⟩ ∧ (keeping.delimiters.scan reminder.text).length = 3 ∧
      tally.resolved + tally.recovered =
        UInt32.ofNat (keeping.delimiters.scan reminder.text).length := by
  constructor
  · cases h : standard.fillParagraph reminderData reminder with
    | ok result =>
      have hfails : (standard.fillParagraph reminderData reminder).toOption = none := by decide +kernel
      rw [h] at hfails
      cases hfails
    | error error =>
      obtain ⟨ph, source, hfirst, rfl⟩ := ((fillParagraph_outcome _ _ _).2.1 error).1 h
      exact ⟨ph, source, hfirst, rfl⟩
  · obtain ⟨⟨q, tally⟩, h, htally⟩ := Except.exists_of_toOption
      (x := keeping.fillParagraph reminderData reminder) (P := fun x => x.2 = ⟨1, 2⟩)
      (by decide +kernel)
    exact ⟨q, tally, h, htally, by decide +kernel,
      ((fillParagraph_outcome _ _ _).2.2 q tally h).1⟩

end Filler

end DocTemplate
