import DocTemplate.Number.Notation
import Mathlib.Data.List.Basic
import Mathlib.Tactic.IntervalCases

/-!
# Digits

A natural number is written by its decimal digits, without zeros in front, and read back from
them. Zeros in front do not matter to reading.

* `Number.ofDigits_digitChars`: a number is read back from its digits;
* `Number.digitChars_cons_zero`: only zero is written with a zero in front.
-/

namespace DocTemplate

namespace Number

theorem ofDigits_eq_ofDigitChars (cs : List Char) : ofDigits cs = Nat.ofDigitChars 10 cs 0 := rfl

@[simp] theorem ofDigits_digitChars (n : Nat) : ofDigits (digitChars n) = n :=
  Nat.ofDigitChars_ten_toDigits

/-- More digits shift those before them. -/
theorem ofDigits_append (cs ds : List Char) :
    ofDigits (cs ++ ds) = ofDigits cs * 10 ^ ds.length + ofDigits ds := by
  rw [ofDigits_eq_ofDigitChars, Nat.ofDigitChars_append, Nat.ofDigitChars_eq_ofDigitChars_zero]
  simp only [ofDigits_eq_ofDigitChars, Nat.mul_comm]

theorem ofDigits_replicate_zero (n : Nat) : ofDigits (List.replicate n '0') = 0 := by
  rw [ofDigits_eq_ofDigitChars, Nat.ofDigitChars_replicate_zero, Nat.mul_zero]

theorem isDigit_of_mem_digitChars {c : Char} {n : Nat} (h : c ∈ digitChars n) : c.isDigit :=
  Nat.isDigit_of_mem_toDigits (by decide) (by decide) h

theorem digitChars_ne_nil (n : Nat) : digitChars n ≠ [] :=
  Nat.toDigits_ne_nil

/-- A number with several digits starts with those of its tenth part. -/
theorem digitChars_of_le {n : Nat} (h : 10 ≤ n) :
    digitChars n = digitChars (n / 10) ++ [(n % 10).digitChar] :=
  Nat.toDigits_of_base_le (by decide) h

/-- Only zero is written with a zero in front. -/
theorem digitChars_cons_zero {n : Nat} (h : (digitChars n).head? = some '0') : n = 0 := by
  induction n using Nat.strongRecOn with
  | ind n ih =>
    by_cases hlt : n < 10
    · rw [digitChars, Nat.toDigits_of_lt_base hlt] at h
      revert h
      interval_cases n <;> decide
    · rw [digitChars_of_le (Nat.le_of_not_lt hlt),
        List.head?_append_of_ne_nil _ (digitChars_ne_nil _)] at h
      have := ih (n / 10) (by omega) h
      omega

/-! ## How many digits there are -/

theorem lt_pow_length_digitChars (n : Nat) : n < 10 ^ (digitChars n).length :=
  (Nat.length_toDigits_le_iff (by decide) (List.length_pos_iff.2 (digitChars_ne_nil n))).1
    (Nat.le_refl _)

theorem pow_le_of_lt_length_digitChars {n k : Nat} (hn : 0 < n) (hk : k < (digitChars n).length) :
    10 ^ k ≤ n := by
  rcases Nat.eq_zero_or_pos k with rfl | hpos
  · exact hn
  · exact Nat.not_lt.1 fun h =>
      Nat.not_le_of_lt hk ((Nat.length_toDigits_le_iff (by decide) hpos).2 h)

theorem length_digitChars_le_log2 {n : Nat} (hn : 0 < n) :
    (digitChars n).length ≤ n.log2 + 1 := by
  have hlength : 0 < (digitChars n).length := List.length_pos_iff.2 (digitChars_ne_nil n)
  have hpow : 2 ^ ((digitChars n).length - 1) ≤ n :=
    Nat.le_trans (Nat.pow_le_pow_left (by decide) _)
      (pow_le_of_lt_length_digitChars hn (Nat.sub_one_lt_of_lt hlength))
  have := (Nat.le_log2 (Nat.pos_iff_ne_zero.1 hn)).2 hpow
  omega

/-! ## Digits in a text -/

/-- Digits and what does not start with a digit. -/
theorem takeWhile_isDigit_append {ds rest : List Char} (hds : ∀ c ∈ ds, c.isDigit)
    (hrest : ∀ c ∈ rest.head?, c.isDigit = false) :
    (ds ++ rest).takeWhile Char.isDigit = ds ∧ (ds ++ rest).dropWhile Char.isDigit = rest := by
  rw [List.takeWhile_append_of_pos hds, List.dropWhile_append_of_pos hds]
  cases rest with
  | nil => simp
  | cons c cs =>
    have hc := hrest c rfl
    simp [hc]

end Number

end DocTemplate
