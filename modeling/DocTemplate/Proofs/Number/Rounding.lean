import DocTemplate.Number.Notation
import Mathlib

/-!
# Rounding

A positive number of sixty-four bits is `m · 2^q` with a mantissa of fifty-three digits, or fewer
at the least exponent (`Number.IsCanonical`). The numbers that round to it are those of an
interval (`Number.RoundsTo`): half a unit above it, and half a unit below it, or a quarter where
it is a power of two; the ends are in the interval iff the mantissa is even.

A product, a quotient or a number given exactly is first cut to a mantissa, a bit for its half
and a bit for what is left, which says where the number is among the halves of mantissas
(`Number.Locates`). Hence it becomes the number of the interval that it is in.

* `Number.roundWithAccuracy_eq`: what is cut is rounded to the number of its interval;
* `Number.round_eq`, `Number.mul_eq`, `Number.div_eq`: an exact number, a product and a quotient;
* `Number.RoundsTo.bounds`: what rounds to a finite number is not very large.
-/

namespace DocTemplate

namespace Number

open Float.Model Float.Model.UnpackedFloat

/-! ## Mantissas -/

/-- The place of a number among the halves of mantissas. -/
structure Locates (em : ExtendedMantissa) (x : ℚ) : Prop where
  le : (2 * em.mantissa + em.roundBit.toNat : ℚ) ≤ 2 * x
  lt : 2 * x < 2 * em.mantissa + em.roundBit.toNat + 1
  sticky : em.stickyBit = false ↔ 2 * x = 2 * em.mantissa + em.roundBit.toNat

namespace Locates

variable {em : ExtendedMantissa} {x : ℚ}

theorem bounds (h : Locates em x) : (em.mantissa : ℚ) ≤ x ∧ x < em.mantissa + 1 := by
  have hle := h.le
  have hlt := h.lt
  cases hr : em.roundBit <;> simp only [hr, Bool.toNat_false, Bool.toNat_true] at hle hlt <;>
    push_cast at hle hlt <;> constructor <;> linarith

theorem shiftRightOne (h : Locates em x) : Locates em.shiftRightOne (x / 2) := by
  have hm : (2 * (em.mantissa / 2 : ℕ) + (em.mantissa % 2 != 0).toNat : ℚ) = em.mantissa := by
    have hbit : (em.mantissa % 2 != 0).toNat = em.mantissa % 2 := by
      rcases Nat.mod_two_eq_zero_or_one em.mantissa with h | h <;> simp [h]
    rw [hbit]
    exact_mod_cast Nat.div_add_mod em.mantissa 2
  obtain ⟨hle, hlt⟩ := h.bounds
  refine ⟨?_, ?_, ?_⟩ <;> simp only [ExtendedMantissa.shiftRightOne, hm]
  · linarith
  · linarith
  · rw [Bool.or_eq_false_iff, h.sticky]
    cases hround : em.roundBit
    · constructor <;> intro heq
      · linarith [heq.2, (by simp : ((false.toNat : ℕ) : ℚ) = 0)]
      · exact ⟨rfl, by simp; linarith⟩
    · -- The mantissa is left behind by a half at least.
      have hle := h.le
      rw [hround, Bool.toNat_true, Nat.cast_one] at hle
      constructor
      · rintro ⟨⟨⟩, -⟩
      · intro heq
        linarith

/-- Repeated shifts. -/
theorem shiftRight (h : Locates em x) (n : ℕ) : Locates (em >>> n) (x / 2 ^ n) := by
  change Locates (n.repeat ExtendedMantissa.shiftRightOne em) _
  induction n with
  | zero => simpa [Nat.repeat] using h
  | succ n ih =>
    rw [Nat.repeat, pow_succ, ← div_div]
    exact ih.shiftRightOne

/-- Of two mantissas equally near the even one is taken. -/
theorem roundedMantissa_eq {n : ℕ} (h : Locates em x) (hlo : (n : ℚ) - 1 / 2 ≤ x)
    (hhi : x ≤ n + 1 / 2) (heven : x = n - 1 / 2 ∨ x = n + 1 / 2 → n % 2 = 0) :
    em.roundedMantissa = n := by
  obtain ⟨m, round, sticky⟩ := em
  obtain ⟨hle, hlt, hsticky⟩ := h
  cases round <;> cases sticky <;>
    simp only [Bool.toNat_false, Bool.toNat_true, Nat.cast_zero, Nat.cast_one, add_zero,
      true_iff, Bool.true_eq_false, false_iff] at hle hlt hsticky <;>
    simp only [ExtendedMantissa.roundedMantissa, ExtendedMantissa.accuracy,
      Accuracy.roundToNearestEven]
  · -- The number is the mantissa.
    have h₁ : (m : ℚ) < n + 1 := by linarith
    have h₂ : (n : ℚ) < m + 1 := by linarith
    norm_cast at h₁ h₂
    omega
  · have h₁ : (m : ℚ) < n + 1 := by linarith
    have h₂ : (n : ℚ) < m + 1 := by linarith
    norm_cast at h₁ h₂
    omega
  · -- The number is half way to the next mantissa.
    have h₁ : (m : ℚ) < n + 1 := by linarith
    have h₂ : (n : ℚ) < m + 2 := by linarith
    norm_cast at h₁ h₂
    have heven : n % 2 = 0 := by
      apply heven
      rcases (by omega : n = m ∨ n = m + 1) with rfl | rfl
      · right
        linarith
      · left
        push_cast
        linarith
    omega
  · have hne : (2 * m + 1 : ℚ) < 2 * x := lt_of_le_of_ne hle (Ne.symm hsticky)
    have h₁ : (m : ℚ) < n := by linarith
    have h₂ : (n : ℚ) < m + 2 := by linarith
    norm_cast at h₁ h₂
    omega

end Locates

/-- Where the quotient by the unit of a mantissa is, as an accuracy says it. -/
theorem locates_ofMantissaAndAccuracy_exact (m : ℕ) :
    Locates (.ofMantissaAndAccuracy m .exact) m :=
  ⟨by simp [ExtendedMantissa.ofMantissaAndAccuracy],
    by simp [ExtendedMantissa.ofMantissaAndAccuracy],
    by simp [ExtendedMantissa.ofMantissaAndAccuracy]⟩

theorem locates_ofMantissaAndAccuracy_fraction (num : ℕ) {den : ℕ} (hden : 0 < den) :
    Locates (.ofMantissaAndAccuracy (num / den) (accuracyOfFraction (num % den) den))
      ((num : ℚ) / den) := by
  have hden' : (0 : ℚ) < den := by exact_mod_cast hden
  obtain ⟨y, hy, hx⟩ : ∃ y : ℚ, y * den = (num % den : ℕ) ∧
      (num : ℚ) / den = (num / den : ℕ) + y := by
    refine ⟨(num % den : ℕ) / den, by field_simp, ?_⟩
    rw [div_eq_iff hden'.ne', add_mul, div_mul_cancel₀ _ hden'.ne']
    exact_mod_cast (Nat.div_add_mod' num den).symm
  have hlt : num % den < den := Nat.mod_lt num hden
  rw [hx, accuracyOfFraction]
  split
  · next hzero =>
    obtain rfl : y = 0 := by simpa [hzero, hden.ne'] using hy
    simpa using locates_ofMantissaAndAccuracy_exact (num / den)
  · next hzero =>
    have hpos : 0 < y := by
      by_contra hneg
      have : y * den ≤ 0 := mul_nonpos_of_nonpos_of_nonneg (not_lt.1 hneg) hden'.le
      rw [hy] at this
      exact hzero (by exact_mod_cast le_antisymm this (by positivity))
    have hone : y < 1 := by
      refine lt_of_mul_lt_mul_right ?_ hden'.le
      rw [hy, one_mul]
      exact_mod_cast hlt
    have htwice : 2 * y * den = (2 * (num % den) : ℕ) := by
      rw [mul_assoc, hy, Nat.cast_mul, Nat.cast_ofNat]
    -- What is left is less than half of a unit, half of it, or more.
    rcases lt_trichotomy (2 * (num % den)) den with h | h | h
    · have hy : 2 * y < 1 := by
        refine lt_of_mul_lt_mul_right ?_ hden'.le
        rw [htwice, one_mul]
        exact_mod_cast h
      rw [Nat.compare_eq_lt.2 h]
      refine ⟨?_, ?_, ?_⟩ <;> simp [ExtendedMantissa.ofMantissaAndAccuracy] <;> linarith
    · have hy : 2 * y = 1 := by
        refine mul_right_cancel₀ hden'.ne' ?_
        rw [htwice, one_mul, h]
      rw [Nat.compare_eq_eq.2 h]
      refine ⟨?_, ?_, ?_⟩ <;> simp [ExtendedMantissa.ofMantissaAndAccuracy] <;> linarith
    · have hy : 1 < 2 * y := by
        refine lt_of_mul_lt_mul_right ?_ hden'.le
        rw [htwice, one_mul]
        exact_mod_cast h
      rw [Nat.compare_eq_gt.2 h]
      refine ⟨?_, ?_, ?_⟩ <;> simp [ExtendedMantissa.ofMantissaAndAccuracy] <;> linarith

/-! ## Canonical numbers -/

/-- The mantissa and the exponent of a number as its bits have them: fifty-three digits, or fewer
    at the least exponent. -/
structure IsCanonical (m : ℕ) (q : ℤ) : Prop where
  pos : 0 < m
  lt : m < 2 ^ 53
  le : -1074 ≤ q
  normal : 2 ^ 52 ≤ m ∨ q = -1074

/-- How far down the numbers are that round to a canonical one, in its units: half way to the
    next one, which is nearer below a power of two. -/
def halfBelow (m : ℕ) (q : ℤ) : ℚ :=
  if m = 2 ^ 52 ∧ q ≠ -1074 then 1 / 4 else 1 / 2

/-- The number `x` is among those that round to `m · 2^q`; the ends of the interval are iff `m`
    is even. -/
structure RoundsTo (x : ℚ) (m : ℕ) (q : ℤ) : Prop where
  lower : (m - halfBelow m q) * 2 ^ q ≤ x
  upper : x ≤ (m + 1 / 2) * 2 ^ q
  closed : x = (m - halfBelow m q) * 2 ^ q ∨ x = (m + 1 / 2) * 2 ^ q → m % 2 = 0

theorem halfBelow_le (m : ℕ) (q : ℤ) : halfBelow m q ≤ 1 / 2 := by
  unfold halfBelow
  split_ifs <;> norm_num

theorem halfBelow_pos (m : ℕ) (q : ℤ) : 0 < halfBelow m q := by
  unfold halfBelow
  split_ifs <;> norm_num

/-- The exponent of the least digit that a mantissa keeps. -/
theorem targetExponent_eq (m : ℕ) (e : ℤ) :
    Format.binary64.targetExponent (totalExponent m e) = max (m.log2 + e - 52) (-1074) := by
  simp only [Format.targetExponent, totalExponent, Format.mantissaBits, Format.minExponent]
  norm_num
  omega

/-- The exponent that a number of a binade has. -/
theorem targetExponent_of_bounds {m : ℕ} {e q : ℤ} {x : ℚ} (hm : m ≤ x / 2 ^ e)
    (hm' : x / 2 ^ e < m + 1) (he : e ≤ Format.binary64.targetExponent (totalExponent m e))
    (hq : -1074 ≤ q) (hlo : q = -1074 ∨ 2 ^ (52 + q) ≤ x) (hhi : x < 2 ^ (53 + q)) :
    Format.binary64.targetExponent (totalExponent m e) = q := by
  rw [targetExponent_eq] at he ⊢
  have hpow : (0 : ℚ) < 2 ^ e := zpow_pos (by norm_num) e
  rw [div_lt_iff₀ hpow] at hm'
  rw [le_div_iff₀ hpow] at hm
  have hlt {a b : ℤ} (h : (2 : ℚ) ^ a < 2 ^ b) : a < b :=
    (zpow_lt_zpow_iff_right₀ (by norm_num)).1 h
  rcases Nat.eq_zero_or_pos m with rfl | hpos
  · -- There are no digits left, thus the exponent is the least one.
    rw [Nat.log2_zero] at he ⊢
    rcases hlo with rfl | hlo
    · omega
    · have := hlt (hlo.trans_lt (by simpa using hm'))
      omega
  · have hself : (2 : ℚ) ^ (m.log2 : ℤ) ≤ m := by
      exact_mod_cast Nat.log2_self_le hpos.ne'
    have hsucc : (m + 1 : ℚ) ≤ 2 ^ (m.log2 + 1 : ℤ) := by
      exact_mod_cast Nat.lt_log2_self
    have hlower : (2 : ℚ) ^ (m.log2 + e) ≤ x := by
      rw [zpow_add₀ (by norm_num)]
      exact (mul_le_mul_of_nonneg_right hself hpow.le).trans hm
    have hupper : x < 2 ^ (m.log2 + 1 + e) := by
      rw [zpow_add₀ (by norm_num)]
      exact hm'.trans_le (mul_le_mul_of_nonneg_right hsucc hpow.le)
    have := hlt (hlower.trans_lt hhi)
    rcases hlo with rfl | hlo
    · omega
    · have := hlt (hlo.trans_lt hupper)
      omega

/-- The first shift of a mantissa leaves the place of the number. -/
theorem locates_shiftToTargetExponent {m : ℕ} {e t : ℤ} {accuracy : Accuracy} {x : ℚ}
    (h : Locates (.ofMantissaAndAccuracy m accuracy) (x / 2 ^ e))
    (ht : Format.binary64.targetExponent (totalExponent m e) = t) (he : e ≤ t) :
    ∃ em, shiftToTargetExponent Format.binary64 m e accuracy = (em, t) ∧
      Locates em (x / 2 ^ t) := by
  refine ⟨ExtendedMantissa.ofMantissaAndAccuracy m accuracy >>> (t - e).toNat, ?_, ?_⟩
  · rw [shiftToTargetExponent, ht, shiftToExponent]
    have : e + (t - e).toNat = t := by omega
    simp only [this]
  · have hshift := h.shiftRight (t - e).toNat
    have : x / 2 ^ e / 2 ^ (t - e).toNat = x / 2 ^ t := by
      rw [div_div, ← zpow_natCast, ← zpow_add₀ (by norm_num)]
      congr 2
      omega
    rwa [this] at hshift

/-- A mantissa of fifty-three digits is kept. -/
theorem shiftToTargetExponent_of_lt {m : ℕ} {q : ℤ} (hm : m < 2 ^ 53) (hq : -1074 ≤ q) :
    shiftToTargetExponent Format.binary64 m q .exact = (⟨m, false, false⟩, q) := by
  have hlog : m.log2 ≤ 52 := by
    rcases Nat.eq_zero_or_pos m with rfl | hpos
    · decide
    · have := (Nat.log2_lt hpos.ne').2 hm
      omega
  have hshift : (Format.binary64.targetExponent (totalExponent m q) - q).toNat = 0 := by
    rw [targetExponent_eq]
    omega
  rw [shiftToTargetExponent, shiftToExponent, hshift]
  simp only [Nat.cast_zero, add_zero]
  rfl

/-- The digit that rounding adds is shifted out again. -/
theorem shiftToTargetExponent_carry {q : ℤ} (hq : -1074 ≤ q) :
    shiftToTargetExponent Format.binary64 (2 ^ 53) q .exact = (⟨2 ^ 52, false, false⟩, q + 1) := by
  have hshift : (Format.binary64.targetExponent (totalExponent (2 ^ 53) q) - q).toNat = 1 := by
    rw [targetExponent_eq, Nat.log2_two_pow]
    omega
  rw [shiftToTargetExponent, shiftToExponent, hshift]
  rfl

theorem mantissa_ofMantissaAndAccuracy (n : ℕ) (accuracy : Accuracy) :
    (ExtendedMantissa.ofMantissaAndAccuracy n accuracy).mantissa = n := by
  cases accuracy with
  | exact => rfl
  | inexact o => cases o <;> rfl

/-- What the two shifts and the rounding between them come to. -/
theorem roundWithAccuracy_of_shifts {n k m : ℕ} {e t q : ℤ} {accuracy : Accuracy}
    {em : ExtendedMantissa} (hfirst : shiftToTargetExponent Format.binary64 n e accuracy = (em, t))
    (hround : em.roundedMantissa = k)
    (hsecond : shiftToTargetExponent Format.binary64 k t .exact = (⟨m, false, false⟩, q))
    (hm : 0 < m) (s : Sign) :
    roundWithAccuracy Format.binary64 s n e accuracy = .finite s m q hm := by
  subst hround
  simp only [roundWithAccuracy, hfirst, hsecond, hm.ne', dite_false]

/-- A number of a binade is rounded to the unit of the binade; the digit that this may add is
    shifted out. -/
theorem roundWithAccuracy_of_binade {x : ℚ} {n k m : ℕ} {e t q : ℤ} {accuracy : Accuracy}
    (hn : Locates (.ofMantissaAndAccuracy n accuracy) (x / 2 ^ e))
    (he : e ≤ Format.binary64.targetExponent (totalExponent n e)) (ht : -1074 ≤ t)
    (hlo : t = -1074 ∨ 2 ^ (52 + t) ≤ x) (hhi : x < 2 ^ (53 + t))
    (hround : ∀ {em}, Locates em (x / 2 ^ t) → em.roundedMantissa = k)
    (hsecond : shiftToTargetExponent Format.binary64 k t .exact = (⟨m, false, false⟩, q))
    (hm : 0 < m) (s : Sign) :
    roundWithAccuracy Format.binary64 s n e accuracy = .finite s m q hm := by
  obtain ⟨hle, hlt⟩ := hn.bounds
  rw [mantissa_ofMantissaAndAccuracy] at hle hlt
  have htarget := targetExponent_of_bounds hle hlt he ht hlo hhi
  obtain ⟨em, hfirst, hem⟩ := locates_shiftToTargetExponent hn htarget (htarget ▸ he)
  exact roundWithAccuracy_of_shifts hfirst (hround hem) hsecond hm s

/-- The numbers below a power of two that round to it are within half a unit of their own binade. -/
theorem RoundsTo.of_lt {x : ℚ} {m : ℕ} {q : ℤ} (h : RoundsTo x m q) (hc : IsCanonical m q)
    (hq : q ≠ -1074) (hx : x < 2 ^ (52 + q)) :
    m = 2 ^ 52 ∧ 2 ^ 53 - 1 / 2 ≤ x / 2 ^ (q - 1) := by
  have hpow : (0 : ℚ) < 2 ^ q := zpow_pos (by norm_num) q
  have hlower := (le_div_iff₀ hpow).2 h.lower
  have hhalf := halfBelow_le m q
  have hdiv : x / 2 ^ (q - 1) = 2 * (x / 2 ^ q) := by
    rw [zpow_sub₀ (by norm_num), zpow_one]
    field_simp
  rw [zpow_add₀ (by norm_num), ← div_lt_iff₀ hpow] at hx
  obtain rfl : m = 2 ^ 52 := by
    refine le_antisymm ?_ (hc.normal.resolve_right hq)
    have : (m : ℚ) < (2 ^ 52 + 1 : ℕ) := by
      norm_num at hx
      push_cast
      linarith
    exact Nat.lt_succ_iff.1 (Nat.cast_lt.1 this)
  have hquarter : halfBelow (2 ^ 52) q = 1 / 4 := if_pos ⟨rfl, hq⟩
  rw [hquarter] at hlower
  push_cast at hlower
  exact ⟨rfl, by rw [hdiv]; linarith⟩

/-- Rounding a number gives the canonical one that the number rounds to. -/
theorem roundWithAccuracy_eq {x : ℚ} {m : ℕ} {q : ℤ} (hx : RoundsTo x m q) (hc : IsCanonical m q)
    {n : ℕ} {e : ℤ} {accuracy : Accuracy}
    (hn : Locates (.ofMantissaAndAccuracy n accuracy) (x / 2 ^ e))
    (he : e ≤ Format.binary64.targetExponent (totalExponent n e)) (s : Sign) :
    roundWithAccuracy Format.binary64 s n e accuracy = .finite s m q hc.pos := by
  have hpow (k : ℤ) : (0 : ℚ) < 2 ^ k := zpow_pos (by norm_num) k
  by_cases hlow : q ≠ -1074 ∧ x < 2 ^ (52 + q)
  · -- Just below a power of two: the mantissa is rounded up to it, with a digit too many.
    obtain ⟨hq, hlow⟩ := hlow
    obtain ⟨rfl, hlower⟩ := hx.of_lt hc hq hlow
    have hq' : -1074 ≤ q - 1 := by have := hc.le; omega
    have hupper : x / 2 ^ (q - 1) < 2 ^ 53 := by
      rw [div_lt_iff₀ (hpow _), ← zpow_natCast, ← zpow_add₀ (by norm_num)]
      refine hlow.trans_eq (congrArg _ ?_)
      push_cast
      ring
    refine roundWithAccuracy_of_binade hn he hq' (.inr ?_) ?_ (fun hem => ?_) ?_ hc.pos s
      (k := 2 ^ 53)
    · rw [zpow_add₀ (by norm_num), ← le_div_iff₀ (hpow _)]
      norm_num at hlower ⊢
      linarith
    · exact hlow.trans_eq (congrArg _ (by ring))
    · refine hem.roundedMantissa_eq ?_ ?_ fun _ => by norm_num
      · exact_mod_cast hlower
      · push_cast
        linarith
    · simpa using shiftToTargetExponent_carry hq'
  · have hlower := (le_div_iff₀ (hpow q)).2 hx.lower
    have hupper := (div_le_iff₀ (hpow q)).2 hx.upper
    have hhalf := halfBelow_le m q
    refine roundWithAccuracy_of_binade hn he hc.le ?_ ?_ (fun hem => ?_)
      (shiftToTargetExponent_of_lt hc.lt hc.le) hc.pos s
    · by_cases hq : q = -1074
      · exact .inl hq
      · exact .inr (not_lt.1 fun h => hlow ⟨hq, h⟩)
    · have : (m + 1 : ℚ) ≤ 2 ^ 53 := by exact_mod_cast hc.lt
      rw [zpow_add₀ (by norm_num), ← div_lt_iff₀ (hpow q)]
      norm_num at this ⊢
      linarith
    · refine hem.roundedMantissa_eq (by linarith) hupper ?_
      rintro (h | h)
      · refine hx.closed (.inl ((div_eq_iff (hpow q).ne').1 ?_))
        linarith
      · exact hx.closed (.inr ((div_eq_iff (hpow q).ne').1 h))

/-- The numbers from one have fifty-three digits. -/
theorem IsCanonical.normal_of_one_le {m : ℕ} {q : ℤ} (hc : IsCanonical m q)
    (h : 1 ≤ (m : ℚ) * 2 ^ q) : 2 ^ 52 ≤ m := by
  refine hc.normal.resolve_right ?_
  rintro rfl
  have hlt : (m : ℚ) < 2 ^ (53 : ℤ) := by exact_mod_cast hc.lt
  have : (m : ℚ) * 2 ^ (-1074 : ℤ) < 1 := by
    calc (m : ℚ) * 2 ^ (-1074 : ℤ) < 2 ^ (53 : ℤ) * 2 ^ (-1074 : ℤ) := by gcongr
      _ ≤ 2 ^ (0 : ℤ) := by
        rw [← zpow_add₀ (by norm_num)]
        exact zpow_le_zpow_right₀ (by norm_num) (by norm_num)
      _ = 1 := zpow_zero 2
  exact this.not_ge h

/-- The numbers that round to a finite positive one are not very small and not very large. -/
theorem RoundsTo.bounds {x : ℚ} {m : ℕ} {q : ℤ} (h : RoundsTo x m q) (hc : IsCanonical m q)
    (hq : q ≤ 971) {k : ℤ} (hk : 400 ≤ k) : 10 ^ (-k) < x ∧ x < 10 ^ k := by
  have hpow : (0 : ℚ) < 2 ^ q := zpow_pos (by norm_num) q
  have hhalf := halfBelow_le m q
  have hpos : (1 : ℚ) ≤ m := by exact_mod_cast hc.pos
  have hlt : (m + 1 : ℚ) ≤ 2 ^ (53 : ℤ) := by exact_mod_cast hc.lt
  have height : (2 : ℚ) ^ (3 * k) ≤ 10 ^ k := by
    rw [zpow_mul]
    exact zpow_le_zpow_left₀ (by omega) (by norm_num) (by norm_num)
  have hle := hc.le
  constructor
  · calc (10 : ℚ) ^ (-k) ≤ 2 ^ (-(3 * k)) := by
          rw [zpow_neg, zpow_neg]
          exact inv_anti₀ (zpow_pos (by norm_num) _) height
      _ < 2 ^ (-1 + q) := zpow_lt_zpow_right₀ (by norm_num) (by omega)
      _ = 2 ^ (-1 : ℤ) * 2 ^ q := zpow_add₀ (by norm_num) _ _
      _ ≤ (m - halfBelow m q) * 2 ^ q := by gcongr; norm_num; linarith
      _ ≤ x := h.lower
  · calc x ≤ (m + 1 / 2) * 2 ^ q := h.upper
      _ ≤ 2 ^ (53 : ℤ) * 2 ^ q := by gcongr; linarith
      _ = 2 ^ (53 + q) := (zpow_add₀ (by norm_num) _ _).symm
      _ < 2 ^ (3 * k) := zpow_lt_zpow_right₀ (by norm_num) (by omega)
      _ ≤ 10 ^ k := height

/-! ## Products and quotients -/

/-- A canonical number rounds to itself. -/
theorem roundsTo_self {m : ℕ} {q : ℤ} : RoundsTo (m * 2 ^ q) m q := by
  have hpow : (0 : ℚ) < 2 ^ q := zpow_pos (by norm_num) q
  have hpos := halfBelow_pos m q
  refine ⟨mul_le_mul_of_nonneg_right (by linarith) hpow.le,
    mul_le_mul_of_nonneg_right (by linarith) hpow.le, ?_⟩
  rintro (h | h)
  · have := mul_right_cancel₀ hpow.ne' h
    linarith
  · have := mul_right_cancel₀ hpow.ne' h
    linarith

theorem log2_shiftLeft {n : ℕ} (hn : 0 < n) (k : ℕ) : (n <<< k).log2 = n.log2 + k := by
  induction k with
  | zero => rfl
  | succ k ih =>
    have hne : n <<< k ≠ 0 := by
      rw [Nat.shiftLeft_eq]
      positivity
    rw [Nat.shiftLeft_succ, Nat.log2_two_mul hne, ih, add_assoc]

/-- A number that is given exactly is rounded. -/
theorem round_eq {x : ℚ} {m : ℕ} {q : ℤ} (hx : RoundsTo x m q) (hc : IsCanonical m q) {n : ℕ}
    {e : ℤ} (hn : 0 < n) (h : x = n * 2 ^ e) (s : Sign) :
    UnpackedFloat.round Format.binary64 s n e = .finite s m q hc.pos := by
  simp only [UnpackedFloat.round, decreaseExponent]
  generalize ht : Format.binary64.targetExponent (totalExponent n e) = t
  generalize hk : (e - t).toNat = k
  refine roundWithAccuracy_eq hx hc ?_ ?_ s
  · have hdiv : x / 2 ^ (e - k) = (n <<< k : ℕ) := by
      rw [h, Nat.shiftLeft_eq, zpow_sub₀ (by norm_num), zpow_natCast]
      push_cast
      field_simp
    rw [hdiv]
    exact locates_ofMantissaAndAccuracy_exact _
  · rw [targetExponent_eq] at ht ⊢
    rw [log2_shiftLeft hn]
    omega

/-- A product with enough digits is rounded. -/
theorem mul_eq {x : ℚ} {m : ℕ} {q : ℤ} (hx : RoundsTo x m q) (hc : IsCanonical m q)
    {m₁ m₂ : ℕ} {e₁ e₂ : ℤ} (h₁ : 0 < m₁) (h₂ : 0 < m₂) (hm : 2 ^ 52 ≤ m₁)
    (h : x = m₁ * 2 ^ e₁ * (m₂ * 2 ^ e₂)) :
    UnpackedFloat.mul Format.binary64 (.finite .positive m₁ e₁ h₁) (.finite .positive m₂ e₂ h₂) =
      .finite .positive m q hc.pos := by
  rw [UnpackedFloat.mul]
  refine roundWithAccuracy_eq hx hc ?_ ?_ _
  · have hdiv : x / 2 ^ (e₁ + e₂) = (m₁ * m₂ : ℕ) := by
      rw [h, zpow_add₀ (by norm_num)]
      push_cast
      field_simp
    rw [hdiv]
    exact locates_ofMantissaAndAccuracy_exact _
  · have hlog : 52 ≤ (m₁ * m₂).log2 :=
      (Nat.le_log2 (Nat.mul_pos h₁ h₂).ne').2 (hm.trans (Nat.le_mul_of_pos_right m₁ h₂))
    rw [targetExponent_eq]
    omega

/-- A quotient is rounded. -/
theorem div_eq {x : ℚ} {m : ℕ} {q : ℤ} (hx : RoundsTo x m q) (hc : IsCanonical m q)
    {m₁ m₂ : ℕ} {e₁ e₂ : ℤ} (h₁ : 0 < m₁) (h₂ : 0 < m₂)
    (h : x = m₁ * 2 ^ e₁ / (m₂ * 2 ^ e₂)) :
    UnpackedFloat.div Format.binary64 (.finite .positive m₁ e₁ h₁) (.finite .positive m₂ e₂ h₂) =
      .finite .positive m q hc.pos := by
  rw [UnpackedFloat.div, divCore]
  have htarget : Format.binary64.targetExponent (totalExponent m₁ e₁ - totalExponent m₂ e₂) =
      max ((m₁.log2 : ℤ) - m₂.log2 + (e₁ - e₂) - 53) (-1074) := by
    simp only [Format.targetExponent, totalExponent, Format.mantissaBits, Format.minExponent]
    norm_num
    omega
  rw [htarget]
  generalize he : min (e₁ - e₂) (max ((m₁.log2 : ℤ) - m₂.log2 + (e₁ - e₂) - 53) (-1074)) = e
  generalize hk : (e₁ - e₂ - e).toNat = k
  refine roundWithAccuracy_eq hx hc ?_ ?_ _
  · have hdiv : x / 2 ^ e = (m₁ <<< k : ℕ) / m₂ := by
      have : (2 : ℚ) ^ (e₁ - e₂ - e) = 2 ^ k := by
        rw [← zpow_natCast]
        congr 1
        omega
      rw [h, Nat.shiftLeft_eq]
      push_cast
      rw [← this, zpow_sub₀ (by norm_num), zpow_sub₀ (by norm_num)]
      field_simp
    rw [hdiv]
    exact locates_ofMantissaAndAccuracy_fraction _ h₂
  · rw [targetExponent_eq]
    rcases le_or_gt e (-1074) with hle | hgt
    · exact le_max_of_le_right hle
    · -- The dividend has been shifted so far that the quotient has fifty-three digits.
      have hlog : 52 ≤ ((m₁ <<< k) / m₂).log2 := by
        have hle : 2 ^ 52 ≤ (m₁ <<< k) / m₂ := by
          rw [Nat.le_div_iff_mul_le h₂, Nat.shiftLeft_eq]
          calc 2 ^ 52 * m₂ ≤ 2 ^ 52 * 2 ^ (m₂.log2 + 1) :=
                Nat.mul_le_mul_left _ Nat.lt_log2_self.le
            _ = 2 ^ (52 + (m₂.log2 + 1)) := (pow_add 2 _ _).symm
            _ ≤ 2 ^ (m₁.log2 + k) := Nat.pow_le_pow_right (by decide) (by omega)
            _ = 2 ^ m₁.log2 * 2 ^ k := pow_add 2 _ _
            _ ≤ m₁ * 2 ^ k := Nat.mul_le_mul_right _ (Nat.log2_self_le h₁.ne')
        exact (Nat.le_log2 (by omega)).2 hle
      omega

end Number

end DocTemplate
