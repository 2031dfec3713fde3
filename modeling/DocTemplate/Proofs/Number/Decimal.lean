import DocTemplate.Proofs.Number.Bits
import DocTemplate.Proofs.Number.Digits

/-!
# Reading decimals

A decimal is read as the number that its value rounds to (`Number.ofDecimal_eq`), whichever of
the ways to read it is taken: a decimal of few digits with a small exponent is a product or a
quotient of an integer and a power of ten, which are numbers themselves, and is rounded once; any
other one is rounded from integers of any length. None is read as a number with a sign
(`Number.isUnsigned_ofDecimal`).
-/

namespace DocTemplate

namespace Number

open Float.Model Float.Model.UnpackedFloat

/-- The value of a decimal. -/
def Decimal.value (d : Decimal) : ℚ :=
  d.digits * 10 ^ d.exponent

/-! ## Integers and powers of ten as numbers -/

/-- Whether the number is the natural number `n`. -/
def Binary.isNat (n : ℕ) : Binary → Bool
  | .finite false m q => m * 2 ^ q.toNat == n * 2 ^ (-q).toNat
  | _ => false

theorem exists_eq_ofCanonical {x : Float} {n : ℕ} (hn : 0 < n) (h : (Binary.ofFloat x).isNat n) :
    ∃ (m : ℕ) (q : ℤ) (hc : IsCanonical m q),
      q ≤ 971 ∧ x = ofCanonical hc ∧ (m : ℚ) * 2 ^ q = n := by
  unfold Binary.isNat at h
  split at h
  · next m q hm =>
    have hvalue := beq_iff_eq.1 h
    have hpos : 0 < m := by
      refine Nat.pos_of_ne_zero ?_
      rintro rfl
      rw [zero_mul] at hvalue
      exact absurd hvalue (by positivity)
    obtain ⟨hc, hq, heq⟩ := eq_ofCanonical hm hpos
    refine ⟨m, q, hc, hq, heq, ?_⟩
    have hvalue : (m : ℚ) * 2 ^ q.toNat = n * 2 ^ (-q).toNat := by exact_mod_cast hvalue
    have hq : (2 : ℚ) ^ q = 2 ^ q.toNat / 2 ^ (-q).toNat := by
      rw [eq_div_iff (by positivity), ← zpow_natCast, ← zpow_natCast, ← zpow_add₀ (by norm_num)]
      congr 1
      omega
    rw [hq, ← mul_div_assoc, hvalue, mul_div_cancel_right₀ _ (by positivity)]
  · cases h

/-- The powers of ten in the table are exact. -/
theorem isNat_powerOfTen : ∀ e : Fin 23, Float.exactlyRepresentablePowersOfTen[e.val]?.any
    fun x => (Binary.ofFloat x).isNat (10 ^ e.val) := by
  decide +kernel

/-- A natural number of fifty-three digits is a number. -/
theorem exists_toFloat_eq {n : ℕ} (hpos : 0 < n) (hn : n < 2 ^ 53) :
    ∃ (m : ℕ) (q : ℤ) (hc : IsCanonical m q),
      q ≤ 971 ∧ n.toUInt64.toFloat = ofCanonical hc ∧ (m : ℚ) * 2 ^ q = n := by
  have hlog : n.log2 < 53 := (Nat.log2_lt hpos.ne').2 hn
  -- The digits are shifted to the highest place.
  have hpow : 2 ^ n.log2 * 2 ^ (52 - n.log2) = 2 ^ 52 := by
    rw [← pow_add]
    congr 1
    omega
  have hc : IsCanonical (n <<< (52 - n.log2)) (n.log2 - 52) := by
    rw [Nat.shiftLeft_eq]
    have hself := Nat.mul_le_mul_right (2 ^ (52 - n.log2)) (Nat.log2_self_le hpos.ne')
    have hsucc := Nat.mul_lt_mul_of_pos_right (Nat.lt_log2_self (n := n))
      (Nat.pow_pos (by decide : 0 < 2) : 0 < 2 ^ (52 - n.log2))
    rw [pow_succ] at hsucc
    exact ⟨by positivity, by nlinarith, by omega, .inl (by omega)⟩
  have hvalue : ((n <<< (52 - n.log2) : ℕ) : ℚ) * 2 ^ ((n.log2 : ℤ) - 52) = n := by
    have : ((n.log2 : ℤ) - 52) = -((52 - n.log2 : ℕ) : ℤ) := by omega
    rw [Nat.shiftLeft_eq, this, zpow_neg, zpow_natCast]
    push_cast
    field_simp
  refine ⟨_, _, hc, by omega, ?_, hvalue⟩
  have hnat : n.toUInt64.toNat = n := by
    rw [Nat.toUInt64, UInt64.toNat_ofNat', Nat.mod_eq_of_lt (by omega)]
  have hmodel : UnpackedFloat.ofUInt64 Format.binary64 n.toUInt64 =
      .finite .positive _ (n.log2 - 52) hc.pos := by
    have hcompare : compare (n : ℤ) 0 = .gt := Int.compare_eq_gt.2 (by exact_mod_cast hpos)
    simp only [UnpackedFloat.ofUInt64, UnpackedFloat.ofNat, UnpackedFloat.ofInt,
      UnpackedFloat.normalize, hnat, hcompare, Int.toNat_natCast]
    refine round_eq ?_ hc hpos (x := n) (by simp) _
    rw [← hvalue]
    exact roundsTo_self
  exact congrArg (fun u => Float.ofModel (.pack u)) hmodel

/-- The power of ten of the table. -/
theorem exists_powerOfTen_eq {e : ℕ} (he : e ≤ 22) :
    ∃ (m : ℕ) (q : ℤ) (hc : IsCanonical m q), q ≤ 971 ∧
      (∀ h : e < Float.exactlyRepresentablePowersOfTen.size,
        Float.exactlyRepresentablePowersOfTen[e] = ofCanonical hc) ∧
      (m : ℚ) * 2 ^ q = 10 ^ e := by
  have hexact := isNat_powerOfTen ⟨e, Nat.lt_succ_of_le he⟩
  obtain ⟨x, hx, hnat⟩ := (Option.any_eq_true _ _).1 hexact
  obtain ⟨m, q, hc, hq, rfl, hvalue⟩ := exists_eq_ofCanonical (Nat.pow_pos (by decide)) hnat
  refine ⟨m, q, hc, hq, fun h => ?_, by exact_mod_cast hvalue⟩
  rw [Array.getElem?_eq_getElem h] at hx
  exact Option.some.inj hx

/-! ## Products and quotients of numbers -/

section

variable {m₁ m₂ m : ℕ} {q₁ q₂ q : ℤ} {h₁ : IsCanonical m₁ q₁} {h₂ : IsCanonical m₂ q₂}

theorem ofCanonical_mul_eq (hq₁ : q₁ ≤ 971) (hq₂ : q₂ ≤ 971) :
    ofCanonical h₁ * ofCanonical h₂ = .ofModel (.pack (UnpackedFloat.mul Format.binary64
      (.finite .positive m₁ q₁ h₁.pos) (.finite .positive m₂ q₂ h₂.pos))) := by
  have hmul : ofCanonical h₁ * ofCanonical h₂ = .ofModel (.pack (UnpackedFloat.mul Format.binary64
      (ofCanonical h₁).toModel.unpack (ofCanonical h₂).toModel.unpack)) := rfl
  rw [hmul, unpack_ofCanonical h₁ hq₁, unpack_ofCanonical h₂ hq₂]

theorem ofCanonical_div_eq (hq₁ : q₁ ≤ 971) (hq₂ : q₂ ≤ 971) :
    ofCanonical h₁ / ofCanonical h₂ = .ofModel (.pack (UnpackedFloat.div Format.binary64
      (.finite .positive m₁ q₁ h₁.pos) (.finite .positive m₂ q₂ h₂.pos))) := by
  have hdiv : ofCanonical h₁ / ofCanonical h₂ = .ofModel (.pack (UnpackedFloat.div Format.binary64
      (ofCanonical h₁).toModel.unpack (ofCanonical h₂).toModel.unpack)) := rfl
  rw [hdiv, unpack_ofCanonical h₁ hq₁, unpack_ofCanonical h₂ hq₂]

end

/-- Few digits and a small exponent: one product or quotient of two numbers that are exact. -/
theorem ofScientific_fast {n e : ℕ} {negative : Bool} {m : ℕ} {q : ℤ} (hc : IsCanonical m q)
    (hn : 0 < n) (hlt : n < 2 ^ 53) (he : e ≤ 22)
    (h : RoundsTo (if negative then n / 10 ^ e else n * 10 ^ e) m q) :
    Float.ofScientific n negative e = ofCanonical hc := by
  obtain ⟨m₁, q₁, h₁, hq₁, heq₁, hvalue₁⟩ := exists_toFloat_eq hn hlt
  obtain ⟨m₂, q₂, h₂, hq₂, heq₂, hvalue₂⟩ := exists_powerOfTen_eq he
  rw [Float.ofScientific, dif_pos ⟨hlt, he⟩]
  simp only [heq₁, heq₂]
  split_ifs at h ⊢
  · rw [ofCanonical_div_eq hq₁ hq₂, div_eq (hvalue₁ ▸ hvalue₂ ▸ h) hc h₁.pos h₂.pos rfl]
    rfl
  · have hnormal := h₁.normal_of_one_le (hvalue₁ ▸ by exact_mod_cast hn)
    rw [ofCanonical_mul_eq hq₁ hq₂, mul_eq (hvalue₁ ▸ hvalue₂ ▸ h) hc h₁.pos h₂.pos hnormal rfl]
    rfl

/-- Many digits or a large exponent: the power of ten is a mantissa of its own. -/
theorem unpacked_ofScientific_eq {n : ℕ} {k : ℤ} {m : ℕ} {q : ℤ} (hc : IsCanonical m q) (hn : 0 < n)
    (hlo : -(2048 + n.log2 : ℤ) ≤ k) (hhi : k ≤ 2048) (h : RoundsTo (n * 10 ^ k) m q) :
    UnpackedFloat.ofScientific Format.binary64 n k = .finite .positive m q hc.pos := by
  have hbits : (2 : ℤ) ^ Format.binary64.exponentBits = 2048 := rfl
  rw [UnpackedFloat.ofScientific, dif_neg hn.ne', hbits, if_neg (by omega), if_neg (by omega)]
  split_ifs with hk
  · refine mul_eq h hc _ _ ?_ ?_
    · rw [Nat.shiftLeft_eq]
      exact Nat.le_trans (by decide) (Nat.le_mul_of_pos_left _ hn)
    · have hpow : (10 : ℚ) ^ k = (10 ^ k.toNat : ℕ) := by
        push_cast
        rw [← zpow_natCast, Int.toNat_of_nonneg hk]
      have hshift : ((n <<< Format.binary64.mantissaBits : ℕ) : ℚ) *
          2 ^ (-(Format.binary64.mantissaBits : ℤ)) = n := by
        rw [Nat.shiftLeft_eq, zpow_neg, zpow_natCast]
        push_cast
        field_simp
      rw [hshift, hpow, zpow_zero, mul_one]
  · refine div_eq h hc _ _ ?_
    have hpow : (10 : ℚ) ^ k = ((10 ^ (-k).toNat : ℕ) : ℚ)⁻¹ := by
      push_cast
      rw [← zpow_natCast, ← zpow_neg, Int.toNat_of_nonneg (by omega), neg_neg]
    rw [hpow, zpow_zero, mul_one, mul_one, div_eq_mul_inv]

/-! ## Decimals as numbers -/

namespace Decimal

variable {d : Decimal}

theorem value_lt (d : Decimal) : d.value < 10 ^ (d.exponent + (digitChars d.digits).length) := by
  rw [value, add_comm, zpow_add₀ (by norm_num), zpow_natCast]
  exact mul_lt_mul_of_pos_right (by exact_mod_cast lt_pow_length_digitChars d.digits)
    (zpow_pos (by norm_num) _)

theorem le_value (hd : d.digits ≠ 0) :
    (10 : ℚ) ^ (d.exponent + (digitChars d.digits).length - 1) ≤ d.value := by
  have hlength : 0 < (digitChars d.digits).length :=
    List.length_pos_iff.2 (digitChars_ne_nil d.digits)
  have hle := pow_le_of_lt_length_digitChars (Nat.pos_of_ne_zero hd) (Nat.sub_one_lt_of_lt hlength)
  have hexp : d.exponent + ((digitChars d.digits).length : ℤ) - 1 =
      ((digitChars d.digits).length - 1 : ℕ) + d.exponent := by omega
  rw [value, hexp, zpow_add₀ (by norm_num), zpow_natCast]
  exact mul_le_mul_of_nonneg_right (by exact_mod_cast hle) (zpow_nonneg (by norm_num) _)

/-- The exponent and the number of digits of a decimal between these bounds. -/
theorem within {k : ℤ} (hlo : 10 ^ (-k) < d.value) (hhi : d.value < 10 ^ k) :
    d.digits ≠ 0 ∧ -k < d.exponent + (digitChars d.digits).length ∧
      d.exponent + (digitChars d.digits).length ≤ k := by
  have hd : d.digits ≠ 0 := by
    intro h
    rw [value, h, Nat.cast_zero, zero_mul] at hlo
    exact hlo.not_ge (zpow_nonneg (by norm_num) _)
  have h₁ := (zpow_lt_zpow_iff_right₀ (by norm_num)).1 (hlo.trans d.value_lt)
  have h₂ := (zpow_lt_zpow_iff_right₀ (by norm_num)).1 ((d.le_value hd).trans_lt hhi)
  exact ⟨hd, by omega, by omega⟩

end Decimal

/-- A decimal is read as the number that its value rounds to. -/
theorem ofDecimal_eq {d : Decimal} {m : ℕ} {q : ℤ} (hc : IsCanonical m q) (hq : q ≤ 971)
    (h : RoundsTo d.value m q) : ofDecimal d = ofCanonical hc := by
  obtain ⟨hlo, hhi⟩ := h.bounds hc hq le_rfl
  obtain ⟨hd, hlo, hhi⟩ := d.within hlo hhi
  have hn := Nat.pos_of_ne_zero hd
  have hlog := length_digitChars_le_log2 hn
  have hmodel (k : ℤ) (hk : k = d.exponent) :
      Float.ofModel (Float.Model.ofScientific d.digits k) = ofCanonical hc := by
    subst hk
    rw [Float.Model.ofScientific,
      unpacked_ofScientific_eq hc hn (by omega) (by omega) h]
    rfl
  simp only [ofDecimal]
  rw [if_neg (by omega), if_neg (by omega)]
  split_ifs with hk
  · by_cases hfast : d.digits < 2 ^ 53 ∧ d.exponent.toNat ≤ 22
    · refine ofScientific_fast hc hn hfast.1 hfast.2 ?_
      rw [if_neg (by decide), ← zpow_natCast, Int.toNat_of_nonneg hk]
      exact h
    · rw [Float.ofScientific, dif_neg hfast]
      exact hmodel _ (Int.toNat_of_nonneg hk)
  · by_cases hfast : d.digits < 2 ^ 53 ∧ (-d.exponent).toNat ≤ 22
    · refine ofScientific_fast hc hn hfast.1 hfast.2 ?_
      rw [if_pos rfl, ← zpow_natCast, Int.toNat_of_nonneg (by omega), div_eq_mul_inv, ← zpow_neg,
        neg_neg]
      exact h
    · rw [Float.ofScientific, dif_neg hfast]
      refine hmodel _ ?_
      rw [if_pos rfl, Int.negOfNat_eq, Int.ofNat_eq_natCast, Int.toNat_of_nonneg (by omega),
        neg_neg]

/-- A decimal is read as a number without a sign. -/
theorem isUnsigned_ofScientific {n : ℕ} (hn : 0 < n) (negative : Bool) (e : ℕ) :
    (Binary.ofFloat (Float.ofScientific n negative e)).isUnsigned := by
  rw [Float.ofScientific]
  split_ifs with hfast hnegative
  · obtain ⟨m₁, q₁, h₁, hq₁, heq₁, -⟩ := exists_toFloat_eq hn hfast.1
    obtain ⟨m₂, q₂, h₂, hq₂, heq₂, -⟩ := exists_powerOfTen_eq hfast.2
    simp only [heq₁, heq₂]
    rw [ofCanonical_div_eq hq₁ hq₂]
    exact isUnsigned_ofFloat_pack (isPositive_div _ _)
  · obtain ⟨m₁, q₁, h₁, hq₁, heq₁, -⟩ := exists_toFloat_eq hn hfast.1
    obtain ⟨m₂, q₂, h₂, hq₂, heq₂, -⟩ := exists_powerOfTen_eq hfast.2
    simp only [heq₁, heq₂]
    rw [ofCanonical_mul_eq hq₁ hq₂]
    exact isUnsigned_ofFloat_pack (isPositive_mul _ _)
  · exact isUnsigned_ofFloat_pack (isPositive_unpackedOfScientific _ _)
  · exact isUnsigned_ofFloat_pack (isPositive_unpackedOfScientific _ _)

theorem isUnsigned_ofDecimal (d : Decimal) : (Binary.ofFloat (ofDecimal d)).isUnsigned := by
  simp only [ofDecimal]
  split_ifs with hzero
  · decide +kernel
  · decide +kernel
  · exact isUnsigned_ofScientific (by omega) _ _
  · exact isUnsigned_ofScientific (by omega) _ _

end Number

end DocTemplate
