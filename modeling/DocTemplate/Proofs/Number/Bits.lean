import DocTemplate.Proofs.Number.Rounding

/-!
# The bits of a number

A positive number has one canonical mantissa and exponent (`Number.eq_ofCanonical`), from which
its bits are made (`Number.toNat_toBits_ofCanonical`) and which arithmetic finds in them
(`Number.unpack_ofCanonical`). Nothing that is made of positive numbers has a sign
(`Number.isUnsigned_ofFloat_pack`).
-/

namespace DocTemplate

namespace Number

open Float.Model Float.Model.UnpackedFloat

/-- A number is known by its bits. -/
theorem eq_of_toBits_eq {x y : Float} (h : x.toBits = y.toBits) : x = y := by
  obtain ⟨⟨bits, _⟩⟩ := x
  obtain ⟨⟨bits', _⟩⟩ := y
  obtain rfl : bits = bits' := h
  rfl

theorem toNat_packComponents (exponent : BitVec 11) (mantissa : BitVec 52) :
    (packComponents Format.binary64 .positive exponent mantissa).toNat =
      exponent.toNat * 2 ^ 52 + mantissa.toNat := by
  rw [packComponents, BitVec.toNat_append, ← Nat.shiftLeft_add_eq_or_of_lt mantissa.isLt,
    Nat.shiftLeft_eq, BitVec.toNat_append, ← Nat.shiftLeft_add_eq_or_of_lt exponent.isLt]
  simp [Sign.toBitVec]

theorem log2_add_one_eq_iff {m : ℕ} {q : ℤ} (hc : IsCanonical m q) :
    m.log2 + 1 = 53 ↔ 2 ^ 52 ≤ m := by
  have hlt := (Nat.log2_lt hc.pos.ne').2 hc.lt
  rw [← Nat.le_log2 hc.pos.ne']
  omega

/-- The bits of a canonical number: the exponent, or zero without a digit of the highest place,
    then the rest of the mantissa. -/
theorem pack_canonical {m : ℕ} {q : ℤ} (hc : IsCanonical m q) (hq : q ≤ 971) :
    UnpackedFloat.pack Format.binary64 (.finite .positive m q hc.pos) =
      packComponents Format.binary64 .positive
        (BitVec.ofNat _ (if 2 ^ 52 ≤ m then (q + 1075).toNat else 0)) (BitVec.ofNat _ m) := by
  have hle := hc.le
  have hbiased : (q + (Format.binary64.exponentBias : ℤ) + (52 : ℕ)).toNat = (q + 1075).toNat := by
    simp only [Format.exponentBias]
    norm_num [add_assoc]
  have hfinite : ¬ 2 ^ 11 ≤ (q + 1075).toNat + 1 := by omega
  simp only [UnpackedFloat.pack, hbiased, if_neg hfinite, Format.mantissaBits]
  by_cases hm : 2 ^ 52 ≤ m
  · rw [if_pos hm, if_pos ((log2_add_one_eq_iff hc).2 hm)]
  · rw [if_neg hm, if_neg (mt (log2_add_one_eq_iff hc).1 hm)]

/-- The number with a canonical mantissa and exponent. -/
def ofCanonical {m : ℕ} {q : ℤ} (hc : IsCanonical m q) : Float :=
  .ofModel (.pack (.finite .positive m q hc.pos))

theorem toNat_toBits_ofCanonical {m : ℕ} {q : ℤ} (hc : IsCanonical m q) (hq : q ≤ 971) :
    (ofCanonical hc).toBits.toNat =
      if 2 ^ 52 ≤ m then (q + 1074).toNat * 2 ^ 52 + m else m := by
  have hle := hc.le
  have hlt := hc.lt
  have hbits : (ofCanonical hc).toBits.toNat =
      (UnpackedFloat.pack Format.binary64 (.finite .positive m q hc.pos)).toNat := rfl
  rw [hbits, pack_canonical hc hq, toNat_packComponents, BitVec.toNat_ofNat, BitVec.toNat_ofNat]
  split_ifs with hm
  · rw [Nat.mod_eq_of_lt (by omega)]
    omega
  · omega

/-- The fields of the bits of a number: the sign, the exponent and the fraction. -/
theorem ofBits_eq (bits : UInt64) :
    Binary.ofBits bits =
      if bits.toNat / 2 ^ 52 % 2048 = 2047 then
        if bits.toNat % 2 ^ 52 = 0 then .infinite (2 ^ 63 ≤ bits.toNat) else .nan
      else if bits.toNat / 2 ^ 52 % 2048 = 0 then
        .finite (2 ^ 63 ≤ bits.toNat) (bits.toNat % 2 ^ 52) (-1074)
      else
        .finite (2 ^ 63 ≤ bits.toNat) (2 ^ 52 + bits.toNat % 2 ^ 52)
          ((bits.toNat / 2 ^ 52 % 2048 : ℕ) - 1075) := by
  have hlt : bits.toNat < 2 ^ 64 := bits.toNat_lt
  have hsign : (bits >>> 63 == 1) = decide (2 ^ 63 ≤ bits.toNat) := by
    rw [beq_eq_decide, decide_eq_decide, ← UInt64.toNat_inj, UInt64.toNat_shiftRight,
      Nat.shiftRight_eq_div_pow]
    change bits.toNat / 2 ^ 63 = 1 ↔ _
    omega
  have hfield : (bits >>> 52 &&& 0x7FF).toNat = bits.toNat / 2 ^ 52 % 2048 := by
    rw [UInt64.toNat_and, UInt64.toNat_shiftRight, Nat.shiftRight_eq_div_pow]
    exact Nat.and_two_pow_sub_one_eq_mod _ 11
  have hfraction : (bits &&& 0xFFFFFFFFFFFFF).toNat = bits.toNat % 2 ^ 52 := by
    rw [UInt64.toNat_and]
    exact Nat.and_two_pow_sub_one_eq_mod _ 52
  simp only [Binary.ofBits, hsign, hfield, hfraction]
  rfl

/-- A positive number is the one with the mantissa and the exponent of its bits. -/
theorem eq_ofCanonical {x : Float} {m : ℕ} {q : ℤ} (h : Binary.ofFloat x = .finite false m q)
    (hm : 0 < m) : ∃ hc : IsCanonical m q, q ≤ 971 ∧ x = ofCanonical hc := by
  have hlt : x.toBits.toNat < 2 ^ 64 := x.toBits.toNat_lt
  rw [Binary.ofFloat, ofBits_eq] at h
  split_ifs at h with hinfinite hnan hsubnormal
  · simp only [Binary.finite.injEq, decide_eq_false_iff_not, not_le] at h
    obtain ⟨hsign, rfl, rfl⟩ := h
    have hc : IsCanonical (x.toBits.toNat % 2 ^ 52) (-1074) :=
      ⟨hm, by omega, le_rfl, .inr rfl⟩
    refine ⟨hc, by decide, eq_of_toBits_eq (UInt64.toNat_inj.1 ?_)⟩
    rw [toNat_toBits_ofCanonical hc (by decide), if_neg (by omega)]
    omega
  · simp only [Binary.finite.injEq, decide_eq_false_iff_not, not_le] at h
    obtain ⟨hsign, rfl, rfl⟩ := h
    have hc : IsCanonical (2 ^ 52 + x.toBits.toNat % 2 ^ 52)
        ((x.toBits.toNat / 2 ^ 52 % 2048 : ℕ) - 1075) :=
      ⟨hm, by omega, by omega, .inl (by omega)⟩
    refine ⟨hc, by omega, eq_of_toBits_eq (UInt64.toNat_inj.1 ?_)⟩
    rw [toNat_toBits_ofCanonical hc (by omega), if_pos (by omega)]
    omega

theorem eq_zero {x : Float} {q : ℤ} (h : Binary.ofFloat x = .finite false 0 q) : x = 0.0 := by
  have hlt : x.toBits.toNat < 2 ^ 64 := x.toBits.toNat_lt
  refine eq_of_toBits_eq (UInt64.toNat_inj.1 ?_)
  have hzero : (0.0 : Float).toBits.toNat = 0 := rfl
  rw [Binary.ofFloat, ofBits_eq] at h
  split_ifs at h with hinfinite hnan hsubnormal
  · simp only [Binary.finite.injEq, decide_eq_false_iff_not, not_le] at h
    omega
  · simp only [Binary.finite.injEq] at h
    omega

theorem unpackSign_packComponents (exponent : BitVec 11) (mantissa : BitVec 52) :
    Sign.ofBitVec (unpackSign (packComponents Format.binary64 .positive exponent mantissa)) =
      .positive := by
  have : unpackSign (packComponents Format.binary64 .positive exponent mantissa) = 0#1 := by
    refine BitVec.eq_of_toNat_eq ?_
    have hlt := toNat_packComponents exponent mantissa
    have h₁ := exponent.isLt
    have h₂ := mantissa.isLt
    simp only [unpackSign, BitVec.toNat_cast, BitVec.extractLsb_toNat, hlt,
      Nat.shiftRight_eq_div_pow]
    norm_num
    omega
  rw [this]
  rfl

/-- The bits of a canonical number are read as that number again. -/
theorem unpack_ofCanonical {m : ℕ} {q : ℤ} (hc : IsCanonical m q) (hq : q ≤ 971) :
    (ofCanonical hc).toModel.unpack = .finite .positive m q hc.pos := by
  have hle := hc.le
  have hlt := hc.lt
  have hpos := hc.pos
  have hbits : (ofCanonical hc).toModel.unpack = UnpackedFloat.unpack Format.binary64
      (UnpackedFloat.pack Format.binary64 (.finite .positive m q hc.pos)) := rfl
  rw [hbits, pack_canonical hc hq, UnpackedFloat.unpack]
  simp only [unpackExponent_packComponents, unpackMantissa_packComponents,
    unpackSign_packComponents]
  -- The leading bit of a normal mantissa is not stored; a smaller mantissa has the field zero.
  by_cases hm : 2 ^ 52 ≤ m
  · have hfield : (BitVec.ofNat 11 (q + 1075).toNat).toNat = (q + 1075).toNat := by
      rw [BitVec.toNat_ofNat, Nat.mod_eq_of_lt (by omega)]
    have hones : BitVec.ofNat 11 (q + 1075).toNat ≠ -1#11 := by
      intro h
      have : (q + 1075).toNat = 2047 := hfield.symm.trans (congrArg BitVec.toNat h)
      omega
    have hzero : BitVec.ofNat 11 (q + 1075).toNat ≠ 0#11 := by
      intro h
      have : (q + 1075).toNat = 0 := hfield.symm.trans (congrArg BitVec.toNat h)
      omega
    have hmantissa : (1#1 ++ BitVec.ofNat 52 m).toNat = m := by
      rw [BitVec.toNat_append, ← Nat.shiftLeft_add_eq_or_of_lt (BitVec.isLt _), Nat.shiftLeft_eq,
        BitVec.toNat_ofNat]
      norm_num
      omega
    have hexponent : ((q + 1075).toNat : ℤ) - (Format.binary64.exponentBias + (52 : ℕ)) = q := by
      simp only [Format.exponentBias]
      norm_num
      omega
    simp only [if_pos hm, if_neg hones, if_neg hzero, hfield, hmantissa, hexponent]
  · have hmantissa : (BitVec.ofNat 52 m).toNat = m := by
      rw [BitVec.toNat_ofNat, Nat.mod_eq_of_lt (by omega)]
    have hzero : BitVec.ofNat 52 m ≠ 0#52 := by
      intro h
      have : m = 0 := hmantissa.symm.trans (congrArg BitVec.toNat h)
      omega
    have hexponent : ((0 : ℕ) : ℤ) - (Format.binary64.exponentBias + (52 : ℕ)) + 1 = q := by
      simp only [Format.exponentBias]
      norm_num
      have := hc.normal
      omega
    have hones : BitVec.ofNat 11 0 ≠ -1#11 := by decide
    simp only [if_neg hm, if_neg hones, dif_neg hzero, hmantissa, BitVec.toNat_ofNat,
      Nat.zero_mod, hexponent]
    rfl

/-! ## Numbers without a sign -/

/-- Whether this is a number without a sign, infinity included. -/
def Binary.isUnsigned : Binary → Bool
  | .finite false _ _ | .infinite false => true
  | _ => false

/-- Whether the sign is that of a positive number or of zero. -/
def isPositive : UnpackedFloat → Bool
  | .finite .positive _ _ _ | .infinity .positive | .zero .positive => true
  | _ => false

theorem exists_pack_eq {u : UnpackedFloat} (hu : isPositive u) :
    ∃ (exponent : BitVec 11) (mantissa : BitVec 52),
      u.pack Format.binary64 = packComponents Format.binary64 .positive exponent mantissa ∧
        (exponent = -1#11 → mantissa = 0#52) := by
  unfold isPositive at hu
  split at hu
  · next m e hm =>
    simp only [UnpackedFloat.pack]
    split_ifs with hlarge
    · exact ⟨_, _, rfl, fun _ => rfl⟩
    · refine ⟨_, _, rfl, fun h => ?_⟩
      have hfield := congrArg BitVec.toNat h
      have hbits : 2 ^ Format.binary64.exponentBits = 2048 := rfl
      rw [hbits] at hlarge
      rw [BitVec.toNat_ofNat, Nat.mod_eq_of_lt (lt_of_not_ge fun h => hlarge (by omega))] at hfield
      exact absurd (show _ ≤ _ from hfield ▸ le_rfl) hlarge
    · exact ⟨_, _, rfl, fun h => absurd h (by decide)⟩
  · exact ⟨_, _, rfl, fun _ => rfl⟩
  · exact ⟨_, _, rfl, fun h => absurd h (by decide)⟩
  · cases hu

/-- The bits of a positive number have no sign. -/
theorem isUnsigned_ofFloat_pack {u : UnpackedFloat} (hu : isPositive u) :
    (Binary.ofFloat (.ofModel (.pack u))).isUnsigned := by
  obtain ⟨exponent, mantissa, hpack, hinfinite⟩ := exists_pack_eq hu
  have hbits : (Float.ofModel (.pack u)).toBits.toNat = (u.pack Format.binary64).toNat := rfl
  have hexponent := exponent.isLt
  have hmantissa := mantissa.isLt
  rw [hpack, toNat_packComponents] at hbits
  rw [Binary.ofFloat, ofBits_eq, hbits]
  have hsign : ¬ 2 ^ 63 ≤ exponent.toNat * 2 ^ 52 + mantissa.toNat := by omega
  simp only [hsign, decide_false]
  split_ifs with h₁ h₂
  · rfl
  · -- The exponent of infinity has a mantissa of zero.
    refine absurd ?_ h₂
    rw [hinfinite (BitVec.eq_of_toNat_eq (by rw [show (-1#11).toNat = 2047 from rfl]; omega))]
    simp
  · rfl
  · rfl

theorem isPositive_roundWithAccuracy (n : ℕ) (e : ℤ) (accuracy : Accuracy) :
    isPositive (roundWithAccuracy Format.binary64 .positive n e accuracy) := by
  simp only [roundWithAccuracy]
  split_ifs <;> rfl

theorem isPositive_mul {m₁ m₂ : ℕ} {e₁ e₂ : ℤ} (h₁ : 0 < m₁) (h₂ : 0 < m₂) :
    isPositive (UnpackedFloat.mul Format.binary64 (.finite .positive m₁ e₁ h₁)
      (.finite .positive m₂ e₂ h₂)) :=
  isPositive_roundWithAccuracy _ _ _

theorem isPositive_div {m₁ m₂ : ℕ} {e₁ e₂ : ℤ} (h₁ : 0 < m₁) (h₂ : 0 < m₂) :
    isPositive (UnpackedFloat.div Format.binary64 (.finite .positive m₁ e₁ h₁)
      (.finite .positive m₂ e₂ h₂)) :=
  isPositive_roundWithAccuracy _ _ _

theorem isPositive_unpackedOfScientific (n : ℕ) (k : ℤ) :
    isPositive (UnpackedFloat.ofScientific Format.binary64 n k) := by
  rw [UnpackedFloat.ofScientific]
  split_ifs
  · rfl
  · rfl
  · rfl
  · exact isPositive_mul _ _
  · exact isPositive_div _ _

end Number

end DocTemplate
