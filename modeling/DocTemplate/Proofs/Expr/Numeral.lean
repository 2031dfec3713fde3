import DocTemplate.Proofs.Expr.Scan
import DocTemplate.Proofs.Number.Shortest

/-!
# Numerals of numbers

The text of a number is a numeral with a point, unless the number is an integer from `10^15` or
infinite (`Number.hasPoint`). A numeral with a point is read back as the number, bit for bit
(`Number.spelling_text`): an integer is written exactly, and any other number by the shortest
decimal that rounds to it. The text of a large integer is digits only (`Number.digits_text`), and
that of infinity a name.
-/

namespace DocTemplate

namespace Number

/-- The integer that a number is. -/
theorem Binary.integer?_eq_some_iff {m n : ℕ} {q : ℤ} :
    Binary.integer? m q = some n ↔ (m : ℚ) * 2 ^ q = n := by
  have hfrac := zpow_eq_div (by decide : 0 < 2) q
  rw [Nat.cast_ofNat] at hfrac
  simp only [integer?, Nat.pow_eq]
  split_ifs with hq hmod
  · rw [Option.some.injEq, hfrac, Int.toNat_of_nonpos (by omega : -q ≤ 0)]
    norm_num
    norm_cast
  · rw [Option.some.injEq, hfrac, Int.toNat_of_nonpos (by omega : q ≤ 0)]
    have hpos : (0 : ℚ) < (2 ^ (-q).toNat : ℕ) := by positivity
    rw [pow_zero, Nat.cast_one, mul_one_div, div_eq_iff hpos.ne', eq_comm (a := (m : ℚ))]
    norm_cast
    rw [Nat.div_eq_iff_eq_mul_left (by positivity) (Nat.dvd_of_mod_eq_zero hmod), eq_comm]
  · rw [hfrac, Int.toNat_of_nonpos (by omega : q ≤ 0)]
    have hpos : (0 : ℚ) < (2 ^ (-q).toNat : ℕ) := by positivity
    rw [pow_zero, Nat.cast_one, mul_one_div, div_eq_iff hpos.ne']
    simp only [false_iff]
    intro h
    norm_cast at h
    exact hmod (h ▸ Nat.mul_mod_left _ _)

/-- Whether the text of the number has a point. -/
def hasPoint (x : Float) : Bool :=
  match Binary.ofFloat x with
  | .finite _ m q => (Binary.integer? m q).all (· < 1000000000000000)
  | _ => false

open Token

/-- Digits in front of the point only. -/
theorem digits_positional {d : Decimal} (hd : 0 ≤ d.exponent) : Digits (positional d) := by
  rw [positional, if_pos hd]
  refine ⟨List.append_ne_nil_of_left_ne_nil (digitChars_ne_nil _) _, ?_⟩
  intro c hc
  rcases List.mem_append.1 hc with hc | hc
  · exact isDigit_of_mem_digitChars hc
  · rw [List.eq_of_mem_replicate hc]
    decide

/-- Digits on both sides of the point. -/
theorem exists_positional_eq {d : Decimal} (hd : d.exponent < 0) :
    ∃ whole fraction, Digits whole ∧ Digits fraction ∧ positional d = whole ++ '.' :: fraction ∧
      ofDigits (whole ++ fraction) = d.digits ∧ -(fraction.length : ℤ) = d.exponent := by
  have hdigits (c : Char) (hc : c ∈ digitChars d.digits) : c.isDigit := isDigit_of_mem_digitChars hc
  rw [positional, if_neg (by omega)]
  dsimp only
  split_ifs with hplaces
  · refine ⟨(digitChars d.digits).take ((digitChars d.digits).length - (-d.exponent).toNat),
      (digitChars d.digits).drop ((digitChars d.digits).length - (-d.exponent).toNat),
      ⟨?_, fun c hc => hdigits c (List.mem_of_mem_take hc)⟩,
      ⟨?_, fun c hc => hdigits c (List.mem_of_mem_drop hc)⟩, rfl, ?_, ?_⟩
    · intro h
      have := congrArg List.length h
      simp only [List.length_take, List.length_nil] at this
      omega
    · intro h
      have := congrArg List.length h
      simp only [List.length_drop, List.length_nil] at this
      omega
    · rw [List.take_append_drop, ofDigits_digitChars]
    · rw [List.length_drop]
      omega
  · refine ⟨['0'], List.replicate ((-d.exponent).toNat - (digitChars d.digits).length) '0' ++
      digitChars d.digits, .ofAll (by decide) rfl,
      ⟨List.append_ne_nil_of_right_ne_nil _ (digitChars_ne_nil _), ?_⟩, rfl, ?_, ?_⟩
    · intro c hc
      rcases List.mem_append.1 hc with hc | hc
      · rw [List.eq_of_mem_replicate hc]
        decide
      · exact hdigits c hc
    · rw [ofDigits_append, ofDigits_append, ofDigits_replicate_zero, ofDigits_digitChars]
      simp [ofDigits]
    · rw [List.length_append, List.length_replicate]
      omega

theorem toList_toString (n : ℕ) : (toString n).toList = digitChars n := by
  change (Nat.repr n).toList = _
  rw [Nat.repr, String.toList_ofList]
  rfl

theorem text_of_isUnsigned {x : Float} {m : ℕ} {q : ℤ} (h : Binary.ofFloat x = .finite false m q) :
    text x = magnitudeText m q := by
  rw [text, h]
  simp

/-- A decimal that is the number, or the shortest one, is read as the number. -/
theorem ofDecimal_eq_self {x : Float} {m : ℕ} {q : ℤ} {d : Decimal}
    (hx : Binary.ofFloat x = .finite false m q)
    (hd : d.value = m * 2 ^ q ∨ 0 < m ∧ d = shortest m q) : ofDecimal d = x := by
  rcases Nat.eq_zero_or_pos m with rfl | hm
  · have hzero : d.digits = 0 := by
      have hvalue := hd.resolve_right fun h => absurd h.1 (by decide)
      rw [Nat.cast_zero, zero_mul, Decimal.value, mul_eq_zero] at hvalue
      exact Nat.cast_eq_zero.1 (hvalue.resolve_right (zpow_ne_zero _ (by norm_num)))
    rw [eq_zero hx, ofDecimal, hzero]
    simp
  · obtain ⟨hc, hq, rfl⟩ := eq_ofCanonical hx hm
    refine ofDecimal_eq hc hq ?_
    rcases hd with hd | ⟨-, rfl⟩
    · exact hd ▸ roundsTo_self
    · exact roundsTo_shortest hc

/-- The text of a number with a point spells it: the number is read back bit for bit. -/
theorem spelling_text {x : Float} (hx : (Binary.ofFloat x).isUnsigned) (h : hasPoint x) :
    Spelling (.float x) (text x).toList := by
  unfold Binary.isUnsigned at hx
  split at hx
  · next m q hfloat =>
    rw [text_of_isUnsigned hfloat]
    simp only [hasPoint, hfloat] at h
    -- It is enough that the decimal of the text is read as the number.
    have spells {whole fraction : List Char} {d : Decimal} (hwhole : Digits whole)
        (hfraction : Digits fraction) (hdigits : ofDigits (whole ++ fraction) = d.digits)
        (hexponent : -(fraction.length : ℤ) = d.exponent)
        (hd : d.value = m * 2 ^ q ∨ 0 < m ∧ d = shortest m q) :
        Spelling (.float x) (whole ++ '.' :: fraction) := by
      have hspells := Spelling.float hwhole hfraction
      rw [hdigits, hexponent] at hspells
      exact ofDecimal_eq_self hfloat hd ▸ hspells
    unfold magnitudeText
    split
    · next n hn =>
      rw [hn, Option.all_some, decide_eq_true_iff] at h
      rw [if_pos h, String.toList_append, toList_toString]
      refine @spells _ ['0'] ⟨10 * n, -1⟩
        ⟨digitChars_ne_nil n, fun c hc => isDigit_of_mem_digitChars hc⟩
        (.ofAll (by decide) rfl) ?_ rfl (.inl ?_)
      · rw [ofDigits_append, ofDigits_digitChars]
        simp [ofDigits, mul_comm]
      · rw [Binary.integer?_eq_some_iff.1 hn, Decimal.value]
        push_cast
        norm_num
        ring
    · next hn =>
      -- Zero is an integer, thus the mantissa is positive.
      have hm : 0 < m := by
        refine Nat.pos_of_ne_zero ?_
        rintro rfl
        have hzero : Binary.integer? 0 q = some 0 := Binary.integer?_eq_some_iff.2 (by simp)
        rw [hn] at hzero
        cases hzero
      obtain ⟨hc, -, -⟩ := eq_ofCanonical hfloat hm
      obtain ⟨whole, fraction, hwhole, hfraction, heq, hdigits, hexponent⟩ :=
        exists_positional_eq (shortest_exponent_neg hc fun n h => by
          rw [Binary.integer?_eq_some_iff.2 h] at hn
          cases hn)
      rw [String.toList_ofList, heq]
      exact spells hwhole hfraction hdigits hexponent (.inr ⟨hm, rfl⟩)
  · next hfloat =>
    simp only [hasPoint, hfloat] at h
    cases h
  · cases hx

/-- The text of a large integer is digits only. -/
theorem digits_text {x : Float} {m : ℕ} {q : ℤ} (hx : Binary.ofFloat x = .finite false m q)
    (h : ¬ hasPoint x) : Digits (text x).toList := by
  rw [text_of_isUnsigned hx]
  simp only [hasPoint, hx] at h
  obtain ⟨n, hn, hlarge⟩ : ∃ n, Binary.integer? m q = some n ∧ ¬ n < 1000000000000000 := by
    cases hn : Binary.integer? m q with
    | none => simp [hn] at h
    | some n => exact ⟨n, rfl, by simpa [hn] using h⟩
  have hvalue := Binary.integer?_eq_some_iff.1 hn
  have hm : 0 < m := by
    refine Nat.pos_of_ne_zero ?_
    rintro rfl
    rw [Nat.cast_zero, zero_mul] at hvalue
    have : n = 0 := by exact_mod_cast hvalue.symm
    omega
  obtain ⟨hc, -, -⟩ := eq_ofCanonical hx hm
  rw [magnitudeText, hn]
  dsimp only
  rw [if_neg hlarge, String.toList_ofList]
  exact digits_positional (shortest_exponent_nonneg hc hvalue (by omega))

end Number

end DocTemplate
