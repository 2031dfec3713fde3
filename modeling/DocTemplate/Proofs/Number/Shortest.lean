import DocTemplate.Proofs.Number.Decimal

/-!
# The shortest decimal of a number

The decimals of the interval of a number are those that round to it
(`Interval.contains_iff`). One of them is found: the seventeenth digit of a number is worth less
than the interval is long (`ten_zpow_lt`), so that a point of that grid lies in it. Hence the
shortest decimal rounds to its number (`roundsTo_shortest`).

It has digits behind the point iff the number is no integer (`shortest_exponent_nonneg`,
`shortest_exponent_neg`): an integer is on the grid of integers, which is tried before the finer
ones, and no integer is in the interval of a fraction.
-/

namespace DocTemplate

namespace Number

/-- A power as a fraction of natural numbers. -/
theorem zpow_eq_div {b : ℕ} (hb : 0 < b) (e : ℤ) :
    (b : ℚ) ^ e = (b ^ e.toNat : ℕ) / (b ^ (-e).toNat : ℕ) := by
  have hb' : (b : ℚ) ≠ 0 := by exact_mod_cast hb.ne'
  push_cast
  rw [eq_div_iff (pow_ne_zero _ hb'), ← zpow_natCast, ← zpow_natCast, ← zpow_add₀ hb']
  congr 1
  omega

/-! ## The interval of a number -/

namespace Interval

variable {m : ℕ} {q : ℤ}

theorem denominator_pos (m : ℕ) (q : ℤ) : 0 < (ofBinary m q).denominator :=
  Nat.pow_pos (by decide)

/-- The scale of the numerators. -/
theorem scale_eq (m : ℕ) (q : ℤ) :
    ((2 ^ (q - 2).toNat : ℕ) : ℚ) = 2 ^ q / 4 * (ofBinary m q).denominator := by
  have hpow : (2 : ℚ) ^ q / 4 = 2 ^ (q - 2) := by
    rw [zpow_sub₀ (by norm_num)]
    norm_num
  have hfrac := zpow_eq_div (by decide : 0 < 2) (q - 2)
  rw [Nat.cast_ofNat] at hfrac
  have hpos : (((ofBinary m q).denominator : ℕ) : ℚ) ≠ 0 := by
    exact_mod_cast (denominator_pos m q).ne'
  rw [hpow, hfrac]
  exact (div_mul_cancel₀ _ hpos).symm

theorem centre_eq (m : ℕ) (q : ℤ) :
    ((ofBinary m q).centre : ℚ) = m * 2 ^ q * (ofBinary m q).denominator := by
  have hcentre : (ofBinary m q).centre = 4 * m * 2 ^ (q - 2).toNat := rfl
  rw [hcentre, Nat.cast_mul, scale_eq m q]
  push_cast
  ring

theorem upper_eq (m : ℕ) (q : ℤ) :
    ((ofBinary m q).upper : ℚ) = (m + 1 / 2) * 2 ^ q * (ofBinary m q).denominator := by
  have hupper : (ofBinary m q).upper = (4 * m + 2) * 2 ^ (q - 2).toNat := rfl
  rw [hupper, Nat.cast_mul, scale_eq m q]
  push_cast
  ring

theorem lower_eq (hm : 0 < m) (q : ℤ) :
    ((ofBinary m q).lower : ℚ) = (m - halfBelow m q) * 2 ^ q * (ofBinary m q).denominator := by
  have hlower : (ofBinary m q).lower =
      (4 * m - if m = 2 ^ 52 ∧ q ≠ -1074 then 1 else 2) * 2 ^ (q - 2).toNat := rfl
  rw [hlower, Nat.cast_mul, scale_eq m q, halfBelow]
  split_ifs
  · rw [Nat.cast_sub (by omega)]
    push_cast
    ring
  · rw [Nat.cast_sub (by omega)]
    push_cast
    ring

section

variable {n d : ℕ} {y : ℚ}

/-- A decimal over a common denominator. -/
theorem cast_decimal (a : ℕ) (e : ℤ) (d : ℕ) : ((a * 10 ^ e.toNat * d : ℕ) : ℚ) =
    a * 10 ^ e * (d * (10 ^ (-e).toNat : ℕ)) := by
  have hfrac := zpow_eq_div (by decide : 0 < 10) e
  rw [Nat.cast_ofNat] at hfrac
  rw [hfrac]
  push_cast
  field_simp

theorem le_decimal_iff (hd : 0 < d) (h : (n : ℚ) = y * d) (a : ℕ) (e : ℤ) :
    n * 10 ^ (-e).toNat ≤ a * 10 ^ e.toNat * d ↔ y ≤ a * 10 ^ e := by
  have hpos : (0 : ℚ) < d * (10 ^ (-e).toNat : ℕ) := by positivity
  rw [← Nat.cast_le (α := ℚ), cast_decimal, Nat.cast_mul, h, mul_assoc y, mul_le_mul_iff_left₀ hpos]

theorem decimal_le_iff (hd : 0 < d) (h : (n : ℚ) = y * d) (a : ℕ) (e : ℤ) :
    a * 10 ^ e.toNat * d ≤ n * 10 ^ (-e).toNat ↔ a * 10 ^ e ≤ y := by
  have hpos : (0 : ℚ) < d * (10 ^ (-e).toNat : ℕ) := by positivity
  rw [← Nat.cast_le (α := ℚ), cast_decimal, Nat.cast_mul, h, mul_assoc y, mul_le_mul_iff_left₀ hpos]

end

/-- The decimals of the interval are those that round to the number. -/
theorem contains_iff (hm : 0 < m) (q : ℤ) (a : ℕ) (e : ℤ) :
    (ofBinary m q).contains a e ↔ RoundsTo (a * 10 ^ e) m q := by
  have hden := denominator_pos m q
  have hclosed : (ofBinary m q).closed = decide (m % 2 = 0) := rfl
  have hlower := lower_eq hm q
  have hupper := upper_eq m q
  simp only [contains, hclosed, decide_eq_true_eq, Nat.pow_eq]
  split_ifs with heven
  · rw [Bool.and_eq_true, decide_eq_true_iff, decide_eq_true_iff, le_decimal_iff hden hlower,
      decimal_le_iff hden hupper]
    exact ⟨fun h => ⟨h.1, h.2, fun _ => heven⟩, fun h => ⟨h.lower, h.upper⟩⟩
  · rw [Bool.and_eq_true, decide_eq_true_iff, decide_eq_true_iff, ← not_le, ← not_le,
      decimal_le_iff hden hlower, le_decimal_iff hden hupper, not_le, not_le]
    constructor
    · rintro ⟨hlo, hhi⟩
      exact ⟨hlo.le, hhi.le, fun h => absurd h (not_or.2 ⟨hlo.ne', hhi.ne⟩)⟩
    · intro h
      have hne := not_or.1 (mt h.closed heven)
      exact ⟨lt_of_le_of_ne h.lower (Ne.symm hne.1), lt_of_le_of_ne h.upper hne.2⟩

/-- A number between the lower end and the number itself rounds to it, and one up to the upper
    end. -/
theorem roundsTo_of_lt {x : ℚ} (hlo : (m - halfBelow m q) * 2 ^ q < x)
    (hhi : x < (m + 1 / 2) * 2 ^ q) : RoundsTo x m q :=
  ⟨hlo.le, hhi.le, fun h => (h.elim hlo.ne' hhi.ne).elim⟩

/-- The points of a grid next to the number. -/
theorem grid_bounds (m : ℕ) (q e : ℤ) {x step : ℕ}
    (hx : (ofBinary m q).centre * 10 ^ (-e).toNat = x)
    (hstep : (ofBinary m q).denominator * 10 ^ e.toNat = step) :
    ((x / step : ℕ) : ℚ) * 10 ^ e ≤ m * 2 ^ q ∧
      (m : ℚ) * 2 ^ q < ((x / step + 1 : ℕ) : ℚ) * 10 ^ e ∧
      (x % step = 0 ↔ ((x / step : ℕ) : ℚ) * 10 ^ e = m * 2 ^ q) := by
  have hden := denominator_pos m q
  have hcentre := centre_eq m q
  have hpos : 0 < step := hstep ▸ by positivity
  have hcomm (a : ℕ) : a * 10 ^ e.toNat * (ofBinary m q).denominator = step * a := by
    rw [← hstep]
    ring
  have hle : ((x / step : ℕ) : ℚ) * 10 ^ e ≤ m * 2 ^ q := by
    rw [← decimal_le_iff hden hcentre, hcomm, hx]
    exact Nat.mul_div_le x step
  refine ⟨hle, ?_, ?_⟩
  · rw [← not_le, ← decimal_le_iff hden hcentre, hcomm, hx, not_le]
    exact Nat.lt_mul_div_succ x hpos
  · have hdiv := Nat.div_add_mod x step
    rw [← hle.ge_iff_eq, ← le_decimal_iff hden hcentre, hcomm, hx]
    omega

/-- What is found on a grid rounds to the number. -/
theorem nearest?_eq_some (hm : 0 < m) {e : ℤ} {d : Decimal}
    (h : (ofBinary m q).nearest? e = some d) : d.exponent = e ∧ RoundsTo d.value m q := by
  simp only [nearest?, Nat.pow_eq] at h
  split at h
  · next hgrid =>
    obtain rfl := Option.some.inj h
    refine ⟨rfl, ?_⟩
    rw [Decimal.value, (grid_bounds m q e rfl rfl).2.2.1 hgrid]
    exact roundsTo_self
  · split at h
    · next hbelow habove =>
      obtain rfl := Option.some.inj h
      refine ⟨rfl, (contains_iff hm q _ e).1 ?_⟩
      dsimp only
      split_ifs
      · exact hbelow
      · exact habove
    · next hbelow _ =>
      obtain rfl := Option.some.inj h
      exact ⟨rfl, (contains_iff hm q _ e).1 hbelow⟩
    · next habove =>
      obtain rfl := Option.some.inj h
      exact ⟨rfl, (contains_iff hm q _ e).1 habove⟩
    · cases h

/-- Something is found on a grid that the number is on. -/
theorem isSome_nearest?_of_eq {e : ℤ} {a : ℕ} (h : (a : ℚ) * 10 ^ e = m * 2 ^ q) :
    ((ofBinary m q).nearest? e).isSome := by
  obtain ⟨hle, hlt, hgrid⟩ := grid_bounds m q e rfl rfl
  have hpos : (0 : ℚ) < 10 ^ e := zpow_pos (by norm_num) e
  rw [← h, mul_le_mul_iff_left₀ hpos, Nat.cast_le] at hle
  rw [← h, mul_lt_mul_iff_left₀ hpos, Nat.cast_lt, Nat.lt_succ_iff] at hlt
  simp only [nearest?, Nat.pow_eq]
  rw [if_pos (hgrid.2 (by rw [← h, Nat.le_antisymm hle hlt]))]
  rfl

/-- Something is found on a grid that is finer than the interval is long. -/
theorem isSome_nearest?_of_lt (hm : 0 < m) {e : ℤ}
    (h : (10 : ℚ) ^ e < (1 / 2 + halfBelow m q) * 2 ^ q) :
    ((ofBinary m q).nearest? e).isSome := by
  obtain ⟨hle, hlt, -⟩ := grid_bounds m q e rfl rfl
  have hpow : (0 : ℚ) < 2 ^ q := zpow_pos (by norm_num) q
  have hhalf := halfBelow_pos m q
  simp only [nearest?, Nat.pow_eq]
  split
  · rfl
  · split
    · rfl
    · rfl
    · rfl
    · next hbelow habove =>
      -- The two points would be outside, on both sides.
      exfalso
      rw [← Bool.not_eq_true, contains_iff hm] at hbelow habove
      have hbelow := mt (fun h => roundsTo_of_lt h (hle.trans_lt (by nlinarith))) hbelow
      have habove := mt (roundsTo_of_lt (lt_of_le_of_lt (by nlinarith) hlt)) habove
      push_cast at habove
      linarith

/-- The power of ten of the first digit is at most the number. -/
theorem magnitude_le (hm : 0 < m) (q : ℤ) : (10 : ℚ) ^ (ofBinary m q).magnitude ≤ m * 2 ^ q := by
  have hden := denominator_pos m q
  have hcentre := centre_eq m q
  have hpos : 0 < (ofBinary m q).centre := Nat.mul_pos (by omega) (Nat.pow_pos (by decide))
  have hup {k : ℕ} (h : 10 ^ k * (ofBinary m q).denominator ≤ (ofBinary m q).centre) :
      (10 : ℚ) ^ (k : ℤ) ≤ m * 2 ^ q := by
    simpa using (decimal_le_iff hden hcentre 1 k).1 (by simpa using h)
  have hdown {k : ℕ} (h : (ofBinary m q).denominator ≤ (ofBinary m q).centre * 10 ^ k) :
      (10 : ℚ) ^ (-(k : ℤ)) ≤ m * 2 ^ q := by
    simpa using (decimal_le_iff hden hcentre 1 (-k)).1 (by simpa using h)
  simp only [magnitude, Nat.pow_eq]
  split_ifs with hlarge hsmall
  · generalize hlength : (digitChars ((ofBinary m q).centre / (ofBinary m q).denominator)).length = l
    have hl : 0 < l := hlength ▸ List.length_pos_iff.2 (digitChars_ne_nil _)
    have hquot : 10 ^ (l - 1) ≤ (ofBinary m q).centre / (ofBinary m q).denominator :=
      pow_le_of_lt_length_digitChars (Nat.div_pos hlarge hden) (by omega)
    rw [Nat.le_div_iff_mul_le hden] at hquot
    rw [show (l : ℤ) - 1 = (l - 1 : ℕ) by omega]
    exact hup hquot
  · generalize hlength : (digitChars ((ofBinary m q).denominator / (ofBinary m q).centre)).length = l
      at hsmall ⊢
    have hl : 0 < l := hlength ▸ List.length_pos_iff.2 (digitChars_ne_nil _)
    rw [show 1 - (l : ℤ) = -(l - 1 : ℕ) by omega]
    exact hdown hsmall
  · have hquot := lt_pow_length_digitChars ((ofBinary m q).denominator / (ofBinary m q).centre)
    rw [Nat.div_lt_iff_lt_mul hpos, mul_comm] at hquot
    exact hdown hquot.le

theorem magnitude_nonneg (h : 1 ≤ (m : ℚ) * 2 ^ q) : 0 ≤ (ofBinary m q).magnitude := by
  have hle := (decimal_le_iff (denominator_pos m q) (centre_eq m q) 1 0).2 (by simpa using h)
  simp only [Int.toNat_zero, pow_zero, one_mul, neg_zero, mul_one] at hle
  have hlength := List.length_pos_iff.2
    (digitChars_ne_nil ((ofBinary m q).centre / (ofBinary m q).denominator))
  rw [magnitude, if_pos hle]
  omega

end Interval

/-! ## The shortest decimal -/

/-- Zeros at the end of the digits may be left out. -/
theorem Decimal.value_normalise (d : Decimal) : d.normalise.value = d.value := by
  induction d using Decimal.normalise.induct with
  | case1 d h ih =>
    rw [normalise, dif_pos h, ih, value, value]
    have hdigits : d.digits / 10 * 10 = d.digits := Nat.div_mul_cancel (Nat.dvd_of_mod_eq_zero h.1)
    rw [zpow_add₀ (by norm_num), zpow_one, mul_comm (_ ^ d.exponent), ← mul_assoc]
    dsimp only
    rw [← hdigits]
    push_cast
    simp
  | case2 d h => rw [normalise, dif_neg h]

theorem Decimal.exponent_le_normalise (d : Decimal) : d.exponent ≤ d.normalise.exponent := by
  induction d using Decimal.normalise.induct with
  | case1 d h ih =>
    rw [normalise, dif_pos h]
    dsimp only at ih
    omega
  | case2 d h => rw [normalise, dif_neg h]

/-- The seventeenth digit of a number is worth less than its interval is long. -/
theorem ten_zpow_lt {m : ℕ} {q p : ℤ} (hc : IsCanonical m q) (hp : (10 : ℚ) ^ p ≤ m * 2 ^ q) :
    (10 : ℚ) ^ (p - 16) < (1 / 2 + halfBelow m q) * 2 ^ q := by
  have hpow : (0 : ℚ) < 2 ^ q := zpow_pos (by norm_num) q
  have hm : (m : ℚ) < (1 / 2 + halfBelow m q) * 10 ^ 16 := by
    have hlt : (m : ℚ) < 2 ^ 53 := by exact_mod_cast hc.lt
    rw [halfBelow]
    split_ifs with h
    · rw [h.1]
      norm_num
    · norm_num at hlt ⊢
      linarith
  rw [zpow_sub₀ (by norm_num), div_lt_iff₀ (by positivity)]
  calc (10 : ℚ) ^ p ≤ m * 2 ^ q := hp
    _ < (1 / 2 + halfBelow m q) * 10 ^ 16 * 2 ^ q := mul_lt_mul_of_pos_right hm hpow
    _ = (1 / 2 + halfBelow m q) * 2 ^ q * 10 ^ (16 : ℤ) := by
      norm_cast
      ring

/-- The first number below a bound with a value. -/
theorem findSome?_range_eq_some {α : Type} {f : ℕ → Option α} {n : ℕ} {a : α}
    (h : (List.range n).findSome? f = some a) :
    ∃ k < n, f k = some a ∧ ∀ j < k, f j = none := by
  induction n with
  | zero => cases h
  | succ n ih =>
    rw [List.range_succ, List.findSome?_append, Option.or_eq_some_iff] at h
    rcases h with h | ⟨hnone, h⟩
    · obtain ⟨k, hk, hfound⟩ := ih h
      exact ⟨k, Nat.lt_succ_of_lt hk, hfound⟩
    · rw [List.findSome?_singleton] at h
      rw [List.findSome?_eq_none_iff] at hnone
      exact ⟨n, Nat.lt_succ_self n, h, fun j hj => hnone j (List.mem_range.2 hj)⟩

/-- The shortest decimal is found on the first grid of seventeen that has one. -/
theorem exists_shortest_eq {m : ℕ} {q : ℤ} (hc : IsCanonical m q) :
    ∃ (k : ℕ) (d : Decimal), k < 17 ∧
      (Interval.ofBinary m q).nearest? ((Interval.ofBinary m q).magnitude - k) = some d ∧
      (∀ j < k, (Interval.ofBinary m q).nearest? ((Interval.ofBinary m q).magnitude - j) = none) ∧
      shortest m q = d.normalise := by
  have hlast : ((Interval.ofBinary m q).nearest?
      ((Interval.ofBinary m q).magnitude - (16 : ℕ))).isSome :=
    Interval.isSome_nearest?_of_lt hc.pos (ten_zpow_lt hc (Interval.magnitude_le hc.pos q))
  obtain ⟨d, hd⟩ := Option.isSome_iff_exists.1 <| (@List.findSome?_isSome_iff _ _
    (fun k : ℕ => (Interval.ofBinary m q).nearest? ((Interval.ofBinary m q).magnitude - k))
    (List.range 17)).2 ⟨16, List.mem_range.2 (by decide), hlast⟩
  obtain ⟨k, hk, hfound, hnone⟩ := findSome?_range_eq_some hd
  exact ⟨k, d, hk, hfound, hnone, by simp only [shortest, hd, Option.getD_some]⟩

/-- The shortest decimal of a number rounds to it. -/
theorem roundsTo_shortest {m : ℕ} {q : ℤ} (hc : IsCanonical m q) :
    RoundsTo (shortest m q).value m q := by
  obtain ⟨k, d, -, hd, -, heq⟩ := exists_shortest_eq hc
  rw [heq, Decimal.value_normalise]
  exact (Interval.nearest?_eq_some hc.pos hd).2

/-- The shortest decimal of an integer has no digits behind the point. -/
theorem shortest_exponent_nonneg {m n : ℕ} {q : ℤ} (hc : IsCanonical m q) (hn : (m : ℚ) * 2 ^ q = n)
    (hpos : 0 < n) : 0 ≤ (shortest m q).exponent := by
  obtain ⟨k, d, hk, hd, hnone, heq⟩ := exists_shortest_eq hc
  rw [heq]
  refine le_trans ?_ d.exponent_le_normalise
  rw [(Interval.nearest?_eq_some hc.pos hd).1]
  by_contra hneg
  -- The grid of the integers would have been tried before.
  have hmag := Interval.magnitude_nonneg (m := m) (q := q) (by rw [hn]; exact_mod_cast hpos)
  have hgrid : ((Interval.ofBinary m q).nearest? 0).isSome :=
    Interval.isSome_nearest?_of_eq (by rw [zpow_zero, mul_one, hn])
  have := hnone (Interval.ofBinary m q).magnitude.toNat (by omega)
  rw [Int.toNat_of_nonneg hmag, sub_self] at this
  rw [this] at hgrid
  cases hgrid

/-- The shortest decimal of a number that is no integer has some. -/
theorem shortest_exponent_neg {m : ℕ} {q : ℤ} (hc : IsCanonical m q)
    (h : ∀ n : ℕ, (m : ℚ) * 2 ^ q ≠ n) : (shortest m q).exponent < 0 := by
  by_contra hneg
  rw [not_lt] at hneg
  -- The decimal would be an integer, and the number a fraction of one.
  obtain ⟨n, hn⟩ : ∃ n : ℕ, (shortest m q).value = n := by
    refine ⟨(shortest m q).digits * 10 ^ (shortest m q).exponent.toNat, ?_⟩
    rw [Decimal.value, ← Int.toNat_of_nonneg hneg, zpow_natCast]
    push_cast
    rfl
  have hround := roundsTo_shortest hc
  rw [hn] at hround
  have hhalf := halfBelow_le m q
  rcases le_or_gt 0 q with hq | hq
  · refine h (m * 2 ^ q.toNat) ?_
    rw [← Int.toNat_of_nonneg hq, zpow_natCast]
    push_cast
    rfl
  · have hpow : (0 : ℚ) < 2 ^ q := zpow_pos (by norm_num) q
    obtain ⟨a, ha⟩ : ∃ a : ℕ, (n : ℚ) = a * 2 ^ q := by
      refine ⟨n * 2 ^ (-q).toNat, ?_⟩
      push_cast
      rw [mul_assoc, ← zpow_natCast, ← zpow_add₀ (by norm_num), Int.toNat_of_nonneg (by omega)]
      simp
    have hlo := hround.lower
    have hhi := hround.upper
    rw [ha, mul_le_mul_iff_left₀ hpow] at hlo hhi
    have hlt : (m : ℚ) < a + 1 := by linarith
    have hgt : (a : ℚ) < m + 1 := by linarith
    norm_cast at hlt hgt
    obtain rfl : a = m := by omega
    exact h n ha.symm

end Number

end DocTemplate
