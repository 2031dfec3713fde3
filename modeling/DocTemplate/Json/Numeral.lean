import DocTemplate.Json.Basic
import DocTemplate.Number.Notation

/-!
# Numerals of JSON

A numeral is an integer part without leading zeros, and perhaps a fraction and
an exponent. A numeral without the last two is an integer if it fits
sixty-four bits (`-0` does not: it is the negative zero among the floating-point
numbers).

Any other numeral is read as `significand · 10^e`, with as many leading digits
as fit a word of sixty-four bits: further digits of the integer part only count
in the exponent, further digits of the fraction not at all. The significand is
rounded to a number, which is then multiplied with the power of ten or divided
by it, and rounded again; so the result is not always the number nearest to the
numeral. A result that is too large is refused.
-/

namespace DocTemplate

namespace Json

/-- The parts of a numeral as they are read: the significand so far, and its
    power of ten. -/
structure Numeral where
  /-- The value of the digits. -/
  significand : Nat
  /-- The power of ten of the last digit. -/
  exponent : Int

namespace Numeral

/-- The largest significand, and the largest one that takes any further digit. -/
def limit : Nat := UInt64.size - 1

/-- The value of a digit. -/
def digit (c : Char) : Nat :=
  c.toNat - '0'.toNat

/-- The digits of the integer part; those that no longer fit are counted. -/
def integerPart : List Char → Numeral → Numeral
  | [], n => n
  | c :: cs, n =>
    let next := 10 * n.significand + digit c
    if next ≤ limit then integerPart cs { n with significand := next }
    else { n with exponent := cs.length + 1 }

/-- The digits of the fraction; those that no longer fit are dropped. -/
def fractionPart : List Char → Numeral → Numeral
  | [], n => n
  | c :: cs, n =>
    let next := 10 * n.significand + digit c
    if next ≤ limit then fractionPart cs ⟨next, n.exponent - 1⟩ else n

/-- The power of ten with the exponent `n`, at most 308. -/
def power (n : Nat) : Float :=
  Float.ofScientific 1 false n

/-- The number `f · 10^e`; `none` if it is too large. An exponent beyond the
    powers of ten that are numbers is taken in steps. -/
def scale (f : Float) (e : Int) : Option Float :=
  if 0 ≤ e then
    if f == 0.0 then some f
    else if 308 < e then none
    else
      let x := f * power e.toNat
      if x.isInf then none else some x
  else if -308 ≤ e then
    some (f / power (-e).toNat)
  else if f == 0.0 then
    -- Smaller than every positive number.
    some f
  else
    scale (f / power 308) (e + 308)
termination_by (-e).toNat

/-- The bound of exponents; a larger one is not looked at. -/
def maxExponent : Nat := 2147483647

/-- The numeral as a number, with the digits of an exponent part. -/
def toFloat? (n : Numeral) (negativeExponent : Bool) (exponentDigits : List Char) :
    Option Float :=
  let e := Number.ofDigits exponentDigits
  if maxExponent < e then
    if n.significand = 0 ∨ negativeExponent then some 0.0 else none
  else
    scale n.significand.toUInt64.toFloat (n.exponent + if negativeExponent then -(e : Int) else e)

end Numeral

/-- The characters of a numeral at the start of a text, part by part. -/
structure NumeralText where
  /-- Whether there is a sign. -/
  negative : Bool
  /-- The digits before the point. -/
  whole : List Char
  /-- The digits after the point, if there is a point. -/
  fraction : Option (List Char)
  /-- The exponent: whether it has a minus, and its digits. -/
  exponent : Option (Bool × List Char)

namespace NumeralText

/-- The digits in front of a text, one at least, and what follows them. -/
def digits? (cs : List Char) : Option (List Char × List Char) :=
  match cs.takeWhile Char.isDigit with
  | [] => none
  | ds => some (ds, cs.dropWhile Char.isDigit)

/-- Whether a text starts with a minus, and what follows it. -/
def minus : List Char → Bool × List Char
  | '-' :: cs => (true, cs)
  | cs => (false, cs)

/-- The same for an exponent, which may also have a plus. -/
def exponentSign : List Char → Bool × List Char
  | '+' :: cs => (false, cs)
  | cs => minus cs

/-- The fraction in front of a text: a point and its digits. -/
def fraction? : List Char → Option (Option (List Char) × List Char)
  | '.' :: cs => (digits? cs).map fun (ds, rest) => (some ds, rest)
  | cs => some (none, cs)

/-- The exponent in front of a text: a letter, perhaps a sign, and its digits. -/
def exponent? : List Char → Option (Option (Bool × List Char) × List Char)
  | [] => some (none, [])
  | c :: cs =>
    if c = 'e' ∨ c = 'E' then
      (digits? (exponentSign cs).2).map fun (ds, rest) => (some ((exponentSign cs).1, ds), rest)
    else
      some (none, c :: cs)

/-- The numeral in front of a text and what follows it. A leading zero stands
    alone. -/
def read? (text : List Char) : Option (NumeralText × List Char) := do
  let (whole, afterWhole) ← digits? (minus text).2
  if whole.head? = some '0' ∧ 1 < whole.length then none
  let (fraction, afterFraction) ← fraction? afterWhole
  let (exponent, rest) ← exponent? afterFraction
  return (⟨(minus text).1, whole, fraction, exponent⟩, rest)

section Length

variable {cs rest : List Char}

theorem length_minus_le (cs : List Char) : (minus cs).2.length ≤ cs.length := by
  unfold minus
  split
  · exact Nat.le_succ _
  · exact Nat.le_refl _

theorem length_exponentSign_le (cs : List Char) : (exponentSign cs).2.length ≤ cs.length := by
  unfold exponentSign
  split
  · exact Nat.le_succ _
  · exact length_minus_le _

/-- Digits are not nothing. -/
theorem length_lt_of_digits? {ds : List Char} (h : digits? cs = some (ds, rest)) :
    rest.length < cs.length := by
  have happend := congrArg List.length (List.takeWhile_append_dropWhile (p := Char.isDigit) (l := cs))
  unfold digits? at h
  split at h
  · cases h
  · rename_i hne
    cases h
    have := List.length_pos_iff.2 hne
    rw [List.length_append] at happend
    omega

theorem length_le_of_fraction? {fraction : Option (List Char)}
    (h : fraction? cs = some (fraction, rest)) : rest.length ≤ cs.length := by
  unfold fraction? at h
  split at h
  · obtain ⟨⟨ds, r⟩, hd, he⟩ := Option.map_eq_some_iff.1 h
    cases he
    exact Nat.le_succ_of_le (Nat.le_of_lt (length_lt_of_digits? hd))
  · cases h
    exact Nat.le_refl _

theorem length_le_of_exponent? {exponent : Option (Bool × List Char)}
    (h : exponent? cs = some (exponent, rest)) : rest.length ≤ cs.length := by
  unfold exponent? at h
  split at h
  · cases h
    exact Nat.le_refl _
  · rename_i c cs
    split at h
    · obtain ⟨⟨ds, r⟩, hd, he⟩ := Option.map_eq_some_iff.1 h
      cases he
      have hsign := length_exponentSign_le cs
      have hdigits := length_lt_of_digits? hd
      exact Nat.le_succ_of_le (Nat.le_trans (Nat.le_of_lt hdigits) hsign)
    · cases h
      exact Nat.le_refl _

/-- A numeral is not nothing. -/
theorem length_lt_of_read? {t : NumeralText} (h : read? cs = some (t, rest)) :
    rest.length < cs.length := by
  obtain ⟨⟨whole, afterWhole⟩, hwhole, h⟩ := Option.bind_eq_some_iff.1 h
  dsimp only at h
  split at h
  · cases h
  · obtain ⟨⟨fraction, afterFraction⟩, hfraction, h⟩ := Option.bind_eq_some_iff.1 h
    obtain ⟨⟨exponent, r⟩, hexponent, h⟩ := Option.bind_eq_some_iff.1 h
    cases h
    have hminus := length_minus_le cs
    have hwhole := length_lt_of_digits? hwhole
    have hfraction : afterFraction.length ≤ afterWhole.length := length_le_of_fraction? hfraction
    have hexponent : r.length ≤ afterFraction.length := length_le_of_exponent? hexponent
    change r.length < cs.length
    omega

end Length

/-- The value of a numeral; `none` if it is too large. -/
def value? (t : NumeralText) : Option Json :=
  let signed (x : Float) := Json.float (if t.negative then -x else x)
  let whole := Numeral.integerPart t.whole ⟨0, 0⟩
  match t.fraction, t.exponent with
  | none, none =>
    let n := Number.ofDigits t.whole
    if t.negative = false ∧ n ≤ Numeral.limit then some (.int n)
    else if t.negative = true ∧ n ≠ 0 ∧ n ≤ 0x8000000000000000 then some (.int (-n))
    else (whole.toFloat? false []).map signed
  | fraction, exponent =>
    let n := Numeral.fractionPart (fraction.getD []) whole
    let (negative, digits) := exponent.getD (false, [])
    (n.toFloat? negative digits).map signed

end NumeralText

end Json

end DocTemplate
