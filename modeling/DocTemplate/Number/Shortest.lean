import DocTemplate.Number.Binary

/-!
# The shortest decimal of a number

A finite positive number `m · 2^q` is the one nearest to every real of an
interval around it, which reaches half way to its two neighbours; the two ends
belong to it iff `m` is even. Of the decimals in that interval, `shortest m q`
is one with the fewest digits, and of those with that many digits the nearest
to the number, the larger one of two equally near.

The decimals with `k` digits form a grid. If a point of the grid lies in the
interval, so does one of the two grid points next to the number, thus only
these two are tried for each `k`. Seventeen digits always suffice.
-/

namespace DocTemplate

namespace Number

/-- The decimal `digits · 10^exponent`. -/
structure Decimal where
  /-- The digits, as a natural number. -/
  digits : Nat
  /-- The power of ten of the last digit. -/
  exponent : Int
  deriving DecidableEq, Repr

/-- The decimal digits of a natural number. -/
def digitChars (n : Nat) : List Char :=
  Nat.toDigits 10 n

/-- The interval of the reals that round to a number, with the number itself,
    over a common denominator. -/
structure Interval where
  /-- Numerator of the lower end. -/
  lower : Nat
  /-- Numerator of the number. -/
  centre : Nat
  /-- Numerator of the upper end. -/
  upper : Nat
  /-- The common denominator. -/
  denominator : Nat
  /-- Whether the ends belong to the interval. -/
  closed : Bool

namespace Interval

/-- The interval of `m · 2^q`. Below a power of two the neighbours are twice as
    dense, so the lower end is nearer; the least power has no denser side. -/
def ofBinary (m : Nat) (q : Int) : Interval :=
  let gap := if m = 0x10000000000000 ∧ q ≠ -1074 then 1 else 2
  let e := q - 2
  let scale := Nat.pow 2 e.toNat
  { lower := (4 * m - gap) * scale
    centre := 4 * m * scale
    upper := (4 * m + 2) * scale
    denominator := Nat.pow 2 (-e).toNat
    closed := m % 2 = 0 }

variable (i : Interval)

/-- The power of ten of the first digit of the number. -/
def magnitude : Int :=
  if i.denominator ≤ i.centre then
    ((digitChars (i.centre / i.denominator)).length : Int) - 1
  else
    -- The inverse has `k` digits, thus the number is near `10^-k`.
    let k := (digitChars (i.denominator / i.centre)).length
    if i.denominator ≤ i.centre * Nat.pow 10 (k - 1) then 1 - (k : Int) else -(k : Int)

/-- Whether the decimal `a · 10^e` lies in the interval. -/
def contains (a : Nat) (e : Int) : Bool :=
  let x := a * Nat.pow 10 e.toNat * i.denominator
  let scale := Nat.pow 10 (-e).toNat
  if i.closed then
    i.lower * scale ≤ x && x ≤ i.upper * scale
  else
    i.lower * scale < x && x < i.upper * scale

/-- The nearest point of the grid of step `10^e` that lies in the interval. -/
def nearest? (e : Int) : Option Decimal :=
  let x := i.centre * Nat.pow 10 (-e).toNat
  let step := i.denominator * Nat.pow 10 e.toNat
  let below := x / step
  let above := below + 1
  if x % step = 0 then
    -- The number is on the grid.
    some ⟨below, e⟩
  else
    match i.contains below e, i.contains above e with
    | true, true => some ⟨if 2 * (x % step) < step then below else above, e⟩
    | true, false => some ⟨below, e⟩
    | false, true => some ⟨above, e⟩
    | false, false => none

end Interval

/-- The decimal without zeros at the end of its digits. -/
def Decimal.normalise (d : Decimal) : Decimal :=
  if _ : d.digits % 10 = 0 ∧ d.digits ≠ 0 then
    normalise ⟨d.digits / 10, d.exponent + 1⟩
  else
    d
termination_by d.digits
decreasing_by exact Nat.div_lt_self (by omega) (by decide)

/-- The shortest decimal that rounds to `m · 2^q`, for a positive `m`. -/
def shortest (m : Nat) (q : Int) : Decimal :=
  let i := Interval.ofBinary m q
  let p := i.magnitude
  let found := (List.range 17).findSome? fun (k : Nat) => i.nearest? (p - k)
  (found.getD ⟨m, 0⟩).normalise

end Number

end DocTemplate
