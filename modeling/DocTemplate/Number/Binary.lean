/-!
# Binary floating-point numbers

The sixty-four bits of a number hold a sign, an exponent and a fraction
(IEEE 754 binary64). `Binary.ofFloat` reads them: a finite number is
`± m · 2^q` with a natural number `m` below `2^53`, an infinite one has only its
sign. What is exact about numbers (their digits, their remainders) is computed
on `m` and `q`, in natural numbers.
-/

namespace DocTemplate

namespace Number

/-- What the bits of a number say. -/
inductive Binary where
  /-- No number. -/
  | nan
  /-- One of the infinities. -/
  | infinite (negative : Bool)
  /-- `± m · 2^q`. -/
  | finite (negative : Bool) (m : Nat) (q : Int)
  deriving DecidableEq, Repr

namespace Binary

/-- The number read from its bits. A zero exponent field means a subnormal
    number, with the least exponent and no hidden bit. -/
def ofBits (bits : UInt64) : Binary :=
  let negative := bits >>> 63 == 1
  let exponent := (bits >>> 52 &&& 0x7FF).toNat
  let fraction := (bits &&& 0xFFFFFFFFFFFFF).toNat
  if exponent = 0x7FF then
    if fraction = 0 then infinite negative else nan
  else if exponent = 0 then
    finite negative fraction (-1074)
  else
    finite negative (0x10000000000000 + fraction) ((exponent : Int) - 1075)

/-- The number read from its bits. -/
def ofFloat (x : Float) : Binary :=
  ofBits x.toBits

/-- The integer `m · 2^q`, if it is one. -/
def integer? (m : Nat) (q : Int) : Option Nat :=
  if 0 ≤ q then
    some (m * Nat.pow 2 q.toNat)
  else if m % Nat.pow 2 (-q).toNat = 0 then
    some (m / Nat.pow 2 (-q).toNat)
  else
    none

end Binary

/-- The number `± m · 2^q`, which is one if `m` is below `2^53`, `q` at least
    `-1074` and the product small enough. -/
def ofBinary (negative : Bool) (m : Nat) (q : Int) : Float :=
  let sign := if negative then 0x8000000000000000 else 0
  if m = 0 then
    Float.ofBits (UInt64.ofNat sign)
  else
    -- Fifty-three digits, or fewer if the exponent gets to its end before. The
    -- hidden bit counts one in the exponent field.
    let shift := (min (52 - (m.log2 : Int)) (q + 1074)).toNat
    let field := (q - shift + 1074).toNat
    Float.ofBits (UInt64.ofNat (sign + field * 0x10000000000000 + m * Nat.pow 2 shift))

/-- The number nearest to an integer. -/
def ofInteger (n : Int) : Float :=
  let x := Float.ofNat n.natAbs
  if n < 0 then -x else x

/-- The infinite number. -/
def infinity : Float :=
  1.0 / 0.0

/-- The remainder of the division of `x` by `y` truncated towards zero. It is
    exact, smaller than `y` in magnitude, and has the sign of `x`. -/
def remainder (x y : Float) : Float :=
  match Binary.ofFloat x, Binary.ofFloat y with
  | .finite .., .infinite _ => x
  | .finite negative m q, .finite _ n r =>
    if n = 0 then
      0.0 / 0.0
    else
      -- Both magnitudes as multiples of the smaller power of two.
      let e := min q r
      ofBinary negative ((m * Nat.pow 2 (q - e).toNat) % (n * Nat.pow 2 (r - e).toNat)) e
  | _, _ => 0.0 / 0.0

end Number

end DocTemplate
