import DocTemplate.Number.Shortest

/-!
# Numbers as text

A number is written positionally, never with an exponent, by the fewest digits
that read back (`Number.shortest`). An integer below `10^15` keeps one decimal
place, `2.0`, which tells it from an integer value; a larger one has none.

In the other direction `ofDecimal` is the number nearest to a decimal, and
`ofText?` reads the usual spellings, with and without an exponent.
-/

namespace DocTemplate

namespace Number

/-- The digits of a decimal with the point in its place. -/
def positional (d : Decimal) : List Char :=
  let digits := digitChars d.digits
  if 0 ≤ d.exponent then
    digits ++ List.replicate d.exponent.toNat '0'
  else
    let places := (-d.exponent).toNat
    if places < digits.length then
      let whole := digits.length - places
      digits.take whole ++ '.' :: digits.drop whole
    else
      '0' :: '.' :: (List.replicate (places - digits.length) '0' ++ digits)

/-- The magnitude `m · 2^q` as text. -/
def magnitudeText (m : Nat) (q : Int) : String :=
  match Binary.integer? m q with
  | some n =>
    if n < 1000000000000000 then toString n ++ ".0" else String.ofList (positional (shortest m q))
  | none => String.ofList (positional (shortest m q))

/-- The number as text. -/
def text (x : Float) : String :=
  match Binary.ofFloat x with
  | .nan => "NaN"
  | .infinite negative => (if negative then "-" else "") ++ "inf"
  | .finite negative m q => (if negative then "-" else "") ++ magnitudeText m q

/-- The number nearest to `digits · 10^exponent`. Far outside the range of
    numbers the answer does not depend on the digits. -/
def ofDecimal (d : Decimal) : Float :=
  let length : Int := (digitChars d.digits).length
  if d.digits = 0 ∨ d.exponent + length < -400 then
    0.0
  else if 400 < d.exponent + length then
    infinity
  else if 0 ≤ d.exponent then
    Float.ofScientific d.digits false d.exponent.toNat
  else
    Float.ofScientific d.digits true (-d.exponent).toNat

/-- The value of a list of digits. -/
def ofDigits (cs : List Char) : Nat :=
  cs.foldl (fun n c => 10 * n + (c.toNat - '0'.toNat)) 0

/-- An exponent part such as `e-5`; nothing reads as zero. -/
def exponent? : List Char → Option Int
  | [] => some 0
  | e :: cs =>
    if e = 'e' ∨ e = 'E' then
      let (negative, digits) :=
        match cs with
        | '-' :: ds => (true, ds)
        | '+' :: ds => (false, ds)
        | ds => (false, ds)
      if digits ≠ [] ∧ digits.all Char.isDigit then
        some (if negative then -(ofDigits digits : Int) else ofDigits digits)
      else
        none
    else
      none

/-- A decimal without sign: digits around a point, of which one side may be
    empty, and perhaps an exponent. -/
def unsigned? (cs : List Char) : Option Float :=
  let whole := cs.takeWhile Char.isDigit
  let rest := cs.dropWhile Char.isDigit
  let (fraction, rest) :=
    match rest with
    | '.' :: ds => (ds.takeWhile Char.isDigit, ds.dropWhile Char.isDigit)
    | ds => ([], ds)
  if whole = [] ∧ fraction = [] then
    none
  else
    (exponent? rest).map fun e => ofDecimal ⟨ofDigits (whole ++ fraction), e - fraction.length⟩

/-- The number a text spells, if it spells one. -/
def ofText? (s : String) : Option Float :=
  let (negative, cs) :=
    match s.toList with
    | '-' :: cs => (true, cs)
    | '+' :: cs => (false, cs)
    | cs => (false, cs)
  let magnitude? :=
    match String.ofList (cs.map Char.toLower) with
    | "inf" | "infinity" => some infinity
    | "nan" => some (0.0 / 0.0)
    | _ => unsigned? cs
  magnitude?.map fun x => if negative then -x else x

end Number

end DocTemplate
