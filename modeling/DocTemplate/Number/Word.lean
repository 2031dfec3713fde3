/-!
# Sixty-four bit integers

Integers are words of sixty-four bits. Arithmetic on them is that of the
integers wherever the result is a word again, and otherwise fails: nothing
wraps around. Division truncates towards zero; a remainder is defined only
together with its quotient.

* `ofInt?_eq_some_iff`: an integer is a word iff it lies in the range.
-/

namespace DocTemplate

namespace Word

/-- The word of an integer, if the integer is in range. -/
def ofInt? (n : Int) : Option Int64 :=
  if Int64.minValue.toInt ≤ n ∧ n ≤ Int64.maxValue.toInt then some (Int64.ofInt n) else none

/-- The sum, if it is a word. -/
def add? (a b : Int64) : Option Int64 :=
  ofInt? (a.toInt + b.toInt)

/-- The difference, if it is a word. -/
def sub? (a b : Int64) : Option Int64 :=
  ofInt? (a.toInt - b.toInt)

/-- The product, if it is a word. -/
def mul? (a b : Int64) : Option Int64 :=
  ofInt? (a.toInt * b.toInt)

/-- The opposite, if it is a word. -/
def neg? (a : Int64) : Option Int64 :=
  ofInt? (-a.toInt)

/-- The quotient truncated towards zero, if it is a word. -/
def div? (a b : Int64) : Option Int64 :=
  ofInt? (a.toInt.tdiv b.toInt)

/-- The remainder of the truncated quotient, if that quotient is a word. -/
def rem? (a b : Int64) : Option Int64 :=
  (div? a b).bind fun _ => ofInt? (a.toInt.tmod b.toInt)

/-- The word a list of digits spells, if it is in range. -/
def ofNat? (n : Nat) : Option Int64 :=
  ofInt? n

theorem ofInt?_eq_some_iff {n : Int} {w : Int64} : ofInt? n = some w ↔ w.toInt = n := by
  constructor
  · intro h
    unfold ofInt? at h
    split at h
    · rename_i hr
      simp only [Option.some.injEq] at h
      subst h
      exact Int64.toInt_ofInt_of_le hr.1 (Int.lt_of_le_of_lt hr.2 (by decide))
    · cases h
  · rintro rfl
    have h₁ := w.minValue_le_toInt
    have h₂ := w.toInt_le
    simp only [ofInt?, h₁, h₂, and_self, ↓reduceIte, Int64.ofInt_toInt]

end Word

end DocTemplate
