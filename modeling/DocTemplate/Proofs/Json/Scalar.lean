import DocTemplate.Json.Reader
import DocTemplate.Json.Writer
import DocTemplate.Proofs.Number.Digits

/-!
# Scalars that are read back

A text is read back from between its quotes, whatever its characters are, and an integer that
fits sixty-four bits is read back from its digits, unless what follows it could be a part of
the numeral (`Json.Ends`).

* `Json.Reader.quoted?_quote`: the characters of a text, as numbers;
* `Json.Reader.text?_toNat`: the text that these numbers stand for;
* `Json.read?_integer`: the integer of a numeral.
-/

namespace DocTemplate

namespace Json

/-! ## Texts -/

namespace Reader

/-- The escape of a control character has its number. -/
theorem hex4?_hexChar {n : Nat} (h : n < 0x20) :
    hex4? '0' '0' (hexChar (n / 16)) (hexChar (n % 16)) = some n := by
  interval_cases n <;> rfl

/-- A character that is written is read. -/
theorem quoted?_escape (read : List Nat) (c : Char) (cs : List Char) :
    quoted? read (escape c ++ cs) = quoted? (c.toNat :: read) cs := by
  unfold escape
  split
  · simp [quoted?, escaped?]
  · simp [quoted?, escaped?]
  · simp [quoted?, escaped?]
  · simp [quoted?, escaped?]
  · simp [quoted?, escaped?]
  · simp [quoted?, escaped?]
  · simp [quoted?, escaped?]
  · rename_i hquote hbackslash _ _ _ _ _
    split
    · rename_i hlt
      simp only [List.cons_append, List.nil_append, quoted?, hex4?_hexChar hlt]
    · rename_i hlt
      rw [List.singleton_append, quoted?, if_neg (not_or.2 ⟨hbackslash, hlt⟩)]
      · exact hquote
      · exact fun _ _ _ _ _ h _ => hbackslash h
      · exact fun _ _ h _ => hbackslash h

theorem quoted?_quote (s : String) (rest : List Char) :
    ∃ text, quote s ++ rest = '"' :: text ∧
      quoted? [] text = some (s.toList.map Char.toNat, rest) := by
  have hread : ∀ (cs : List Char) (read : List Nat),
      quoted? read (cs.flatMap escape ++ '"' :: rest) =
        some (read.reverse ++ cs.map Char.toNat, rest) := by
    intro cs
    induction cs with
    | nil => simp [quoted?]
    | cons c cs ih => simp [quoted?_escape, ih]
  exact ⟨s.toList.flatMap escape ++ '"' :: rest, by simp [quote], hread s.toList []⟩

/-- The number of a character is no half of a surrogate pair. -/
theorem unit?_toNat (c : Char) : unit? c.toNat = some c := by
  have hvalid := c.valid
  have hnot : ¬ (0xD800 ≤ c.toNat ∧ c.toNat ≤ 0xDFFF) := by
    simp only [UInt32.isValidChar, Nat.isValidChar] at hvalid
    simp only [Char.toNat]
    omega
  rw [unit?, if_neg hnot, Char.ofNat_toNat]

theorem pair?_toNat (c : Char) (n : Nat) : pair? c.toNat n = none := by
  have hvalid := c.valid
  refine if_neg ?_
  simp only [UInt32.isValidChar, Nat.isValidChar] at hvalid
  simp only [Char.toNat]
  omega

theorem characters?_toNat (read cs : List Char) :
    characters? read (cs.map Char.toNat) = some (read.reverse ++ cs) := by
  induction cs generalizing read with
  | nil => simp [characters?]
  | cons c cs ih =>
    cases cs with
    | nil => simp [characters?, unit?_toNat]
    | cons d cs =>
      have ih := ih (c :: read)
      simp only [List.map_cons] at ih ⊢
      simp [characters?, pair?_toNat, unit?_toNat, ih]

theorem text?_toNat (s : String) : text? (s.toList.map Char.toNat) = some s := by
  simp [text?, characters?_toNat]

end Reader

/-! ## Words and numerals -/

/-- What follows a numeral is not a part of it. -/
def Ends (rest : List Char) : Prop :=
  ∀ c ∈ rest.head?, c.isDigit = false ∧ c ≠ '.' ∧ c ≠ 'e' ∧ c ≠ 'E'

theorem ends_nil : Ends [] := by
  rintro c ⟨⟩

theorem ends_of_head {c : Char} {cs : List Char}
    (h : (c.isDigit || c == '.' || c == 'e' || c == 'E') = false) : Ends (c :: cs) := by
  rintro _ ⟨⟩
  simpa [Bool.or_eq_false_iff, and_assoc] using h

namespace NumeralText

/-- The digits of a natural number, with a minus or without. -/
theorem read?_digits {negative : Bool} (sign : List Char) {rest : List Char} {n : Nat}
    (hsign : minus (sign ++ Number.digitChars n ++ rest) =
      (negative, Number.digitChars n ++ rest)) (hrest : Ends rest) :
    read? (sign ++ Number.digitChars n ++ rest) =
      some (⟨negative, Number.digitChars n, none, none⟩, rest) := by
  obtain ⟨htake, hdrop⟩ := Number.takeWhile_isDigit_append
    (fun c hc => Number.isDigit_of_mem_digitChars (n := n) hc) fun c hc => (hrest c hc).1
  have hdigits : digits? (Number.digitChars n ++ rest) = some (Number.digitChars n, rest) := by
    rw [digits?, htake, hdrop]
    cases h : Number.digitChars n with
    | nil => exact absurd h (Number.digitChars_ne_nil n)
    | cons c cs => rfl
  have hzero : ¬ ((Number.digitChars n).head? = some '0' ∧ 1 < (Number.digitChars n).length) := by
    rintro ⟨hhead, hlength⟩
    obtain rfl := Number.digitChars_cons_zero hhead
    exact absurd hlength (by decide)
  have hfraction : fraction? rest = some (none, rest) := by
    unfold fraction?
    split
    · exact absurd rfl (hrest '.' rfl).2.1
    · rfl
  have hexponent : exponent? rest = some (none, rest) := by
    cases rest with
    | nil => rfl
    | cons c cs =>
      obtain ⟨-, -, he, hE⟩ := hrest c rfl
      rw [exponent?, if_neg (by simp [he, hE])]
  rw [read?, hsign]
  simp only [hdigits, Option.bind_eq_bind, Option.bind_some, if_neg hzero, hfraction, hexponent]
  rfl

end NumeralText

/-- The integers that stay integers when they are read. -/
def FitsWord (n : Int) : Prop :=
  -0x8000000000000000 ≤ n ∧ n < 0x10000000000000000

/-- An integer is read back from its numeral. -/
theorem read?_integer {n : Int} {rest : List Char} (hn : FitsWord n) (hrest : Ends rest) :
    ∃ t, NumeralText.read? (integer n ++ rest) = some (t, rest) ∧ t.value? = some (.int n) := by
  by_cases hneg : n < 0
  · refine ⟨⟨true, Number.digitChars n.natAbs, none, none⟩, ?_, ?_⟩
    · rw [integer, if_pos hneg]
      exact NumeralText.read?_digits ['-'] (by simp [NumeralText.minus]) hrest
    · obtain ⟨hlower, -⟩ := hn
      have habs : ((n.natAbs : Nat) : Int) = -n := by omega
      have hne : n.natAbs ≠ 0 := by omega
      have hle : n.natAbs ≤ 0x8000000000000000 := by omega
      simp [NumeralText.value?, hne, hle, habs]
  · refine ⟨⟨false, Number.digitChars n.natAbs, none, none⟩, ?_, ?_⟩
    · rw [integer, if_neg hneg]
      refine NumeralText.read?_digits [] ?_ hrest
      cases hdigits : Number.digitChars n.natAbs with
      | nil => exact absurd hdigits (Number.digitChars_ne_nil _)
      | cons c cs =>
        have hc : c.isDigit := Number.isDigit_of_mem_digitChars (n := n.natAbs) (by simp [hdigits])
        unfold NumeralText.minus
        split
        · simp_all
        · rfl
    · obtain ⟨-, hupper⟩ := hn
      have habs : ((n.natAbs : Nat) : Int) = n := by omega
      have hle : n.natAbs ≤ Numeral.limit := by
        simp only [Numeral.limit, UInt64.size]
        omega
      simp [NumeralText.value?, hle, habs]

end Json

end DocTemplate
