import DocTemplate.Proofs.Expr.Numeral
import DocTemplate.Proofs.Expr.Readable
import DocTemplate.Proofs.Text.Search

/-!
# Literals in texts

The text of a literal spells its token (`Expr.spelling_literalText`): a quote is doubled in a text
between quotes, and an integer is written by its digits. Only a number may be found as another
token (`Expr.NumberShown`): without a point as an integer value, if it fits, and infinity as a
name.
-/

namespace DocTemplate

namespace Text

/-- The first occurrence of a character. -/
theorem find?_singleton (c : Char) (cs : List Char) :
    (find? [c] cs = none ∧ c ∉ cs) ∨ ∃ before after, find? [c] cs = some (before, after) ∧
      c ∉ before ∧ cs = before ++ c :: after := by
  cases h : find? [c] cs with
  | none =>
    refine .inl ⟨rfl, fun hmem => ?_⟩
    obtain ⟨before, after, rfl⟩ := List.append_of_mem hmem
    exact find?_eq_none_iff.1 h before after (List.append_cons _ _ _)
  | some found =>
    obtain ⟨before, after⟩ := found
    have hfirst := find?_eq_some_iff.1 h
    have heq : cs = before ++ c :: after := hfirst.text_eq.trans (List.append_cons _ _ _).symm
    refine .inr ⟨before, after, rfl, fun hmem => ?_, heq⟩
    -- One before it would have less before it.
    obtain ⟨front, back, rfl⟩ := List.append_of_mem hmem
    have hother : front ++ c :: back ++ c :: after = front ++ [c] ++ (back ++ c :: after) := by simp
    have hle := hfirst.length_le (heq.trans hother)
    simp at hle

end Text

namespace Token

theorem doubled_of_notMem {cs : List Char} (h : '\'' ∉ cs) : doubled cs = cs := by
  induction cs with
  | nil => rfl
  | cons c cs ih =>
    rw [List.mem_cons, not_or] at h
    rw [doubled_cons_of_ne (Ne.symm h.1), ih h.2]

theorem doubled_append (cs ds : List Char) : doubled (cs ++ ds) = doubled cs ++ doubled ds :=
  List.flatMap_append

/-- Doubling the quotes between the pieces of a text. -/
theorem intercalate_pieces (cs : List Char) :
    ['\'', '\''].intercalate (Text.pieces ['\''] cs) = doubled cs := by
  fun_induction Text.pieces ['\''] cs with
  | case1 cs h => cases h
  | case2 cs _ hnone =>
    obtain ⟨-, hmem⟩ | ⟨before, after, hfind, -⟩ := Text.find?_singleton '\'' cs
    · simp [doubled_of_notMem hmem]
    · rw [hnone] at hfind
      cases hfind
  | case3 cs _ before after hsome ih =>
    obtain ⟨hnone, -⟩ | ⟨before', after', hfind, hmem, rfl⟩ := Text.find?_singleton '\'' cs
    · rw [hnone] at hsome
      cases hsome
    · rw [hsome] at hfind
      obtain ⟨rfl, rfl⟩ := Prod.mk.inj (Option.some.inj hfind)
      obtain ⟨p, ps, hp⟩ := List.exists_cons_of_ne_nil (Text.pieces_ne_nil ['\''] after)
      rw [hp] at ih ⊢
      rw [List.intercalate_cons_cons, ih, doubled_append, doubled_of_notMem hmem,
        doubled_cons_quote]
      simp

end Token

namespace Expr

open Token

theorem eq_toList_of_spelling {name : String} {cs : List Char}
    (h : Spelling (.name name) cs) : cs = name.toList := by
  cases h
  rw [String.toList_ofList]

/-- The text of a literal other than a number spells its token. -/
theorem spelling_literalText {v : Value} {t : Token} (hv : literalToken? v = some t)
    (ht : t.Spelled) (hfloat : ∀ x, v ≠ .float x) : t.Spelling (literalText v).toList := by
  unfold literalToken? at hv
  split at hv
  · obtain rfl := Option.some.inj hv
    exact @Spelling.ofAll 'n' ['u', 'l', 'l'] rfl rfl
  · obtain rfl := Option.some.inj hv
    exact @Spelling.ofAll 't' ['r', 'u', 'e'] rfl rfl
  · obtain rfl := Option.some.inj hv
    exact @Spelling.ofAll 'f' ['a', 'l', 's', 'e'] rfl rfl
  · next n =>
    obtain rfl := Option.some.inj hv
    obtain ⟨ds, hds⟩ := ht
    cases hds with
    | int hds hn =>
      have htext : (literalText (.int n)).toList = Number.digitChars (Number.ofDigits ds) := by
        rw [literalText.eq_3 _ (by nofun) (by nofun), Value.text, hn]
        exact Number.toList_toString _
      rw [htext]
      exact .int ⟨Number.digitChars_ne_nil _, fun c hc => Number.isDigit_of_mem_digitChars hc⟩
        (by rw [Number.ofDigits_digitChars, hn])
  · next x => exact absurd rfl (hfloat x)
  · next s =>
    obtain rfl := Option.some.inj hv
    have htext : (literalText (.string s)).toList = '\'' :: doubled s.toList ++ ['\''] := by
      rw [literalText, String.toList_append, String.toList_append, String.toList_intercalate,
        Text.map_toList_splitOn]
      exact congrArg (fun cs => '\'' :: (cs ++ ['\''])) (intercalate_pieces s.toList)
    rw [htext]
    exact .string s
  · cases hv

/-! ## Numbers -/

/-- The token that the text of a literal is found as: a number without a point is found as an
    integer, if it fits, or infinity as a name. -/
def shownToken? : Value → Option Token
  | .float x =>
    if Number.hasPoint x then some (.float x)
    else
      match Number.Binary.ofFloat x with
      | .infinite _ => some (.name "inf")
      | _ => (Word.ofNat? (Number.ofDigits (Number.text x).toList)).map .int
  | v => literalToken? v

/-- How a number is written, and the token that is found: the number, the integer value of the
    digits, or a name. -/
inductive NumberShown (x : Float) : List Char → Option Token → Prop
  | point {cs : List Char} (h : Spelling (.float x) cs) : NumberShown x cs (some (.float x))
  | digits {ds : List Char} (h : Digits ds) :
    NumberShown x ds ((Word.ofNat? (Number.ofDigits ds)).map .int)
  | infinity : NumberShown x ['i', 'n', 'f'] (some (.name "inf"))

theorem numberShown {x : Float} (hx : (Number.Binary.ofFloat x).isUnsigned) :
    NumberShown x (Number.text x).toList (shownToken? (.float x)) := by
  rw [shownToken?]
  split_ifs with hpoint
  · exact .point (Number.spelling_text hx hpoint)
  · unfold Number.Binary.isUnsigned at hx
    split at hx
    · next hfloat =>
      rw [hfloat]
      exact .digits (Number.digits_text hfloat hpoint)
    · next hfloat =>
      rw [Number.text, hfloat]
      exact .infinity
    · cases hx

/-- The number in front of another text. -/
theorem NumberShown.ofChars?_append {x : Float} {cs : List Char} {t? : Option Token}
    (h : NumberShown x cs t?) {rest : List Char} (hrest : Detached rest) :
    ofChars? (cs ++ rest) = t?.bind fun t => (ofChars? rest).map (t :: ·) := by
  cases h with
  | point h => exact Token.ofChars?_append h (hrest.apart nofun)
  | digits hdigits =>
    cases hn : Word.ofNat? (Number.ofDigits cs) with
    | none => exact ofChars?_digits hdigits hn (hrest.apart (t := .int 0) nofun)
    | some n =>
      exact Token.ofChars?_append (.int hdigits (Word.ofInt?_eq_some_iff.1 hn)) (hrest.apart nofun)
  | infinity =>
    exact Token.ofChars?_append (@Spelling.ofAll 'i' ['n', 'f'] rfl rfl) (hrest.apart nofun)

theorem isUnsigned_of_spelled {x : Float} (h : (Token.float x).Spelled) :
    (Number.Binary.ofFloat x).isUnsigned := by
  obtain ⟨_, h⟩ := h
  cases h
  exact Number.isUnsigned_ofDecimal _

/-! ## Literals in front of a text -/

theorem ne_mark_of_literalToken? {v : Value} {t : Token} (h : literalToken? v = some t) (m : Mark) :
    t ≠ .mark m := by
  rintro rfl
  unfold literalToken? at h
  split at h <;> cases h

/-- The text of a literal in front of another text. -/
theorem ofChars?_literalText {v : Value} {t : Token} (hv : literalToken? v = some t)
    (ht : t.Spelled) {rest : List Char} (hrest : Detached rest) :
    ofChars? ((literalText v).toList ++ rest) =
      (shownToken? v).bind fun t => (ofChars? rest).map (t :: ·) := by
  by_cases hfloat : ∃ x, v = .float x
  · obtain ⟨x, rfl⟩ := hfloat
    obtain rfl := Option.some.inj hv
    exact (numberShown (isUnsigned_of_spelled ht)).ofChars?_append hrest
  · rw [not_exists] at hfloat
    rw [shownToken?.eq_2 v hfloat, hv]
    exact Token.ofChars?_append (spelling_literalText hv ht hfloat)
      (hrest.apart (ne_mark_of_literalToken? hv))

theorem ne_equals_of_spelling {t : Token} {cs : List Char} (h : t.Spelling cs)
    (ht : t ≠ .mark .equals) : ∃ c rest, cs = c :: rest ∧ c ≠ '=' := by
  obtain ⟨c, rest, rfl, hc⟩ := h.exists_cons
  refine ⟨c, rest, rfl, ?_⟩
  rintro rfl
  exact ht hc.eq_equals

theorem NumberShown.exists_cons {x : Float} {cs : List Char} {t? : Option Token}
    (h : NumberShown x cs t?) : ∃ c rest, cs = c :: rest ∧ c ≠ '=' := by
  cases h with
  | point h => exact ne_equals_of_spelling h nofun
  | digits hdigits =>
    obtain ⟨c, rest, rfl, hc, -⟩ := hdigits.exists_cons
    refine ⟨c, rest, rfl, ?_⟩
    rintro rfl
    cases hc
  | infinity => exact ⟨_, _, rfl, by decide⟩

/-- No text of a literal begins as the second half of a sign does. -/
theorem head?_literalText {v : Value} {t : Token} (hv : literalToken? v = some t)
    (ht : t.Spelled) : ∃ c cs, (literalText v).toList = c :: cs ∧ c ≠ '=' := by
  by_cases hfloat : ∃ x, v = .float x
  · obtain ⟨x, rfl⟩ := hfloat
    obtain rfl := Option.some.inj hv
    exact (numberShown (isUnsigned_of_spelled ht)).exists_cons
  · rw [not_exists] at hfloat
    exact ne_equals_of_spelling (spelling_literalText hv ht hfloat)
      (ne_mark_of_literalToken? hv .equals)

end Expr

end DocTemplate
