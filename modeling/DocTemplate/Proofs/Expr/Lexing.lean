import DocTemplate.Proofs.Expr.Quoting
import Mathlib.Data.List.TakeWhile

/-!
# The token in front of a text

What is found in front of a text is exactly a token with what does not go on with it
(`Token.next?_iff`): one of the spellings of tokens, or a text between quotes of any style
(`Token.InFront`).

No token goes on behind a blank or a semicolon. Hence what separates two texts so does not change
the tokens of the first one, and behind them are the tokens of the second one
(`Token.scanFrom?_append`).
-/

namespace DocTemplate

namespace Token

/-- The characters `written` are the token, which does not go on with `rest`. -/
inductive InFront : Token → List Char → List Char → Prop
  | spelling {t : Token} {written rest : List Char} (h : t.Spelling written)
    (hrest : Apart t rest) : InFront t written rest
  | quoted {q : Quotation} {s : String} {written rest : List Char} (h : q.Writes s written)
    (hrest : q.Ends rest) : InFront (string s) written rest

/-! ## What is found -/

theorem eq_false_of_mem_head?_dropWhile {p : Char → Bool} {cs : List Char} :
    ∀ c ∈ (cs.dropWhile p).head?, p c = false := by
  intro c hc
  have h := List.head?_dropWhile_not p cs
  rw [Option.mem_def.1 hc] at h
  exact h

theorem digits_takeWhile {c : Char} (hc : c.isDigit) (cs : List Char) :
    Digits (c :: cs.takeWhile Char.isDigit) :=
  ⟨List.cons_ne_nil _ _, List.forall_mem_cons.2 ⟨hc, fun _ hd => List.mem_takeWhile_imp hd⟩⟩

theorem fraction?_eq_some {cs ds rest : List Char} (h : fraction? cs = some (ds, rest)) :
    cs = '.' :: (ds ++ rest) ∧ Digits ds ∧ ∀ c ∈ rest.head?, c.isDigit = false := by
  unfold fraction? at h
  split at h
  · next cs =>
    split at h
    · cases h
    · next hne =>
      obtain ⟨rfl, rfl⟩ := Prod.mk.inj (Option.some.inj h)
      exact ⟨by rw [List.takeWhile_append_dropWhile],
        ⟨hne, fun _ hd => List.mem_takeWhile_imp hd⟩, eq_false_of_mem_head?_dropWhile⟩
  · cases h

theorem isDigit_eq_false_of_fraction? {cs : List Char} (h : fraction? ('.' :: cs) = none) :
    ∀ c ∈ cs.head?, c.isDigit = false := by
  intro c hc
  by_contra hdigit
  obtain ⟨cs, rfl⟩ := List.head?_eq_some_iff.1 hc
  rw [Bool.not_eq_false] at hdigit
  simp [fraction?, hdigit] at h

theorem mark?_eq_some {cs rest : List Char} {m : Mark} (h : (mark? cs).map bare = some (m, rest)) :
    cs = m.chars ++ rest ∧ Apart (mark m) rest := by
  have hhead {c : Char} {cs : List Char} (hcs : ∀ r, cs = c :: r → False) : cs.head? ≠ some c :=
    fun hc => (List.head?_eq_some_iff.1 hc).elim hcs
  unfold mark? at h
  split at h <;> cases h
  -- A sign that may be the first character of a longer one is none of that.
  case h_8.refl hcs | h_17.refl hcs | h_18.refl hcs | h_19.refl hcs => exact ⟨rfl, hhead hcs⟩
  all_goals exact ⟨rfl, trivial⟩

theorem exists_inFront_of_isPlain {c : Char} (hc : isPlain c) {cs rest : List Char} {t : Token}
    (h : (next? (c :: cs)).map bare = some (t, rest)) :
    ∃ written, InFront t written rest ∧ c :: cs = written ++ rest := by
  rw [next?_of_isPlain hc] at h
  split_ifs at h with hname hdigit
  · obtain ⟨rfl, rfl⟩ := Prod.mk.inj (Option.some.inj h)
    exact ⟨_, .spelling (.name hname fun _ hd => List.mem_takeWhile_imp hd)
      eq_false_of_mem_head?_dropWhile, by rw [List.cons_append, List.takeWhile_append_dropWhile]⟩
  · have hwhole := digits_takeWhile hdigit cs
    have hcs : c :: cs = (c :: cs.takeWhile Char.isDigit) ++ cs.dropWhile Char.isDigit := by
      rw [List.cons_append, List.takeWhile_append_dropWhile]
    split at h
    · next ds r hf =>
      obtain ⟨hdrop, hds, hrest⟩ := fraction?_eq_some hf
      obtain ⟨rfl, rfl⟩ := Prod.mk.inj (Option.some.inj h)
      exact ⟨_, .spelling (.float hwhole hds) hrest, by simp [hcs, hdrop]⟩
    · next hf =>
      obtain ⟨u, hu, ht⟩ := Option.map_eq_some_iff.1 h
      obtain ⟨n, hn, rfl⟩ := Option.map_eq_some_iff.1 hu
      obtain ⟨rfl, rfl⟩ := Prod.mk.inj ht
      refine ⟨_, .spelling (.int hwhole (Word.ofInt?_eq_some_iff.1 hn))
        ⟨eq_false_of_mem_head?_dropWhile, fun ds hds => ?_⟩, hcs⟩
      exact isDigit_eq_false_of_fraction? (hds ▸ hf)
  · obtain ⟨⟨m, r⟩, hm, ht⟩ := Option.map_eq_some_iff.1 h
    obtain ⟨rfl, rfl⟩ := Prod.mk.inj ht
    obtain ⟨hcs, hapart⟩ := mark?_eq_some hm
    exact ⟨_, .spelling (.mark m) hapart, hcs⟩

theorem exists_inFront_of_opening {q : Quotation} {cs rest : List Char} {t : Token}
    (h : (next? (q.opening :: cs)).map bare = some (t, rest)) :
    ∃ written, InFront t written rest ∧ q.opening :: cs = written ++ rest := by
  rw [q.next?_opening] at h
  obtain ⟨⟨s, r⟩, hs, ht⟩ := Option.map_eq_some_iff.1 h
  obtain ⟨rfl, rfl⟩ := Prod.mk.inj ht
  obtain ⟨inner, hinner, rfl, hrest⟩ := Quotation.tail?_iff.1 hs
  exact ⟨_, .quoted ⟨inner, hinner, rfl⟩ hrest, by simp⟩

/-- The only token that starts with a number sign is the word for the scope. -/
theorem exists_inFront_of_hash {cs rest : List Char} {t : Token}
    (h : (next? ('#' :: cs)).map bare = some (t, rest)) :
    ∃ written, InFront t written rest ∧ '#' :: cs = written ++ rest := by
  by_cases hthis : ∃ cs', cs = 't' :: 'h' :: 'i' :: 's' :: cs'
  · obtain ⟨cs, rfl⟩ := hthis
    obtain ⟨rfl, rfl⟩ := Prod.mk.inj (Option.some.inj h)
    exact ⟨_, .spelling .this trivial, rfl⟩
  · rw [next?.eq_7 '#' cs (by decide) (by decide) (by decide) (by decide)
      fun cs' _ hcs => hthis ⟨cs', hcs⟩] at h
    cases h

/-- The token in front of a text, exactly. -/
theorem next?_iff {cs rest : List Char} {t : Token} : (next? cs).map bare = some (t, rest) ↔
    ∃ written, InFront t written rest ∧ cs = written ++ rest := by
  constructor
  · intro h
    match cs with
    | [] => cases h
    | c :: cs =>
      by_cases hc : isPlain c
      · exact exists_inFront_of_isPlain hc h
      rcases isPlain_eq_false_iff.1 (Bool.not_eq_true _ ▸ hc) with rfl | rfl | rfl | rfl | rfl
      · exact exists_inFront_of_opening (q := .straight) h
      · exact exists_inFront_of_opening (q := .single) h
      · exact exists_inFront_of_opening (q := .double) h
      · exact exists_inFront_of_opening (q := .escaped) h
      · exact exists_inFront_of_hash h
  · rintro ⟨written, h, rfl⟩
    cases h with
    | spelling h hrest => exact next?_of_spelling h hrest
    | quoted h hrest => exact next?_of_writes h hrest

theorem InFront.exists_cons {t : Token} {written rest : List Char} (h : InFront t written rest) :
    ∃ c more, written = c :: more ∧ Text.isBlankChar c = false := by
  cases h with
  | spelling h _ =>
    obtain ⟨c, more, rfl, hc⟩ := h.exists_cons
    exact ⟨c, more, rfl, hc.not_isBlankChar⟩
  | @quoted q _ _ _ h _ =>
    obtain ⟨inner, -, rfl⟩ := h
    exact ⟨q.opening, _, rfl, by cases q <;> rfl⟩

/-- A text of white characters has no tokens. -/
theorem eq_nil_of_isBlankChar {spaced : Bool} {cs : List Char} {ls : List Lexeme}
    (h : scanFrom? spaced cs = some ls) (hcs : cs.all Text.isBlankChar) : ls = [] := by
  fun_induction scanFrom? spaced cs generalizing ls with
  | case1 => exact (Option.some.inj h).symm
  | case2 spaced c cs hb ih =>
    rw [List.all_cons, Bool.and_eq_true] at hcs
    exact ih h hcs.2
  | case3 => cases h
  | case4 spaced c cs hb t r hr hnext ih =>
    obtain ⟨written, hwritten, heq⟩ := next?_iff.1 (congrArg (Option.map bare) hnext)
    obtain ⟨d, more, rfl, hd⟩ := hwritten.exists_cons
    obtain ⟨rfl, -⟩ := List.cons.inj heq
    rw [List.all_cons, hd] at hcs
    cases hcs

/-! ## What separates texts -/

/-- The characters begin with a blank or a semicolon, if there are any. -/
def Separates (more : List Char) : Prop :=
  ∀ c ∈ more.head?, isBlank c ∨ c = ';'

/-- Characters that separate are none of names and numerals, quotes or parts of signs. -/
theorem plain_of_separates {c : Char} (h : isBlank c ∨ c = ';') :
    inName c = false ∧ c.isDigit = false ∧ c ∉ ['\'', '’', '”', '.', '='] := by
  rw [isBlank_eq_true_iff] at h
  rcases h with (rfl | rfl | rfl | rfl) | rfl <;> decide

section

variable {more : List Char}

/-- The first character is that of the text or one that separates. -/
theorem Separates.of_mem_head?_append (h : Separates more) {rest : List Char} {c : Char}
    (hc : c ∈ (rest ++ more).head?) : c ∈ rest.head? ∨ isBlank c ∨ c = ';' := by
  cases rest with
  | nil => exact .inr (h c hc)
  | cons d rest => exact .inl hc

theorem Separates.head?_append_ne (h : Separates more) {c : Char}
    (hc : c ∈ ['\'', '’', '”', '.', '=']) {rest : List Char} (hrest : rest.head? ≠ some c) :
    (rest ++ more).head? ≠ some c := by
  intro hhead
  rcases h.of_mem_head?_append hhead with hhead | hseparates
  · exact hrest hhead
  · exact (plain_of_separates hseparates).2.2 hc

theorem Apart.append {t : Token} {rest : List Char} (h : Apart t rest) (hmore : Separates more) :
    Apart t (rest ++ more) := by
  have hdigit {cs : List Char} (hcs : ∀ c ∈ cs.head?, c.isDigit = false) :
      ∀ c ∈ (cs ++ more).head?, c.isDigit = false := fun c hc =>
    (hmore.of_mem_head?_append hc).elim (hcs c) fun hc => (plain_of_separates hc).2.1
  cases t with
  | name =>
    exact fun c hc =>
      (hmore.of_mem_head?_append hc).elim (h c) fun hc => (plain_of_separates hc).1
  | int =>
    refine ⟨hdigit h.1, fun cs hcs => ?_⟩
    cases rest with
    | nil => exact absurd (hmore '.' (congrArg List.head? hcs)) (by decide)
    | cons d rest =>
      obtain ⟨rfl, rfl⟩ := List.cons.inj hcs
      exact hdigit (h.2 rest rfl)
  | float => exact hdigit h
  | string => exact hmore.head?_append_ne (by simp) h
  | this => trivial
  | mark m =>
    cases m with
    | query | bang | less | greater => exact hmore.head?_append_ne (by simp) h
    | _ => trivial

theorem InFront.append {t : Token} {written rest : List Char} (h : InFront t written rest)
    (hmore : Separates more) : InFront t written (rest ++ more) := by
  cases h with
  | spelling h hrest => exact .spelling h (hrest.append hmore)
  | @quoted q _ _ _ h hrest =>
    refine .quoted h fun hq => hmore.head?_append_ne ?_ (hrest hq)
    match q with
    | .straight | .single | .double => decide
    | .escaped => exact absurd rfl hq

theorem next?_append {t : Token} {cs rest : List Char}
    (h : (next? cs).map bare = some (t, rest)) (hmore : Separates more) :
    (next? (cs ++ more)).map bare = some (t, rest ++ more) := by
  obtain ⟨written, hwritten, rfl⟩ := next?_iff.1 h
  exact next?_iff.2 ⟨written, hwritten.append hmore, List.append_assoc written rest more⟩

/-- The tokens of a text are those in front of what separates it. -/
theorem scanFrom?_append {spaced : Bool} {cs : List Char} {ls : List Lexeme}
    (h : scanFrom? spaced cs = some ls) (hmore : Separates more) :
    ∃ s, scanFrom? spaced (cs ++ more) = (scanFrom? s more).map (ls ++ ·) := by
  fun_induction scanFrom? spaced cs generalizing ls with
  | case1 spaced =>
    obtain rfl := Option.some.inj h
    exact ⟨spaced, by simp⟩
  | case2 spaced c cs hb ih =>
    rw [List.cons_append, scanFrom?.eq_2, if_pos hb]
    exact ih h
  | case3 => cases h
  | case4 spaced c cs hb t r hr hnext ih =>
    obtain ⟨ls, hls, rfl⟩ := Option.map_eq_some_iff.1 h
    obtain ⟨s, hs⟩ := ih hls
    have hfound : (next? (c :: cs)).map bare = some (t, r) := congrArg (Option.map bare) hnext
    refine ⟨s, ?_⟩
    rw [scanFrom?_of_next? (next?_append hfound hmore), hs, Option.map_map]
    rfl

end

end Token

end DocTemplate
