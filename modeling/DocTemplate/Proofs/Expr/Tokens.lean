import DocTemplate.Proofs.Expr.Scan
import DocTemplate.Text.Blank
import Mathlib.Data.List.Chain

/-!
# Tokens one after the other

Tokens are written one after the other, with any blanks around them (`Token.Spells`). Nothing has
to be between two tokens, except that a name ends where no character of names follows.

The tokens of a text (`Token.ofChars?`) are found one by one (`Token.ofChars?_append`), thus all
tokens are found in a text of them (`Token.ofChars?_of_spells`), as long as none of them runs into
the next one (`Token.clash`).
-/

namespace DocTemplate

namespace Token

/-! ## First characters -/

/-- A character that a text of the token may start with. -/
def Leads : Token → Char → Prop
  | name _, c => startsName c
  | int _, c | float _, c => c.isDigit
  | string _, c => c = '\''
  | this, c => c = '#'
  | mark m, c => m.chars.head? = some c

theorem Spelling.exists_cons {t : Token} {cs : List Char} (h : t.Spelling cs) :
    ∃ c rest, cs = c :: rest ∧ t.Leads c := by
  cases h with
  | name hc _ => exact ⟨_, _, rfl, hc⟩
  | int hds _ =>
    obtain ⟨c, cs, rfl, hc, _⟩ := hds.exists_cons
    exact ⟨c, cs, rfl, hc⟩
  | float hds _ =>
    obtain ⟨c, cs, rfl, hc, _⟩ := hds.exists_cons
    exact ⟨c, _, rfl, hc⟩
  | string s => exact ⟨_, _, rfl, rfl⟩
  | this => exact ⟨_, _, rfl, rfl⟩
  | mark m => cases m <;> exact ⟨_, _, rfl, rfl⟩

theorem isBlank_eq_true_iff {c : Char} :
    isBlank c = true ↔ c = ' ' ∨ c = '\t' ∨ c = '\n' ∨ c = '\r' := by
  simp only [isBlank, Bool.or_eq_true, decide_eq_true_eq, or_assoc]

theorem isBlankChar_of_isBlank {c : Char} (h : isBlank c) : Text.isBlankChar c := by
  rcases isBlank_eq_true_iff.1 h with rfl | rfl | rfl | rfl <;> rfl

/-- A visible ASCII character. -/
theorem isBlankChar_eq_false {c : Char} (h : 32 < c.toNat ∧ c.toNat < 128) :
    Text.isBlankChar c = false := by
  simp only [Text.isBlankChar, Bool.or_eq_false_iff, Bool.and_eq_false_iff, decide_eq_false_iff_not,
    beq_eq_false_iff_ne]
  omega

/-- No token starts with a white character. -/
theorem Leads.not_isBlankChar {t : Token} {c : Char} (h : t.Leads c) :
    Text.isBlankChar c = false := by
  have hdigit (h : c.isDigit) : Text.isBlankChar c = false := by
    simp only [Char.isDigit, ge_iff_le, Bool.and_eq_true, decide_eq_true_eq,
      UInt32.le_iff_toNat_le] at h
    change 48 ≤ c.toNat ∧ c.toNat ≤ 57 at h
    exact isBlankChar_eq_false (by omega)
  cases t with
  | name =>
    have halpha : c.isAlpha = (decide (c.val ≥ 65 ∧ c.val ≤ 90) ||
        decide (c.val ≥ 97) && decide (c.val ≤ 122)) := rfl
    simp only [Leads, startsName, halpha, ge_iff_le, Bool.or_eq_true, Bool.and_eq_true,
      decide_eq_true_eq, UInt32.le_iff_toNat_le] at h
    rcases h with h | rfl
    · change 65 ≤ c.toNat ∧ c.toNat ≤ 90 ∨ 97 ≤ c.toNat ∧ c.toNat ≤ 122 at h
      exact isBlankChar_eq_false (by omega)
    · rfl
  | int | float => exact hdigit h
  | string | this =>
    obtain rfl := h
    rfl
  | mark m => cases m <;> (obtain rfl := Option.some.inj h; rfl)

/-- No token starts with a blank. -/
theorem Leads.not_isBlank {t : Token} {c : Char} (h : t.Leads c) : isBlank c = false := by
  by_contra hc
  exact absurd (isBlankChar_of_isBlank (Bool.not_eq_false _ ▸ hc)) (by simp [h.not_isBlankChar])

theorem isBlank_eq_false_of_isDigit {c : Char} (h : c.isDigit) : isBlank c = false :=
  Leads.not_isBlank (t := int 0) h

/-! ## The tokens of a text -/

/-- The tokens of a text. -/
def ofChars? (cs : List Char) : Option (List Token) :=
  (scanFrom? false cs).map (List.map Lexeme.token)

theorem map_token_scanFrom? (spaced : Bool) (cs : List Char) :
    (scanFrom? spaced cs).map (List.map Lexeme.token) = ofChars? cs := by
  cases cs with
  | nil => rw [ofChars?, scanFrom?.eq_1, scanFrom?.eq_1]
  | cons c cs =>
    rw [ofChars?, scanFrom?.eq_2, scanFrom?.eq_2]
    split_ifs
    · rfl
    · split
      · rfl
      · rw [Option.map_map, Option.map_map]
        rfl

theorem ofChars?_nil : ofChars? [] = some [] := by
  rw [ofChars?, scanFrom?]
  rfl

theorem exists_scan?_of_ofChars? {s : String} {ts : List Token} (h : ofChars? s.toList = some ts) :
    ∃ ls, scan? s = some ls ∧ ls.map Lexeme.token = ts :=
  Option.map_eq_some_iff.1 h

theorem ofChars?_blank {c : Char} (hc : isBlank c) (cs : List Char) :
    ofChars? (c :: cs) = ofChars? cs := by
  rw [ofChars?, scanFrom?.eq_2, if_pos hc, map_token_scanFrom?]

/-- No token is found in front of a blank. -/
theorem next?_blank {c : Char} (hc : isBlank c) (cs : List Char) : next? (c :: cs) = none := by
  rcases isBlank_eq_true_iff.1 hc with rfl | rfl | rfl | rfl <;> rfl

/-- The tokens of a text from the first one on. -/
theorem scanFrom?_of_next? {t : Token} {cs rest : List Char}
    (h : (next? cs).map bare = some (t, rest)) (spaced : Bool) :
    scanFrom? spaced cs = (scanFrom? false rest).map (⟨t, spaced⟩ :: ·) := by
  obtain ⟨⟨u, r⟩, hu, hr⟩ := Option.map_eq_some_iff.1 h
  obtain ⟨rfl, hrest⟩ := Prod.mk.inj hr
  have hrest : r.1 = rest := hrest
  match cs with
  | [] => cases hu
  | c :: cs =>
    have hc : ¬ isBlank c := fun hc => by
      rw [next?_blank hc] at hu
      cases hu
    rw [scanFrom?.eq_2, if_neg hc, hu]
    simp only [hrest]

/-- A blank before a text is only told by its first token. -/
theorem scanFrom?_true {spaced : Bool} {cs : List Char} {l : Lexeme} {ls : List Lexeme}
    (h : scanFrom? spaced cs = some (l :: ls)) :
    scanFrom? true cs = some (⟨l.token, true⟩ :: ls) := by
  fun_induction scanFrom? spaced cs with
  | case1 => cases h
  | case2 spaced c cs hb ih =>
    rw [scanFrom?.eq_2, if_pos hb]
    exact ih h
  | case3 => cases h
  | case4 spaced c cs hb t r hr hnext ih =>
    obtain ⟨ls, hls, heq⟩ := Option.map_eq_some_iff.1 h
    obtain ⟨rfl, rfl⟩ := List.cons.inj heq
    have hfound : (next? (c :: cs)).map bare = some (t, r) := congrArg (Option.map bare) hnext
    rw [scanFrom?_of_next? hfound, hls]
    rfl

theorem ofChars?_of_next? {t : Token} {cs rest : List Char}
    (h : (next? cs).map bare = some (t, rest)) : ofChars? cs = (ofChars? rest).map (t :: ·) := by
  rw [ofChars?, scanFrom?_of_next? h, Option.map_map, ofChars?, Option.map_map]
  rfl

/-- A token in front of a text that does not go on with it. -/
theorem ofChars?_append {t : Token} {cs rest : List Char} (ht : t.Spelling cs)
    (h : Apart t rest) : ofChars? (cs ++ rest) = (ofChars? rest).map (t :: ·) :=
  ofChars?_of_next? (next?_of_spelling ht h)

/-- A sign of one character. -/
theorem ofChars?_cons {m : Mark} {c : Char} (hm : m.chars = [c]) {rest : List Char}
    (h : Apart (mark m) rest) : ofChars? (c :: rest) = (ofChars? rest).map (mark m :: ·) := by
  have hchars := ofChars?_append (.mark m) h
  rwa [hm] at hchars

theorem ofChars?_mark (m : Mark) {rest : List Char} (h : Apart (mark m) rest) :
    ofChars? (m.chars ++ rest) = (ofChars? rest).map (mark m :: ·) :=
  ofChars?_append (.mark m) h

/-- Digits that are no integer value. -/
theorem ofChars?_digits {ds rest : List Char} (hds : Digits ds)
    (hlarge : Word.ofNat? (Number.ofDigits ds) = none) (h : Apart (int 0) rest) :
    ofChars? (ds ++ rest) = none := by
  have hnext := next?_digits hds h.1
  obtain ⟨c, cs, rfl, hc, -⟩ := hds.exists_cons
  rw [fraction?_eq_none h.2, numeral?, hlarge] at hnext
  rw [List.cons_append] at hnext ⊢
  rw [ofChars?, scanFrom?.eq_2, if_neg (by simp [isBlank_eq_false_of_isDigit hc]),
    Option.map_eq_none_iff.1 hnext]
  rfl

/-- What makes no token in front of it longer, except for signs. -/
structure Detached (rest : List Char) : Prop where
  head : ∀ c ∈ rest.head?, inName c = false ∧ c ≠ '\''
  point : ∀ cs, rest = '.' :: cs → ∀ c ∈ cs.head?, c.isDigit = false

theorem isDigit_eq_false_of_inName {c : Char} (h : inName c = false) : c.isDigit = false := by
  simp only [inName, Char.isAlphanum, Bool.or_eq_false_iff] at h
  exact h.1.2

namespace Detached

variable {rest : List Char}

theorem nil : Detached [] :=
  ⟨by rintro _ ⟨⟩, by rintro _ ⟨⟩⟩

theorem cons {c : Char} (hc : (inName c || c == '\'' || c == '.') = false) (rest : List Char) :
    Detached (c :: rest) := by
  simp only [Bool.or_eq_false_iff, beq_eq_false_iff_ne] at hc
  refine ⟨?_, ?_⟩
  · rintro _ ⟨⟩
    exact hc.1
  · rintro cs heq
    exact absurd (List.cons.inj heq).1 hc.2

/-- In front of a name that is accessed. -/
theorem point_cons {c : Char} (hc : c.isDigit = false) (rest : List Char) :
    Detached ('.' :: c :: rest) := by
  refine ⟨?_, ?_⟩
  · rintro _ ⟨⟩
    exact ⟨rfl, by decide⟩
  · rintro _ ⟨⟩ _ ⟨⟩
    exact hc

theorem apart {t : Token} (h : Detached rest) (ht : ∀ m, t ≠ mark m) : Apart t rest := by
  have hdigit (c : Char) (hc : c ∈ rest.head?) : c.isDigit = false :=
    isDigit_eq_false_of_inName (h.head c hc).1
  cases t with
  | name => exact fun c hc => (h.head c hc).1
  | int => exact ⟨hdigit, h.point⟩
  | float => exact hdigit
  | string => exact fun hc => (h.head _ hc).2 rfl
  | this => trivial
  | mark m => exact absurd rfl (ht m)

end Detached

/-! ## Texts of tokens -/

/-- Spaces, tabs and line breaks only. -/
def Blank (cs : List Char) : Prop :=
  ∀ c ∈ cs, isBlank c

/-- Whether the token is a name. -/
def isName : Token → Bool
  | name _ => true
  | _ => false

/-- The characters are a text of the tokens, with any blanks around each of them. A name has to
    be separated from what would make it a longer name. -/
inductive Spells : List Token → List Char → Prop
  | nil {before : List Char} (hbefore : Blank before) : Spells [] before
  | cons {t : Token} {ts : List Token} {before cs rest : List Char} (hbefore : Blank before)
    (ht : t.Spelling cs) (hrest : t.isName → ∀ c ∈ rest.head?, inName c = false)
    (h : Spells ts rest) : Spells (t :: ts) (before ++ cs ++ rest)

/-- Whether the token is a numeral. -/
def isNumeral : Token → Bool
  | int _ | float _ => true
  | _ => false

/-- Whether the second of two tokens may be read as a part of the first, or would make a numeral
    of one in front. -/
def clash : Token → Token → Bool
  | int _, t | float _, t | mark .dot, t => t.isNumeral
  | string _, string _ => true
  | mark .query, mark .dot => true
  | mark .bang, mark .equals | mark .less, mark .equals | mark .greater, mark .equals => true
  | _, _ => false

theorem Leads.isNumeral {t : Token} {c : Char} (h : t.Leads c) (hc : c.isDigit) :
    t.isNumeral := by
  cases t with
  | int | float => rfl
  | name =>
    rw [Leads, startsName_eq_false_of_isDigit hc] at h
    cases h
  | string | this =>
    obtain rfl := h
    exact absurd hc (by decide)
  | mark m => cases m <;> obtain rfl := Option.some.inj h <;> exact absurd hc (by decide)

/-- A text that the tokens of a text follow begins with a blank or as the first of them does. -/
theorem Spells.head? {ts : List Token} {cs : List Char} (h : Spells ts cs) {c : Char}
    (hc : cs.head? = some c) : isBlank c ∨ ∃ t ∈ ts.head?, t.Leads c := by
  cases h with
  | nil hbefore => exact .inl (hbefore c (List.mem_of_mem_head? hc))
  | @cons t ts before text rest hbefore ht hrest h =>
    cases before with
    | nil =>
      obtain ⟨d, more, rfl, hd⟩ := ht.exists_cons
      obtain rfl : d = c := Option.some.inj hc
      exact .inr ⟨t, rfl, hd⟩
    | cons b before =>
      obtain rfl : b = c := Option.some.inj hc
      exact .inl (hbefore _ List.mem_cons_self)

/-- What follows does not begin as only tokens do that the one before clashes with. -/
theorem Spells.head?_ne {t : Token} {ts : List Token} {cs : List Char} (h : Spells ts cs)
    (hclash : ∀ u ∈ ts.head?, ¬ clash t u) {c : Char} (hblank : isBlank c = false)
    (hc : ∀ u : Token, u.Leads c → clash t u) : cs.head? ≠ some c := by
  intro hhead
  rcases h.head? hhead with hb | ⟨u, hu, hlead⟩
  · exact absurd hb (by simp [hblank])
  · exact hclash u hu (hc u hlead)

theorem Leads.eq_string {t : Token} (h : t.Leads '\'') : ∃ s, t = string s := by
  cases t with
  | string s => exact ⟨s, rfl⟩
  | name => exact absurd h (by decide : ¬ startsName '\'')
  | int | float => exact absurd h (by decide : ¬ Char.isDigit '\'')
  | this => exact absurd (show '\'' = '#' from h) (by decide)
  | mark m => cases m <;> cases h

theorem Leads.eq_mark {t : Token} {c : Char} (h : t.Leads c) (hc : isSign c) :
    ∃ m : Mark, t = mark m ∧ m.chars.head? = some c := by
  obtain ⟨⟨hplain, hname⟩, hdigit⟩ := isSign_iff.1 hc
  cases t with
  | mark m => exact ⟨m, rfl, h⟩
  | name => exact absurd h hname
  | int | float => exact absurd h hdigit
  | string | this =>
    obtain rfl := h
    exact absurd hplain (by decide)

theorem Leads.eq_dot {t : Token} (h : t.Leads '.') : t = mark .dot := by
  obtain ⟨m, rfl, hm⟩ := h.eq_mark rfl
  cases m <;> first | rfl | cases hm

theorem Leads.eq_equals {t : Token} (h : t.Leads '=') : t = mark .equals := by
  obtain ⟨m, rfl, hm⟩ := h.eq_mark rfl
  cases m <;> first | rfl | cases hm

/-- A text that begins with a point has that for its first token. -/
theorem Spells.of_dot {ts : List Token} {cs : List Char} (h : Spells ts ('.' :: cs)) :
    ∃ ts', ts = mark .dot :: ts' ∧ Spells ts' cs := by
  generalize htext : '.' :: cs = text at h
  cases h with
  | nil h => exact absurd (h '.' (htext ▸ List.mem_cons_self)) (by decide)
  | @cons t ts before text rest hbefore ht hrest h =>
    cases before with
    | cons b before =>
      obtain rfl := (List.cons.inj htext).1
      exact absurd (hbefore '.' List.mem_cons_self) (by decide)
    | nil =>
      obtain ⟨c, more, rfl, hc⟩ := ht.exists_cons
      obtain ⟨rfl, htail⟩ := List.cons.inj htext
      obtain rfl := hc.eq_dot
      cases ht
      exact ⟨ts, rfl, htail ▸ h⟩

/-- Tokens that do not clash are apart in their texts. -/
theorem Apart.of_spells {t : Token} {ts : List Token} {cs : List Char} (h : Spells ts cs)
    (hname : t.isName → ∀ c ∈ cs.head?, inName c = false)
    (hclash : (t :: ts).IsChain fun t u => ¬ clash t u) : Apart t cs := by
  obtain ⟨hhead, htail⟩ := List.isChain_cons.1 hclash
  have hdigit (hnum : ∀ u, clash t u = u.isNumeral) (c : Char) (hc : c ∈ cs.head?) :
      c.isDigit = false := by
    by_contra hd
    rw [Bool.not_eq_false] at hd
    refine h.head?_ne hhead (isBlank_eq_false_of_isDigit hd) (fun u hu => ?_) hc
    rw [hnum, hu.isNumeral hd]
  have hequals (he : clash t (mark .equals)) : cs.head? ≠ some '=' :=
    h.head?_ne hhead rfl fun u hu => hu.eq_equals ▸ he
  cases t with
  | name s => exact hname rfl
  | int n =>
    refine ⟨hdigit fun _ => rfl, ?_⟩
    rintro cs rfl c hc
    obtain ⟨ts, rfl, hcs⟩ := h.of_dot
    by_contra hd
    rw [Bool.not_eq_false] at hd
    exact hcs.head?_ne (t := mark .dot) (List.isChain_cons.1 htail).1
      (isBlank_eq_false_of_isDigit hd) (fun u hu => hu.isNumeral hd) hc
  | float x => exact hdigit fun _ => rfl
  | string s =>
    refine h.head?_ne hhead rfl fun u hu => ?_
    obtain ⟨s, rfl⟩ := hu.eq_string
    rfl
  | this => trivial
  | mark m =>
    cases m with
    | query =>
      refine h.head?_ne hhead rfl fun u hu => ?_
      rw [hu.eq_dot]
      rfl
    | bang | less | greater => exact hequals rfl
    | _ => trivial

/-- Blanks count for nothing, except that the next token has one before it. -/
theorem scanFrom?_blanks {before : List Char} (h : Blank before) (spaced : Bool) (cs : List Char) :
    scanFrom? spaced (before ++ cs) = scanFrom? (spaced || !before.isEmpty) cs := by
  induction before generalizing spaced with
  | nil => simp
  | cons b before ih =>
    obtain ⟨hb, hbefore⟩ := List.forall_mem_cons.1 h
    rw [List.cons_append, scanFrom?.eq_2, if_pos hb, ih hbefore true]
    simp

theorem ofChars?_blanks {before : List Char} (h : Blank before) (cs : List Char) :
    ofChars? (before ++ cs) = ofChars? cs := by
  rw [ofChars?, scanFrom?_blanks h, map_token_scanFrom?]

/-- The tokens of a text are found in it. -/
theorem ofChars?_of_spells {ts : List Token} {cs : List Char} (h : Spells ts cs)
    (hclash : ts.IsChain fun t u => ¬ clash t u) : ofChars? cs = some ts := by
  induction h with
  | @nil before hbefore =>
    have hblanks := ofChars?_blanks hbefore []
    rwa [List.append_nil, ofChars?_nil] at hblanks
  | @cons t ts before text rest hbefore ht hrest h ih =>
    rw [List.append_assoc, ofChars?_blanks hbefore,
      ofChars?_append ht (.of_spells h hrest hclash), ih hclash.tail, Option.map_some]

end Token

end DocTemplate
