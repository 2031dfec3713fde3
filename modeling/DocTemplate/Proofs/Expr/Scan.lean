import DocTemplate.Expr.Token
import DocTemplate.Proofs.Number.Digits

/-!
# Spellings of tokens

A token is written by its characters (`Token.Spelling`): an integer by any digits of its value, a
number by digits around a point, a text between single quotes, which are doubled inside. It is
found in front of a text that does not go on with it (`Token.next?_of_spelling`).
-/

namespace DocTemplate

namespace Mark

/-- The characters of a sign. -/
def chars : Mark → List Char
  | query => ['?']
  | queryDot => ['?', '.']
  | dot => ['.']
  | colon => [':']
  | comma => [',']
  | semicolon => [';']
  | openParen => ['(']
  | closeParen => [')']
  | openBracket => ['[']
  | closeBracket => [']']
  | bang => ['!']
  | bars => ['|', '|']
  | ampersands => ['&', '&']
  | equals => ['=', '=']
  | unequal => ['!', '=']
  | less => ['<']
  | lessEqual => ['<', '=']
  | greater => ['>']
  | greaterEqual => ['>', '=']
  | plus => ['+']
  | minus => ['-']
  | star => ['*']
  | slash => ['/']
  | percent => ['%']

end Mark

namespace Token

/-! ## Spellings -/

/-- The characters of a text between single quotes, which are doubled inside. -/
def doubled (cs : List Char) : List Char :=
  cs.flatMap fun c => if c = '\'' then ['\'', '\''] else [c]

@[simp] theorem doubled_nil : doubled [] = [] := rfl

theorem doubled_cons_quote (cs : List Char) :
    doubled ('\'' :: cs) = '\'' :: '\'' :: doubled cs := rfl

theorem doubled_cons_of_ne {c : Char} (hc : c ≠ '\'') (cs : List Char) :
    doubled (c :: cs) = c :: doubled cs := by
  simp [doubled, hc]

/-- Digits, one at least. -/
structure Digits (ds : List Char) : Prop where
  ne_nil : ds ≠ []
  isDigit : ∀ d ∈ ds, d.isDigit

/-- The characters that a token is written by. -/
inductive Spelling : Token → List Char → Prop
  | name {c : Char} {cs : List Char} (hc : startsName c) (hcs : ∀ d ∈ cs, inName d) :
    Spelling (name (String.ofList (c :: cs))) (c :: cs)
  | int {n : Int64} {ds : List Char} (hds : Digits ds)
    (hn : n.toInt = (Number.ofDigits ds : Int)) : Spelling (int n) ds
  | float {whole fraction : List Char} (hwhole : Digits whole) (hfraction : Digits fraction) :
    Spelling (float (Number.ofDecimal
      ⟨Number.ofDigits (whole ++ fraction), -(fraction.length : Int)⟩)) (whole ++ '.' :: fraction)
  | string (s : String) : Spelling (string s) ('\'' :: doubled s.toList ++ ['\''])
  | this : Spelling this ['#', 't', 'h', 'i', 's']
  | mark (m : Mark) : Spelling (mark m) m.chars

theorem Digits.ofAll {ds : List Char} (hne : ds ≠ []) (h : ds.all Char.isDigit) : Digits ds :=
  ⟨hne, List.all_eq_true.1 h⟩

theorem Spelling.ofAll {c : Char} {cs : List Char} (hc : startsName c) (hcs : cs.all inName) :
    Spelling (.name (String.ofList (c :: cs))) (c :: cs) :=
  .name hc (List.all_eq_true.1 hcs)

/-! ## A token in front of a text -/

/-- What follows a token does not go on with it. -/
def Apart : Token → List Char → Prop
  | name _, rest => ∀ c ∈ rest.head?, inName c = false
  | int _, rest => (∀ c ∈ rest.head?, c.isDigit = false) ∧
    ∀ cs, rest = '.' :: cs → ∀ c ∈ cs.head?, c.isDigit = false
  | float _, rest => ∀ c ∈ rest.head?, c.isDigit = false
  | string _, rest => rest.head? ≠ some '\''
  | mark .query, rest => rest.head? ≠ some '.'
  | mark .bang, rest | mark .less, rest | mark .greater, rest => rest.head? ≠ some '='
  | _, _ => True

/-- What is read and what is left, without the proof that this is shorter. -/
def bare {α : Type} {cs : List Char} (found : α × Rest cs) : α × List Char :=
  (found.1, found.2)

/-- The characters of a text between other quotes, of which the closing one is doubled inside. -/
def doubling (close : Char) (cs : List Char) : List Char :=
  cs.flatMap fun c => if c = close then [close, close] else [c]

@[simp] theorem doubling_nil (close : Char) : doubling close [] = [] := rfl

@[simp] theorem doubling_cons_self (close : Char) (cs : List Char) :
    doubling close (close :: cs) = close :: close :: doubling close cs := by
  simp [doubling]

theorem doubling_cons_of_ne {c close : Char} (hc : c ≠ close) (cs : List Char) :
    doubling close (c :: cs) = c :: doubling close cs := by
  simp [doubling, hc]

/-- A doubled quote is one of the text, and a single one ends it. -/
theorem quotedTail?_doubling (close : Char) (read cs : List Char) {rest : List Char}
    (hrest : rest.head? ≠ some close) :
    (quotedTail? close read (doubling close cs ++ close :: rest)).map bare =
      some (String.ofList (read.reverse ++ cs), rest) := by
  induction cs generalizing read with
  | nil =>
    cases rest with
    | nil => simp [quotedTail?, bare]
    | cons d rest =>
      have hd : d ≠ close := fun h => hrest (congrArg some h)
      simp [quotedTail?, hd, bare]
  | cons c cs ih =>
    have ih : (quotedTail? close (c :: read) (doubling close cs ++ close :: rest)).map bare =
        some (String.ofList (read.reverse ++ c :: cs), rest) := by
      simpa only [List.reverse_cons, List.append_assoc, List.singleton_append] using ih (c :: read)
    by_cases hc : c = close
    · subst hc
      rw [doubling_cons_self, List.cons_append, List.cons_append, quotedTail?, if_pos rfl,
        if_pos rfl, Option.map_map]
      exact ih
    · -- The text goes on behind `c`, with the closing quote at the latest.
      obtain ⟨d, ds, hds⟩ := List.exists_cons_of_ne_nil
        (List.append_ne_nil_of_right_ne_nil (doubling close cs) (List.cons_ne_nil close rest))
      rw [hds] at ih
      rw [doubling_cons_of_ne hc, List.cons_append, hds, quotedTail?, if_neg hc, Option.map_map]
      exact ih

theorem mark?_chars (m : Mark) {rest : List Char} (h : Apart (mark m) rest) :
    (mark? (m.chars ++ rest)).map bare = some (m, rest) := by
  cases m <;> first | rfl | (cases rest <;> simp_all [Apart, Mark.chars, mark?, bare])

theorem takeWhile_inName_append {cs rest : List Char} (hcs : ∀ c ∈ cs, inName c)
    (hrest : ∀ c ∈ rest.head?, inName c = false) :
    (cs ++ rest).takeWhile inName = cs ∧ (cs ++ rest).dropWhile inName = rest := by
  rw [List.takeWhile_append_of_pos hcs, List.dropWhile_append_of_pos hcs]
  cases rest with
  | nil => simp
  | cons c cs => simp [hrest c rfl]

/-- A character that begins neither a text nor the word for the scope. -/
def isPlain (c : Char) : Bool :=
  !(c = '\'' || c = '‘' || c = '“' || c = '"' || c = '#')

theorem isPlain_eq_false_iff {c : Char} :
    isPlain c = false ↔ c = '\'' ∨ c = '‘' ∨ c = '“' ∨ c = '"' ∨ c = '#' := by
  simp only [isPlain, Bool.not_eq_false', Bool.or_eq_true, decide_eq_true_eq, or_assoc]

theorem isPlain_of_startsName {c : Char} (h : startsName c) : isPlain c := by
  by_contra hc
  rcases isPlain_eq_false_iff.1 (Bool.not_eq_true _ ▸ hc) with rfl | rfl | rfl | rfl | rfl <;>
    exact absurd h (by decide)

theorem isPlain_of_isDigit {c : Char} (h : c.isDigit) : isPlain c := by
  by_contra hc
  rcases isPlain_eq_false_iff.1 (Bool.not_eq_true _ ▸ hc) with rfl | rfl | rfl | rfl | rfl <;>
    exact absurd h (by decide)

/-- A character that begins nothing but signs. -/
def isSign (c : Char) : Bool :=
  isPlain c && !startsName c && !c.isDigit

theorem isSign_iff {c : Char} : isSign c ↔ (isPlain c ∧ ¬ startsName c) ∧ ¬ c.isDigit := by
  simp [isSign]

theorem isSign_of_chars {m : Mark} {c : Char} {cs : List Char} (h : m.chars = c :: cs) :
    isSign c := by
  cases m <;> obtain ⟨rfl, rfl⟩ := h <;> decide

theorem startsName_eq_false_of_isDigit {c : Char} (h : c.isDigit) : startsName c = false := by
  simp only [startsName, Bool.or_eq_false_iff, decide_eq_false_iff_not]
  constructor
  · have halpha : c.isAlpha = (decide (c.val ≥ 65 ∧ c.val ≤ 90) ||
        decide (c.val ≥ 97) && decide (c.val ≤ 122)) := rfl
    simp only [halpha, Char.isDigit, ge_iff_le, UInt32.le_iff_toNat_le] at h ⊢
    grind
  · rintro rfl
    exact absurd h (by decide)

theorem next?_of_isPlain {c : Char} (hc : isPlain c) (cs : List Char) :
    (next? (c :: cs)).map bare =
      if startsName c then
        some (name (String.ofList (c :: cs.takeWhile inName)), cs.dropWhile inName)
      else if c.isDigit then
        match fraction? (cs.dropWhile Char.isDigit) with
        | some (ds, r) => (numeral? (c :: cs.takeWhile Char.isDigit) (some ds)).map (·, r)
        | none => (numeral? (c :: cs.takeWhile Char.isDigit) none).map (·, cs.dropWhile Char.isDigit)
      else
        ((mark? (c :: cs)).map bare).map fun (m, rest) => (mark m, rest) := by
  simp only [isPlain, Bool.not_eq_true', Bool.or_eq_false_iff, decide_eq_false_iff_not] at hc
  obtain ⟨⟨⟨⟨h₁, h₂⟩, h₃⟩, h₄⟩, h₅⟩ := hc
  rw [next?.eq_7 c cs h₁ h₂ h₃ h₄ fun _ h _ => h₅ h]
  split_ifs
  · rfl
  · split
    · next hf =>
      simp only [Option.map_map, hf]
      rfl
    · next hf =>
      simp only [Option.map_map, hf]
      rfl
  · rw [Option.map_map, Option.map_map]
    rfl

theorem fraction?_append {ds rest : List Char} (hds : Digits ds)
    (hrest : ∀ c ∈ rest.head?, c.isDigit = false) :
    fraction? ('.' :: (ds ++ rest)) = some (ds, rest) := by
  obtain ⟨htake, hdrop⟩ := Number.takeWhile_isDigit_append hds.isDigit hrest
  obtain ⟨d, ds, rfl⟩ := List.exists_cons_of_ne_nil hds.ne_nil
  simp only [fraction?, htake, hdrop]

theorem fraction?_eq_none {rest : List Char}
    (h : ∀ cs, rest = '.' :: cs → ∀ c ∈ cs.head?, c.isDigit = false) : fraction? rest = none := by
  unfold fraction?
  split
  · next cs =>
    have htake := (@Number.takeWhile_isDigit_append [] cs (by simp) (h cs rfl)).1
    rw [List.nil_append] at htake
    rw [htake]
  · rfl

theorem Digits.exists_cons {ds : List Char} (h : Digits ds) :
    ∃ c cs, ds = c :: cs ∧ c.isDigit ∧ ∀ d ∈ cs, d.isDigit := by
  obtain ⟨c, cs, rfl⟩ := List.exists_cons_of_ne_nil h.ne_nil
  exact ⟨c, cs, rfl, List.forall_mem_cons.1 h.isDigit⟩

/-- A numeral in front of a text. -/
theorem next?_digits {ds : List Char} (hds : Digits ds) {rest : List Char}
    (hrest : ∀ c ∈ rest.head?, c.isDigit = false) :
    (next? (ds ++ rest)).map bare =
      match fraction? rest with
      | some (fraction, r) => (numeral? ds (some fraction)).map (·, r)
      | none => (numeral? ds none).map (·, rest) := by
  obtain ⟨c, cs, rfl, hc, hcs⟩ := hds.exists_cons
  obtain ⟨htake, hdrop⟩ := Number.takeWhile_isDigit_append hcs hrest
  rw [List.cons_append, next?_of_isPlain (isPlain_of_isDigit hc),
    if_neg (by simp [startsName_eq_false_of_isDigit hc]), if_pos hc, htake, hdrop]

/-- A token is found in front of a text that does not go on with it. -/
theorem next?_of_spelling {t : Token} {cs rest : List Char} (ht : t.Spelling cs)
    (h : Apart t rest) : (next? (cs ++ rest)).map bare = some (t, rest) := by
  cases ht with
  | @name c cs hc hcs =>
    obtain ⟨htake, hdrop⟩ := takeWhile_inName_append hcs h
    rw [List.cons_append, next?_of_isPlain (isPlain_of_startsName hc), if_pos hc, htake, hdrop]
  | int hds hn =>
    rw [next?_digits hds h.1, fraction?_eq_none h.2, numeral?, Word.ofNat?,
      Word.ofInt?_eq_some_iff.2 hn]
    rfl
  | @float whole fraction hwhole hfraction =>
    rw [List.append_assoc, List.cons_append, next?_digits hwhole (by simp),
      fraction?_append hfraction h]
    rfl
  | string s =>
    rw [List.cons_append, List.cons_append, List.append_assoc, next?.eq_2, Option.map_map]
    have h := congrArg (Option.map (Prod.map string id)) (quotedTail?_doubling '\'' [] s.toList h)
    rw [Option.map_map, List.reverse_nil, List.nil_append, String.ofList_toList] at h
    exact h
  | this => rfl
  | mark m =>
    obtain ⟨c, cs, hcs⟩ := List.exists_cons_of_ne_nil (show m.chars ≠ [] by cases m <;> decide)
    obtain ⟨⟨hplain, hname⟩, hdigit⟩ := isSign_iff.1 (isSign_of_chars hcs)
    rw [hcs, List.cons_append, next?_of_isPlain hplain, if_neg hname, if_neg hdigit,
      ← List.cons_append, ← hcs, mark?_chars m h]
    rfl

end Token

end DocTemplate
