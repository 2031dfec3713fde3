import DocTemplate.Proofs.Json.Scalar

/-!
# Reading what is written

A text of a value is its numeral, its word or its quoted characters, or else the texts of its
parts between brackets, with blanks around each of them (`Json.Spells`). Both ways to write a
value give such a text.

What is read from it is the value again (`Json.ofChars?_spells`), as long as it has no numbers
but integers of sixty-four bits (`Json.IsExact`), and as far as it is not nested too deep: the
arrays and the objects within `Reader.maxDepth` others stand for nothing (`Json.cut`).

* `Json.spells_compactChars`, `Json.spells_prettyChars`: what is written is a text of the value;
* `Json.read?_compact`, `Json.read?_pretty`: what is read from it.
-/

namespace DocTemplate

namespace Json

open Reader

/-! ## Texts of values -/

/-- Blanks only. -/
def Blank (cs : List Char) : Prop :=
  ∀ c ∈ cs, isBlank c

mutual

/-- The characters are a text of the value. -/
def Spells : Json → List Char → Prop
  | arr items, cs => ∃ body, SpellsItems items body ∧ cs = '[' :: body ++ [']']
  | obj members, cs => ∃ body, SpellsMembers members body ∧ cs = '\x7b' :: body ++ ['\x7d']
  | v, cs => cs = scalar v

/-- The characters are texts of the items of an array, with commas between them. -/
def SpellsItems : List Json → List Char → Prop
  | [], cs => cs = []
  | v :: vs, cs => ∃ before text after more, Blank before ∧ Spells v text ∧ Blank after ∧
      cs = before ++ text ++ after ++ more ∧
      (vs = [] ∧ more = [] ∨ vs ≠ [] ∧ ∃ body, SpellsItems vs body ∧ more = ',' :: body)

/-- The characters are texts of the members of an object, with commas between them. -/
def SpellsMembers : List (String × Json) → List Char → Prop
  | [], cs => cs = []
  | (k, v) :: ms, cs => ∃ before gap text after more, Blank before ∧ Blank gap ∧ Spells v text ∧
      Blank after ∧ cs = before ++ quote k ++ ':' :: gap ++ text ++ after ++ more ∧
      (ms = [] ∧ more = [] ∨ ms ≠ [] ∧ ∃ body, SpellsMembers ms body ∧ more = ',' :: body)

end

theorem blank_nil : Blank [] := by
  rintro c ⟨⟩

theorem blank_newline (level : Nat) : Blank (newline level) := by
  intro c hc
  rcases List.mem_cons.1 hc with rfl | hc
  · rfl
  · obtain rfl := List.eq_of_mem_replicate hc
    rfl

/-- An item in front of others. -/
theorem spellsItems_cons {v : Json} {vs : List Json} {before text after body : List Char}
    (hbefore : Blank before) (htext : Spells v text) (hafter : Blank after)
    (hvs : vs ≠ []) (hbody : SpellsItems vs body) :
    SpellsItems (v :: vs) (before ++ text ++ after ++ ',' :: body) :=
  ⟨before, text, after, _, hbefore, htext, hafter, rfl, .inr ⟨hvs, body, hbody, rfl⟩⟩

theorem spellsItems_singleton {v : Json} {before text after : List Char}
    (hbefore : Blank before) (htext : Spells v text) (hafter : Blank after) :
    SpellsItems [v] (before ++ text ++ after) :=
  ⟨before, text, after, [], hbefore, htext, hafter, by simp, .inl ⟨rfl, rfl⟩⟩

/-- A member in front of others. -/
theorem spellsMembers_cons {k : String} {v : Json} {ms : List (String × Json)}
    {before gap text after body : List Char} (hbefore : Blank before) (hgap : Blank gap)
    (htext : Spells v text) (hafter : Blank after) (hms : ms ≠ []) (hbody : SpellsMembers ms body) :
    SpellsMembers ((k, v) :: ms)
      (before ++ quote k ++ ':' :: gap ++ text ++ after ++ ',' :: body) :=
  ⟨before, gap, text, after, _, hbefore, hgap, htext, hafter, rfl, .inr ⟨hms, body, hbody, rfl⟩⟩

theorem spellsMembers_singleton {k : String} {v : Json} {before gap text after : List Char}
    (hbefore : Blank before) (hgap : Blank gap) (htext : Spells v text) (hafter : Blank after) :
    SpellsMembers [(k, v)] (before ++ quote k ++ ':' :: gap ++ text ++ after) :=
  ⟨before, gap, text, after, [], hbefore, hgap, htext, hafter, by simp, .inl ⟨rfl, rfl⟩⟩

mutual

/-- A value in one line. -/
theorem spells_compactChars : ∀ v : Json, Spells v v.compactChars
  | arr items => ⟨_, spellsItems_compactItems items, by simp [compactChars]⟩
  | obj members => ⟨_, spellsMembers_compactMembers members, by simp [compactChars]⟩
  | null | bool _ | int _ | float _ | str _ | unreadable => rfl

theorem spellsItems_compactItems :
    ∀ vs : List Json, SpellsItems vs ([','].intercalate (compactItems vs))
  | [] => rfl
  | [v] => by
    simpa [compactItems] using spellsItems_singleton blank_nil (spells_compactChars v) blank_nil
  | v :: w :: vs => by
    have h := spellsItems_cons blank_nil (spells_compactChars v) blank_nil (List.cons_ne_nil w vs)
      (spellsItems_compactItems (w :: vs))
    simpa [compactItems, List.intercalate_cons_cons] using h

theorem spellsMembers_compactMembers :
    ∀ ms : List (String × Json), SpellsMembers ms ([','].intercalate (compactMembers ms))
  | [] => rfl
  | [(k, v)] => by
    simpa [compactMembers] using
      spellsMembers_singleton (k := k) blank_nil blank_nil (spells_compactChars v) blank_nil
  | (k, v) :: m :: ms => by
    have h := spellsMembers_cons (k := k) blank_nil blank_nil (spells_compactChars v) blank_nil
      (List.cons_ne_nil m ms) (spellsMembers_compactMembers (m :: ms))
    obtain ⟨k', v'⟩ := m
    simpa [compactMembers, List.intercalate_cons_cons] using h

end

mutual

/-- A value over several lines. -/
theorem spells_prettyChars (level : Nat) : ∀ v : Json, Spells v (v.prettyChars level)
  | arr [] => ⟨[], rfl, by simp [prettyChars, prettyItems, block]⟩
  | arr (v :: vs) =>
    ⟨_, spellsItems_prettyItems level (v :: vs) (List.cons_ne_nil v vs),
      by simp [prettyChars, prettyItems, block]⟩
  | obj [] => ⟨[], rfl, by simp [prettyChars, prettyMembers, block]⟩
  | obj ((k, v) :: ms) =>
    ⟨_, spellsMembers_prettyMembers level ((k, v) :: ms) (List.cons_ne_nil _ ms),
      by simp [prettyChars, prettyMembers, block]⟩
  | null | bool _ | int _ | float _ | str _ | unreadable => rfl

/-- The items with the lines around them. -/
theorem spellsItems_prettyItems (level : Nat) : ∀ vs : List Json, vs ≠ [] →
    SpellsItems vs (newline (level + 1) ++
      (',' :: newline (level + 1)).intercalate (prettyItems (level + 1) vs) ++ newline level)
  | [], h => absurd rfl h
  | [v], _ => by
    simpa [prettyItems] using spellsItems_singleton (blank_newline (level + 1))
      (spells_prettyChars (level + 1) v) (blank_newline level)
  | v :: w :: vs, _ => by
    have h := spellsItems_cons (blank_newline (level + 1)) (spells_prettyChars (level + 1) v)
      blank_nil (List.cons_ne_nil w vs)
      (spellsItems_prettyItems level (w :: vs) (List.cons_ne_nil w vs))
    simpa [prettyItems, List.intercalate_cons_cons] using h

/-- The members with the lines around them. -/
theorem spellsMembers_prettyMembers (level : Nat) : ∀ ms : List (String × Json), ms ≠ [] →
    SpellsMembers ms (newline (level + 1) ++
      (',' :: newline (level + 1)).intercalate (prettyMembers (level + 1) ms) ++ newline level)
  | [], h => absurd rfl h
  | [(k, v)], _ => by
    have hgap : Blank [' '] := by simp [Blank, isBlank]
    simpa [prettyMembers] using spellsMembers_singleton (k := k) (blank_newline (level + 1)) hgap
      (spells_prettyChars (level + 1) v) (blank_newline level)
  | (k, v) :: m :: ms, _ => by
    have hgap : Blank [' '] := by simp [Blank, isBlank]
    have h := spellsMembers_cons (k := k) (blank_newline (level + 1)) hgap
      (spells_prettyChars (level + 1) v) blank_nil (List.cons_ne_nil m ms)
      (spellsMembers_prettyMembers level (m :: ms) (List.cons_ne_nil m ms))
    obtain ⟨k', v'⟩ := m
    simpa [prettyMembers, List.intercalate_cons_cons] using h

end

/-! ## Values that are read back -/

mutual

/-- Whether all numbers of the value are integers of sixty-four bits, and all its parts values. -/
def IsExact : Json → Prop
  | int n => FitsWord n
  | float _ | unreadable => False
  | arr items => AreExact items
  | obj members => AreExactMembers members
  | _ => True

/-- Whether this holds of all items of an array. -/
def AreExact : List Json → Prop
  | [] => True
  | v :: vs => IsExact v ∧ AreExact vs

/-- Whether this holds of all members of an object. -/
def AreExactMembers : List (String × Json) → Prop
  | [] => True
  | (_, v) :: ms => IsExact v ∧ AreExactMembers ms

end

mutual

/-- What is left of a value if its arrays and objects may be nested `depth` deep. -/
def cut (depth : Nat) : Json → Json
  | arr items => nested depth (arr (cutItems (depth - 1) items))
  | obj members => nested depth (obj (cutMembers (depth - 1) members))
  | v => v

/-- What is left of the items of an array. -/
def cutItems (depth : Nat) : List Json → List Json
  | [] => []
  | v :: vs => cut depth v :: cutItems depth vs

/-- What is left of the members of an object. -/
def cutMembers (depth : Nat) : List (String × Json) → List (String × Json)
  | [] => []
  | (k, v) :: ms => (k, cut depth v) :: cutMembers depth ms

end

namespace Reader

/-! ## Readers without the lengths -/

/-- What a reader gives, without what it knows of the length of the rest. -/
def plain {α : Type} {cs : List Char} (found : Option (α × Rest cs)) : Option (α × List Char) :=
  found.map fun p => (p.1, p.2.1)

/-- What is read of a value, by the first character that is not blank. -/
theorem plain_value? {depth : Nat} {cs skipped : List Char} (hcs : skipBlanks cs = skipped) :
    plain (value? depth cs) =
      match skipped with
      | [] => none
      | '"' :: text => (quoted? [] text).map fun p => (orUnreadable ((text? p.1).map str), p.2)
      | '[' :: text =>
        match skipBlanks text with
        | ']' :: r => some (nested depth (.arr []), r)
        | _ => (plain (items? (depth - 1) text)).map fun p => (nested depth (.arr p.1), p.2)
      | '\x7b' :: text =>
        match skipBlanks text with
        | '\x7d' :: r => some (nested depth (.obj []), r)
        | _ => (plain (members? (depth - 1) text)).map fun p => (nested depth (object p.1), p.2)
      | c :: text => plain (scalar? (c :: text)) := by
  rw [value?]
  split <;> rename_i h <;> obtain rfl := hcs.symm.trans h
  · rfl
  · split <;> rename_i h' <;> simp [h', plain]
  · split
    · rename_i h'
      simp [h', plain]
    · cases hi : items? (depth - 1) _ <;> simp_all [plain]
  · split
    · rename_i h'
      simp [h', plain]
    · cases hi : members? (depth - 1) _ <;> simp_all [plain]
  · cases hi : scalar? _ <;> simp_all [plain]

/-- What is read of the items of an array. -/
theorem plain_items? (depth : Nat) (cs : List Char) :
    plain (items? depth cs) = (plain (value? depth cs)).bind fun found =>
      match skipBlanks found.2 with
      | ']' :: r => some ([found.1], r)
      | ',' :: r => (plain (items? depth r)).map fun more => (found.1 :: more.1, more.2)
      | _ => none := by
  rw [items?]
  split
  · rename_i h
    simp [h, plain]
  · rename_i v rest hrest h
    simp only [h, plain, Option.map_some, Option.bind_some]
    split
    · rename_i h'
      simp [h']
    · rename_i h'
      simp only [h']
      split <;> rename_i h'' <;> simp [h'']
    · split <;> simp_all

/-- What is read of the members of an object. -/
theorem plain_members? {depth : Nat} {cs text : List Char} (hcs : skipBlanks cs = '"' :: text) :
    plain (members? depth cs) = (quoted? [] text).bind fun name =>
      match skipBlanks name.2 with
      | ':' :: r => (plain (value? depth r)).bind fun found =>
        match skipBlanks found.2 with
        | '}' :: r => some ([(name.1, found.1)], r)
        | ',' :: r => (plain (members? depth r)).map fun more =>
          ((name.1, found.1) :: more.1, more.2)
        | _ => none
      | _ => none := by
  rw [members?]
  split
  · rename_i text' h
    obtain rfl := (List.cons.inj (h.symm.trans hcs)).2
    split
    · rename_i h'
      simp [h', plain]
    · rename_i name afterName hname
      simp only [hname, Option.bind_some]
      split
      · rename_i h'
        simp only [h']
        split
        · rename_i h''
          simp [h'', plain]
        · rename_i h''
          simp only [h'', plain, Option.map_some, Option.bind_some]
          split
          · rename_i h₃
            simp [h₃]
          · rename_i h₃
            simp only [h₃]
            split <;> rename_i h₄ <;> simp [h₄]
          · split <;> simp_all
      · split <;> simp_all [plain]
  · simp_all

/-- What is read of a word or a numeral. -/
theorem plain_scalar? (cs : List Char) : plain (scalar? cs) =
    match cs with
    | 't' :: 'r' :: 'u' :: 'e' :: rest => some (.bool true, rest)
    | 'f' :: 'a' :: 'l' :: 's' :: 'e' :: rest => some (.bool false, rest)
    | 'n' :: 'u' :: 'l' :: 'l' :: rest => some (.null, rest)
    | cs => (NumeralText.read? cs).map fun p => (orUnreadable p.1.value?, p.2) := by
  unfold scalar?
  split
  · rfl
  · rfl
  · rfl
  · split <;> simp_all [plain]

/-! ## Steps of the reader -/

theorem skipBlanks_append {before : List Char} (h : Blank before) (cs : List Char) :
    skipBlanks (before ++ cs) = skipBlanks cs :=
  List.dropWhile_append_of_pos h

theorem skipBlanks_cons {c : Char} (h : isBlank c = false) (cs : List Char) :
    skipBlanks (c :: cs) = c :: cs := by
  simp [skipBlanks, h]

/-- Blanks are no part of a numeral. -/
theorem ends_append {after cs : List Char} (h : Blank after) (hcs : Ends cs) :
    Ends (after ++ cs) := by
  cases after with
  | nil => exact hcs
  | cons c after =>
    have hc : isBlank c := h c List.mem_cons_self
    refine ends_of_head ?_
    simp only [isBlank, Bool.or_eq_true, decide_eq_true_eq] at hc
    rcases hc with ((rfl | rfl) | rfl) | rfl <;> rfl

/-- The characters that other values start with, the closing brackets and the blanks. -/
def nonNumeral : List Char :=
  ['"', '[', '\x7b', 't', 'f', 'n', ']', '\x7d', ' ', '\n', '\t', '\r']

/-- A numeral starts with a minus or a digit. -/
theorem integer_eq_cons (n : Int) : ∃ c cs, integer n = c :: cs ∧ c ∉ nonNumeral := by
  unfold integer
  split
  · exact ⟨_, _, rfl, by decide⟩
  · cases h : Number.digitChars n.natAbs with
    | nil => exact absurd h (Number.digitChars_ne_nil _)
    | cons c cs =>
      refine ⟨c, cs, rfl, fun hmem => ?_⟩
      have hc : c.isDigit := Number.isDigit_of_mem_digitChars (n := n.natAbs) (by simp [h])
      have hnot : nonNumeral.all (fun c => !c.isDigit) := by decide
      exact absurd hc (by simpa using List.all_eq_true.1 hnot c hmem)

/-- A text of a value starts with neither a blank nor a closing bracket. -/
theorem spells_eq_cons {v : Json} {text : List Char} (hv : IsExact v) (h : Spells v text) :
    ∃ c cs, text = c :: cs ∧ isBlank c = false ∧ c ≠ ']' := by
  cases v with
  | null => exact ⟨_, _, h, rfl, by decide⟩
  | bool b => cases b <;> exact ⟨_, _, h, rfl, by decide⟩
  | int n =>
    obtain ⟨c, cs, hcons, hc⟩ := integer_eq_cons n
    refine ⟨c, cs, h.trans hcons, ?_⟩
    simp only [nonNumeral, List.mem_cons, not_or] at hc
    simp [isBlank, hc]
  | float x => exact hv.elim
  | str s => exact ⟨_, _, h, rfl, by decide⟩
  | arr items =>
    obtain ⟨body, -, rfl⟩ := h
    exact ⟨_, _, rfl, rfl, by decide⟩
  | obj members =>
    obtain ⟨body, -, rfl⟩ := h
    exact ⟨_, _, rfl, rfl, by decide⟩
  | unreadable => exact hv.elim

/-! ## What is read of a text of a value -/

/-- A member as it is read, its name being the numbers it is written by. -/
def memberNumbers (m : String × Json) : List Nat × Json :=
  (m.1.toList.map Char.toNat, m.2)

theorem object_map_memberNumbers (ms : List (String × Json)) :
    object (ms.map memberNumbers) = obj ms := by
  have h : (ms.map memberNumbers).mapM member? = some ms := by
    induction ms with
    | nil => rfl
    | cons m ms ih =>
      rw [List.map_cons, List.mapM_cons, ih]
      simp [member?, memberNumbers, text?_toNat]
  rw [object, h]
  rfl

section Steps

variable {depth : Nat} {cs text rest : List Char}

theorem plain_value?_quote {s : String} (h : skipBlanks cs = quote s ++ rest) :
    plain (value? depth cs) = some (str s, rest) := by
  obtain ⟨text, htext, hquoted⟩ := quoted?_quote s rest
  rw [plain_value? (h.trans htext)]
  simp [hquoted, text?_toNat, orUnreadable]

theorem plain_value?_integer {n : Int} (hn : FitsWord n) (hrest : Ends rest)
    (h : skipBlanks cs = integer n ++ rest) : plain (value? depth cs) = some (int n, rest) := by
  obtain ⟨t, hread, hvalue⟩ := read?_integer hn hrest
  obtain ⟨c, digits, hcons, hc⟩ := integer_eq_cons n
  simp only [nonNumeral, List.mem_cons, not_or] at hc
  rw [hcons, List.cons_append] at hread h
  have hscalar : plain (scalar? (c :: (digits ++ rest))) = some (int n, rest) := by
    rw [plain_scalar?]
    simp [hc, hread, hvalue, orUnreadable]
  rw [plain_value? h]
  simp [hc, hscalar]

theorem plain_value?_items {body : List Char} {vs : List Json} {c : Char}
    (h : skipBlanks cs = '[' :: text) (hc : skipBlanks text = c :: body) (hne : c ≠ ']')
    (hitems : plain (items? (depth - 1) text) = some (vs, rest)) :
    plain (value? depth cs) = some (nested depth (arr vs), rest) := by
  rw [plain_value? h]
  simp [hc, hne, hitems]

theorem plain_value?_members {body : List Char} {ms : List (String × Json)} {c : Char}
    (h : skipBlanks cs = '\x7b' :: text) (hc : skipBlanks text = c :: body) (hne : c ≠ '\x7d')
    (hmembers : plain (members? (depth - 1) text) = some (ms.map memberNumbers, rest)) :
    plain (value? depth cs) = some (nested depth (obj ms), rest) := by
  rw [plain_value? h]
  simp [hc, hne, hmembers, object_map_memberNumbers]

end Steps

/-- The text of an item starts where the blanks end, and not with a closing bracket. -/
theorem skipBlanks_spells {v : Json} {before text : List Char} (hv : IsExact v)
    (hbefore : Blank before) (htext : Spells v text) (rest : List Char) :
    skipBlanks (before ++ text ++ rest) = text ++ rest ∧
      ∃ c cs, text ++ rest = c :: cs ∧ c ≠ ']' := by
  obtain ⟨c, cs, rfl, hblank, hbracket⟩ := spells_eq_cons hv htext
  rw [List.append_assoc, skipBlanks_append hbefore]
  exact ⟨skipBlanks_cons hblank _, c, cs ++ rest, rfl, hbracket⟩

/-- The name of a member starts where the blanks end. -/
theorem skipBlanks_quote {before : List Char} (hbefore : Blank before) (k : String)
    (rest : List Char) : ∃ cs, skipBlanks (before ++ (quote k ++ rest)) = '"' :: cs ∧
      quoted? [] cs = some (k.toList.map Char.toNat, rest) := by
  obtain ⟨cs, hcs, hquoted⟩ := quoted?_quote k rest
  rw [skipBlanks_append hbefore, hcs]
  exact ⟨cs, skipBlanks_cons rfl cs, hquoted⟩

mutual

/-- What is read of a text of a value is the value, as far as it is not too deep. -/
theorem plain_value?_spells (v : Json) (hv : IsExact v) (depth : Nat)
    {before text rest : List Char} (hbefore : Blank before) (htext : Spells v text)
    (hrest : Ends rest) :
    plain (value? depth (before ++ text ++ rest)) = some (cut depth v, rest) := by
  have hskip := (skipBlanks_spells hv hbefore htext rest).1
  match v with
  | null =>
    obtain rfl : text = ['n', 'u', 'l', 'l'] := htext
    rw [plain_value? hskip]
    rfl
  | bool true =>
    obtain rfl : text = ['t', 'r', 'u', 'e'] := htext
    rw [plain_value? hskip]
    rfl
  | bool false =>
    obtain rfl : text = ['f', 'a', 'l', 's', 'e'] := htext
    rw [plain_value? hskip]
    rfl
  | int n =>
    obtain rfl : text = integer n := htext
    exact plain_value?_integer hv hrest hskip
  | str s =>
    obtain rfl : text = quote s := htext
    exact plain_value?_quote hskip
  | float _ | unreadable => exact hv.elim
  | arr [] =>
    obtain ⟨body, rfl : body = [], rfl⟩ := htext
    rw [plain_value? hskip]
    simp [skipBlanks_cons (show isBlank ']' = false from rfl), cut, cutItems]
  | arr (v :: vs) =>
    obtain ⟨body, hbody, rfl⟩ := htext
    -- Behind the bracket an item begins, so the array is not taken for an empty one.
    obtain ⟨c, cs, hhead, hne⟩ : ∃ c cs, skipBlanks (body ++ ']' :: rest) = c :: cs ∧ c ≠ ']' := by
      obtain ⟨before, text, after, more, hbefore, hitem, -, rfl, -⟩ := hbody
      have h := skipBlanks_spells hv.1 hbefore hitem (after ++ more ++ ']' :: rest)
      simp only [List.append_assoc] at h ⊢
      rw [h.1]
      exact h.2
    refine plain_value?_items (show _ = '[' :: (body ++ ']' :: rest) by simpa using hskip) hhead
      hne ?_
    exact plain_items?_spells (v :: vs) (List.cons_ne_nil v vs) hv hbody
  | obj [] =>
    obtain ⟨body, rfl : body = [], rfl⟩ := htext
    rw [plain_value? hskip]
    simp [skipBlanks_cons (show isBlank '\x7d' = false from rfl), cut, cutMembers]
  | obj ((k, v) :: ms) =>
    obtain ⟨body, hbody, rfl⟩ := htext
    obtain ⟨cs, hhead⟩ : ∃ cs, skipBlanks (body ++ '\x7d' :: rest) = '"' :: cs := by
      obtain ⟨before, gap, text, after, more, hbefore, -, -, -, rfl, -⟩ := hbody
      obtain ⟨cs, hcs, -⟩ := skipBlanks_quote hbefore k
        (':' :: gap ++ text ++ after ++ more ++ '\x7d' :: rest)
      exact ⟨cs, by simpa using hcs⟩
    refine plain_value?_members
      (show _ = '\x7b' :: (body ++ '\x7d' :: rest) by simpa using hskip) hhead (by decide) ?_
    exact plain_members?_spells ((k, v) :: ms) (List.cons_ne_nil _ ms) hv hbody

/-- What is read of texts of the items of an array. -/
theorem plain_items?_spells (vs : List Json) (hne : vs ≠ []) (hvs : AreExact vs) {depth : Nat}
    {body rest : List Char} (hbody : SpellsItems vs body) :
    plain (items? depth (body ++ ']' :: rest)) = some (cutItems depth vs, rest) := by
  obtain _ | ⟨v, vs⟩ := vs
  · exact absurd rfl hne
  obtain ⟨hv, hvs⟩ := hvs
  obtain ⟨before, text, after, more, hbefore, htext, hafter, rfl, hmore⟩ := hbody
  have hends : Ends (after ++ (more ++ ']' :: rest)) := by
    refine ends_append hafter ?_
    rcases hmore with ⟨-, rfl⟩ | ⟨-, body, -, rfl⟩ <;> exact ends_of_head rfl
  have hvalue := plain_value?_spells v hv depth hbefore htext hends
  rw [plain_items?, show before ++ text ++ after ++ more ++ ']' :: rest =
    before ++ text ++ (after ++ (more ++ ']' :: rest)) by simp, hvalue]
  simp only [Option.bind_some, skipBlanks_append hafter]
  rcases hmore with ⟨rfl, rfl⟩ | ⟨hne, body, hbody, rfl⟩
  · simp [skipBlanks_cons (show isBlank ']' = false from rfl), cutItems]
  · simp [skipBlanks_cons (show isBlank ',' = false from rfl),
      plain_items?_spells vs hne hvs hbody, cutItems]

/-- What is read of texts of the members of an object. -/
theorem plain_members?_spells (ms : List (String × Json)) (hne : ms ≠ [])
    (hms : AreExactMembers ms) {depth : Nat} {body rest : List Char}
    (hbody : SpellsMembers ms body) :
    plain (members? depth (body ++ '\x7d' :: rest)) =
      some ((cutMembers depth ms).map memberNumbers, rest) := by
  obtain _ | ⟨⟨k, v⟩, ms⟩ := ms
  · exact absurd rfl hne
  obtain ⟨hv, hms⟩ := hms
  obtain ⟨before, gap, text, after, more, hbefore, hgap, htext, hafter, rfl, hmore⟩ := hbody
  have hends : Ends (after ++ (more ++ '\x7d' :: rest)) := by
    refine ends_append hafter ?_
    rcases hmore with ⟨-, rfl⟩ | ⟨-, body, -, rfl⟩ <;> exact ends_of_head rfl
  obtain ⟨cs, hcs, hname⟩ := skipBlanks_quote hbefore k
    (':' :: (gap ++ text ++ (after ++ (more ++ '\x7d' :: rest))))
  have hvalue := plain_value?_spells v hv depth hgap htext hends
  rw [show before ++ quote k ++ ':' :: gap ++ text ++ after ++ more ++ '\x7d' :: rest =
    before ++ (quote k ++ ':' :: (gap ++ text ++ (after ++ (more ++ '\x7d' :: rest)))) by simp,
    plain_members? hcs, hname]
  simp only [Option.bind_some, skipBlanks_cons (show isBlank ':' = false from rfl), hvalue,
    skipBlanks_append hafter]
  rcases hmore with ⟨rfl, rfl⟩ | ⟨hne, body, hbody, rfl⟩
  · simp [skipBlanks_cons (show isBlank '\x7d' = false from rfl), cutMembers, memberNumbers]
  · simp [skipBlanks_cons (show isBlank ',' = false from rfl),
      plain_members?_spells ms hne hms hbody, cutMembers, memberNumbers]

end

end Reader

/-- What is read of a text of a value, with blanks around it. -/
theorem ofChars?_spells {v : Json} {before text after : List Char} (hv : IsExact v)
    (hbefore : Blank before) (htext : Spells v text) (hafter : Blank after) :
    ofChars? (before ++ text ++ after) = some (cut maxDepth v) := by
  have h := plain_value?_spells v hv maxDepth hbefore htext
    (by simpa using ends_append hafter ends_nil)
  obtain ⟨⟨w, r, hr⟩, hfound, hplain⟩ := Option.map_eq_some_iff.1 h
  obtain ⟨rfl, rfl⟩ : w = cut maxDepth v ∧ r = after := Prod.mk.inj hplain
  have hblank := skipBlanks_append hafter []
  rw [List.append_nil] at hblank
  rw [ofChars?, hfound]
  simp only [hblank]
  rfl

/-- A value is read back from one line, as far as it is not too deep. -/
theorem read?_compact {v : Json} (hv : IsExact v) : read? (compact v) = some (cut maxDepth v) := by
  have h := ofChars?_spells hv blank_nil (spells_compactChars v) blank_nil
  rw [read?, compact, String.toList_ofList]
  simpa using h

/-- A value is read back from several lines, as far as it is not too deep. -/
theorem read?_pretty {v : Json} (hv : IsExact v) : read? (pretty v) = some (cut maxDepth v) := by
  have h := ofChars?_spells hv blank_nil (spells_prettyChars 0 v) blank_nil
  rw [read?, pretty, String.toList_ofList]
  simpa using h

end Json

end DocTemplate
