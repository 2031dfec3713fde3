import DocTemplate.Proofs.Text.Search
import Mathlib.Data.List.Forall2
import Mathlib.Data.List.Infix

/-!
# Replacing a literal

To replace a word in a list, the list is *cut* at it from the left: where the word begins, it is a
part and the search goes on behind it; any other element is a part of its own (`Text.Cuts`). Then
an element takes the place of each part that is the word (`Text.replaced`).

If a list is put together from chunks, each of them may be cut on its own. This comes to the same
unless an occurrence that is found in the whole goes over the end of a chunk (`Text.Spreads`).

* `Text.Cuts.unique`, `Text.exists_cuts`: every list is cut in one way;
* `Text.Cuts.not_infix_replaced`: the word is not left, nor does it come about;
* `Text.replaced_eq_iff`: when chunks may be cut on their own;
* `Text.exists_cuts_pieces`: the pieces of a text are what is between the occurrences.
-/

namespace DocTemplate

namespace Text

variable {α : Type} {word as bs : List α} {a new : α} {parts parts' : List (List α)}

/-- A word that is not empty comes first. -/
def Begins (word as : List α) : Prop :=
  word ≠ [] ∧ word <+: as

/-- The parts of a list that is cut from the left at each occurrence of a word: these occurrences,
    and every other element. -/
inductive Cuts (word : List α) : List α → List (List α) → Prop
  | nil : Cuts word [] []
  | found {as : List α} {parts : List (List α)} (hne : word ≠ []) (h : Cuts word as parts) :
      Cuts word (word ++ as) (word :: parts)
  | other {a : α} {as : List α} {parts : List (List α)} (hnot : ¬ Begins word (a :: as))
      (h : Cuts word as parts) : Cuts word (a :: as) ([a] :: parts)

theorem begins_map_iff {f : Char → α} (hf : f.Injective) {needle text : List Char} :
    Begins (needle.map f) (text.map f) ↔ Begins needle text := by
  rw [Begins, Begins, List.prefix_map_iff_of_injective hf, Ne, List.map_eq_nil_iff]

/-- Every list can be cut. -/
theorem exists_cuts (word as : List α) : ∃ parts, Cuts word as parts := by
  induction hn : as.length using Nat.strongRecOn generalizing as with
  | ind n ih =>
    cases as with
    | nil => exact ⟨[], .nil⟩
    | cons a as =>
      by_cases hbegins : Begins word (a :: as)
      · obtain ⟨hne, rest, hrest⟩ := hbegins
        have hlength := congrArg List.length hrest
        have hpos := List.length_pos_iff.2 hne
        rw [List.length_append] at hlength
        obtain ⟨parts, hparts⟩ := ih rest.length (by omega) rest rfl
        exact ⟨word :: parts, hrest ▸ .found hne hparts⟩
      · obtain ⟨parts, hparts⟩ := ih as.length (by simp [← hn]) as rfl
        exact ⟨[a] :: parts, .other hbegins hparts⟩

namespace Cuts

theorem flatten_eq (h : Cuts word as parts) : parts.flatten = as := by
  induction h with
  | nil => rfl
  | found _ _ ih => rw [List.flatten_cons, ih]
  | other _ _ ih => rw [List.flatten_cons, ih, List.singleton_append]

theorem exists_of_append (hne : word ≠ []) (h : Cuts word (word ++ as) parts) :
    ∃ rest, parts = word :: rest ∧ Cuts word as rest := by
  generalize hbs : word ++ as = bs at h
  cases h with
  | nil => exact absurd (List.append_eq_nil_iff.1 hbs).1 hne
  | found _ h => exact ⟨_, rfl, List.append_cancel_left hbs ▸ h⟩
  | other hnot _ => exact absurd ⟨hne, as, hbs⟩ hnot

theorem exists_of_not_begins (hnot : ¬ Begins word (a :: as)) (h : Cuts word (a :: as) parts) :
    ∃ rest, parts = [a] :: rest ∧ Cuts word as rest := by
  generalize hbs : a :: as = bs at h
  cases h with
  | nil => cases hbs
  | found hne _ => exact absurd ⟨hne, _, hbs.symm⟩ hnot
  | other _ h =>
    obtain ⟨rfl, rfl⟩ := List.cons_eq_cons.1 hbs
    exact ⟨_, rfl, h⟩

/-- There is only one way to cut a list. -/
theorem unique (h : Cuts word as parts) (h' : Cuts word as parts') : parts' = parts := by
  induction h generalizing parts' with
  | nil =>
    generalize has : ([] : List α) = as at h'
    cases h' with
    | nil => rfl
    | found hne _ => exact absurd (List.append_eq_nil_iff.1 has.symm).1 hne
    | other _ _ => cases has
  | found hne _ ih =>
    obtain ⟨rest, rfl, hrest⟩ := h'.exists_of_append hne
    rw [ih hrest]
  | other hnot _ ih =>
    obtain ⟨rest, rfl, hrest⟩ := h'.exists_of_not_begins hnot
    rw [ih hrest]

/-- If more follows, the list is cut as before; or an occurrence comes about that begins in it and
    goes over its end, where there was an element of its own. -/
theorem append_or (h : Cuts word as parts) (h' : Cuts word (as ++ bs) parts') :
    (∃ rest, parts' = parts ++ rest ∧ Cuts word bs rest) ∨
      ∃ front a rest back, parts = front ++ [a] :: rest ∧ parts' = front ++ word :: back ∧
        a ∈ word ∧ (a :: rest.flatten).length < word.length := by
  induction h generalizing parts' with
  | nil => exact .inl ⟨parts', rfl, h'⟩
  | found hne _ ih =>
    rw [List.append_assoc] at h'
    obtain ⟨rest', rfl, hrest'⟩ := h'.exists_of_append hne
    rcases ih hrest' with ⟨rest, rfl, hrest⟩ | ⟨front, a, rest, back, rfl, rfl, hmem, hlength⟩
    · exact .inl ⟨rest, rfl, hrest⟩
    · exact .inr ⟨word :: front, a, rest, back, rfl, rfl, hmem, hlength⟩
  | @other a as parts hnot h ih =>
    by_cases hbegins : Begins word (a :: as ++ bs)
    · obtain ⟨hne, more, hmore⟩ := hbegins
      rw [← hmore] at h'
      obtain ⟨back, rfl, -⟩ := h'.exists_of_append hne
      obtain ⟨b, rest, rfl⟩ := List.exists_cons_of_ne_nil hne
      obtain ⟨rfl, -⟩ := List.cons_eq_cons.1 hmore
      refine .inr ⟨[], b, parts, back, rfl, rfl, List.mem_cons_self, ?_⟩
      -- A shorter word would be at the front before.
      rw [h.flatten_eq]
      by_contra hlength
      exact hnot ⟨hne, List.prefix_of_prefix_length_le ⟨more, hmore⟩
        (List.prefix_append (b :: as) bs) (Nat.le_of_not_lt hlength)⟩
    · obtain ⟨rest', rfl, hrest'⟩ := h'.exists_of_not_begins hbegins
      rcases ih hrest' with ⟨rest, rfl, hrest⟩ | ⟨front, b, rest, back, rfl, rfl, hmem, hlength⟩
      · exact .inl ⟨rest, rfl, hrest⟩
      · exact .inr ⟨[a] :: front, b, rest, back, rfl, rfl, hmem, hlength⟩

end Cuts

/-! ## Chunks that are cut on their own -/

/-- An occurrence of the word that is found in the whole goes over the end of a chunk. -/
def Spreads (word : List α) (chunks : List (List α)) : Prop :=
  ∃ front back before after, chunks = front ++ back ∧
    Cuts word chunks.flatten (before ++ word :: after) ∧
      before.flatten.length < front.flatten.length ∧
        front.flatten.length < before.flatten.length + word.length

variable {chunk : List α} {chunks : List (List α)} {cuts : List (List (List α))}

/-- If an occurrence goes over the end of a later chunk, it does so with one more chunk in front,
    which is cut on its own. -/
theorem Spreads.cons (hchunk : Cuts word chunk parts)
    (hall : Cuts word (chunk :: chunks).flatten (parts ++ parts'))
    (hrest : Cuts word chunks.flatten parts') (h : Spreads word chunks) :
    Spreads word (chunk :: chunks) := by
  obtain ⟨front, back, before, after, rfl, hcuts, hlt, hlt'⟩ := h
  obtain rfl := hcuts.unique hrest
  refine ⟨chunk :: front, back, parts ++ before, after, rfl, by simpa using hall, ?_, ?_⟩
  · simpa [hchunk.flatten_eq] using hlt
  · simp only [List.flatten_append, List.flatten_cons, List.length_append, hchunk.flatten_eq]
    omega

/-- The chunks are cut on their own if no occurrence goes over the end of one. -/
theorem eq_flatten_of_not_spreads (h : List.Forall₂ (Cuts word) chunks cuts)
    (hall : Cuts word chunks.flatten parts) (hnot : ¬ Spreads word chunks) :
    parts = cuts.flatten := by
  induction h generalizing parts with
  | nil => exact Cuts.nil.unique hall
  | @cons chunk cut chunks cuts hchunk _ ih =>
    rw [List.flatten_cons] at hall
    rcases hchunk.append_or hall with ⟨rest, rfl, hrest⟩ | ⟨front, a, rest, back, rfl, rfl, -, hlt⟩
    · rw [List.flatten_cons, ih hrest fun hspreads => hnot (hspreads.cons hchunk hall hrest)]
    · refine absurd ⟨[chunk], chunks, front, back, rfl, hall, ?_, ?_⟩ hnot
      · simp [← hchunk.flatten_eq]
      · rw [← hchunk.flatten_eq]
        simp only [List.flatten_cons, List.flatten_nil, List.append_nil, List.flatten_append,
          List.length_append, List.length_cons, List.length_nil] at hlt ⊢
        omega

/-- If they are cut on their own, then no occurrence goes over the end of one. -/
theorem not_spreads_of_cuts_flatten (h : List.Forall₂ (Cuts word) chunks cuts)
    (hall : Cuts word chunks.flatten cuts.flatten) : ¬ Spreads word chunks := by
  rintro ⟨front, back, before, after, rfl, hcuts, hlt, hlt'⟩
  have hflatten : ∀ {chunks : List (List α)} {cuts : List (List (List α))},
      List.Forall₂ (Cuts word) chunks cuts → cuts.flatten.flatten = chunks.flatten := by
    intro chunks cuts h
    induction h with
    | nil => rfl
    | cons hchunk _ ih => simp [hchunk.flatten_eq, ih]
  -- What is before the end of a chunk are whole parts, and the occurrence is one.
  have htake := List.forall₂_take front.length h
  rw [List.take_left] at htake
  have hend := hflatten htake
  have hsplit := hall.unique hcuts
  rw [← List.take_append_drop front.length cuts, List.flatten_append] at hsplit
  rcases List.append_eq_append_iff.1 hsplit with ⟨rest, hfront, hrest⟩ | ⟨rest, hbefore, -⟩
  · cases rest with
    | nil =>
      rw [← hend, hfront, List.append_nil] at hlt
      omega
    | cons part rest =>
      obtain ⟨rfl, -⟩ := List.cons_eq_cons.1 hrest
      rw [← hend, hfront, List.flatten_append, List.flatten_cons, List.length_append,
        List.length_append] at hlt'
      omega
  · rw [hbefore, List.flatten_append, List.length_append, hend] at hlt
    omega

/-! ## Replacements -/

variable [DecidableEq α]

/-- The parts put together, with an element in the place of each one that is the word. -/
def replaced (new : α) (word : List α) (parts : List (List α)) : List α :=
  parts.flatMap fun part => if part = word then [new] else part

@[simp] theorem replaced_nil : replaced new word [] = [] := rfl

@[simp] theorem replaced_append (parts parts' : List (List α)) :
    replaced new word (parts ++ parts') = replaced new word parts ++ replaced new word parts' :=
  List.flatMap_append

@[simp] theorem replaced_word (parts : List (List α)) :
    replaced new word (word :: parts) = new :: replaced new word parts := by
  simp [replaced]

theorem replaced_of_ne {part : List α} (h : part ≠ word) (parts : List (List α)) :
    replaced new word (part :: parts) = part ++ replaced new word parts := by
  simp [replaced, h]

theorem replaced_of_not_begins (h : ¬ Begins word (a :: as)) (parts : List (List α)) :
    replaced new word ([a] :: parts) = a :: replaced new word parts := by
  refine replaced_of_ne ?_ parts
  rintro rfl
  exact h ⟨List.cons_ne_nil a [], as, rfl⟩

namespace Cuts

/-- What comes first after a replacement and does not have the new element was there before. -/
theorem prefix_of_prefix_replaced (h : Cuts word as parts) {bs : List α} (hnew : new ∉ bs)
    (hbs : bs <+: replaced new word parts) : bs <+: as := by
  induction h generalizing bs with
  | nil => exact hbs
  | found hne _ ih =>
    rw [replaced_word] at hbs
    cases bs with
    | nil => exact List.nil_prefix
    | cons b bs =>
      obtain rfl := (List.cons_prefix_cons.1 hbs).1
      exact absurd List.mem_cons_self hnew
  | other hnot _ ih =>
    rw [replaced_of_not_begins hnot] at hbs
    cases bs with
    | nil => exact List.nil_prefix
    | cons b bs =>
      obtain ⟨rfl, hrest⟩ := List.cons_prefix_cons.1 hbs
      exact List.cons_prefix_cons.2 ⟨rfl, ih (mt (List.mem_cons_of_mem _) hnew) hrest⟩

/-- The word is not left, nor does it come about, if the new element is none of it. -/
theorem not_infix_replaced (h : Cuts word as parts) (hne : word ≠ []) (hnew : new ∉ word) :
    ¬ word <:+: replaced new word parts := by
  induction h with
  | nil => exact fun hinfix => hne (List.infix_nil.1 hinfix)
  | found _ _ ih =>
    rw [replaced_word, List.infix_cons_iff]
    rintro (hhead | hinfix)
    · obtain ⟨b, rest, rfl⟩ := List.exists_cons_of_ne_nil hne
      obtain rfl := (List.cons_prefix_cons.1 hhead).1
      exact hnew List.mem_cons_self
    · exact ih hinfix
  | other hnot h ih =>
    have hcuts := Cuts.other hnot h
    rw [replaced_of_not_begins hnot, List.infix_cons_iff]
    rintro (hhead | hinfix)
    · rw [← replaced_of_not_begins hnot] at hhead
      exact hnot ⟨hne, hcuts.prefix_of_prefix_replaced hnew hhead⟩
    · exact ih hinfix

end Cuts

/-- The chunks are cut on their own if this leaves what it should. -/
theorem eq_flatten_of_replaced_eq (h : List.Forall₂ (Cuts word) chunks cuts)
    (hall : Cuts word chunks.flatten parts) (hnew : new ∉ word)
    (heq : replaced new word cuts.flatten = replaced new word parts) : parts = cuts.flatten := by
  induction h generalizing parts with
  | nil => exact Cuts.nil.unique hall
  | @cons chunk cut chunks cuts hchunk _ ih =>
    rw [List.flatten_cons] at hall heq
    rcases hchunk.append_or hall with
      ⟨rest, rfl, hrest⟩ | ⟨front, a, rest, back, rfl, rfl, hmem, hlt⟩
    · rw [replaced_append, replaced_append] at heq
      rw [List.flatten_cons, ih hrest (List.append_cancel_left heq)]
    · -- The first element of the occurrence is still there.
      have hne : [a] ≠ word := by
        rintro rfl
        simp at hlt
      simp only [replaced_append, replaced_of_ne hne, replaced_word, List.append_assoc,
        List.append_cancel_left_eq] at heq
      obtain ⟨rfl, -⟩ := List.cons_eq_cons.1 heq
      exact absurd hmem hnew

/-- Chunks may be cut on their own exactly if no occurrence goes over the end of one. -/
theorem replaced_eq_iff (h : List.Forall₂ (Cuts word) chunks cuts)
    (hall : Cuts word chunks.flatten parts) (hnew : new ∉ word) :
    replaced new word cuts.flatten = replaced new word parts ↔ ¬ Spreads word chunks := by
  constructor
  · intro heq
    obtain rfl := eq_flatten_of_replaced_eq h hall hnew heq
    exact not_spreads_of_cuts_flatten h hall
  · intro hnot
    rw [eq_flatten_of_not_spreads h hall hnot]

/-! ## Texts -/

/-- Where the word does not begin, every element is a part of its own. -/
theorem Cuts.singletons_append (h : Cuts word bs parts)
    (hnot : ∀ front back, as = front ++ back → back ≠ [] → ¬ Begins word (back ++ bs)) :
    Cuts word (as ++ bs) (as.map (fun a => [a]) ++ parts) ∧
      ∀ new, replaced new word (as.map (fun a => [a]) ++ parts) = as ++ replaced new word parts := by
  induction as with
  | nil => exact ⟨h, fun _ => rfl⟩
  | cons a as ih =>
    have hbegins : ¬ Begins word (a :: (as ++ bs)) := hnot [] (a :: as) rfl (List.cons_ne_nil a as)
    obtain ⟨hcuts, hreplaced⟩ := ih fun front back has => hnot (a :: front) back (by rw [has]; rfl)
    refine ⟨.other hbegins hcuts, fun new => ?_⟩
    rw [List.map_cons, List.cons_append, replaced_of_not_begins hbegins, hreplaced]
    rfl

/-- The pieces of a text are what is between the occurrences at which it is cut. -/
theorem exists_cuts_pieces {f : Char → α} (hf : f.Injective) {needle : List Char}
    (hne : needle ≠ []) (text : List Char) : ∃ parts, Cuts (needle.map f) (text.map f) parts ∧
      ∀ new, replaced new (needle.map f) parts =
        [new].intercalate ((pieces needle text).map (List.map f)) := by
  have hcut : ∀ (before : List Char) {rest : List Char} {parts : List (List α)},
      Cuts (needle.map f) (rest.map f) parts →
      (∀ front back, before = front ++ back → back ≠ [] → ¬ Begins needle (back ++ rest)) →
      Cuts (needle.map f) ((before ++ rest).map f) ((before.map f).map (fun a => [a]) ++ parts) ∧
        ∀ new, replaced new (needle.map f) ((before.map f).map (fun a => [a]) ++ parts) =
          before.map f ++ replaced new (needle.map f) parts := by
    intro before rest parts hrest hnot
    rw [List.map_append]
    refine hrest.singletons_append fun front back hbefore hback => ?_
    obtain ⟨front, back, rfl, rfl, rfl⟩ := List.map_eq_append_iff.1 hbefore
    rw [← List.map_append, begins_map_iff hf]
    exact hnot front back rfl (mt (congrArg (List.map f)) hback)
  fun_induction pieces needle text with
  | case1 => exact absurd ‹needle = []› hne
  | case2 text _ hfind =>
    obtain ⟨hcuts, hreplaced⟩ := @hcut text [] _ .nil fun front back htext _ => by
      rintro ⟨-, more, hmore⟩
      refine find?_eq_none_iff.1 hfind front more ?_
      rw [htext, List.append_assoc, hmore, List.append_nil]
    rw [List.append_nil] at hcuts
    exact ⟨_, hcuts, fun new => by rw [hreplaced, replaced_nil]; simp⟩
  | case3 text _ before after hfind ih =>
    obtain ⟨parts, hparts, hpieces⟩ := ih
    have hfirst := find?_eq_some_iff.1 hfind
    have hneedle : needle.map f ≠ [] := mt List.map_eq_nil_iff.1 hne
    have hrest : Cuts (needle.map f) ((needle ++ after).map f) (needle.map f :: parts) := by
      rw [List.map_append]
      exact .found hneedle hparts
    -- An occurrence that begins before the first one would be the first one.
    obtain ⟨hcuts, hreplaced⟩ := hcut before hrest fun front back hbefore hback => by
      rintro ⟨-, more, hmore⟩
      have htext : text = front ++ needle ++ more := by
        rw [hfirst.text_eq, hbefore, List.append_assoc, List.append_assoc, List.append_assoc, hmore]
      have hle := hfirst.length_le htext
      have hpos := List.length_pos_iff.2 hback
      rw [hbefore, List.length_append] at hle
      omega
    rw [← List.append_assoc, ← hfirst.text_eq] at hcuts
    refine ⟨_, hcuts, fun new => ?_⟩
    obtain ⟨piece, pieces, hcons⟩ := List.exists_cons_of_ne_nil (pieces_ne_nil needle after)
    rw [hreplaced, replaced_word, hpieces, hcons]
    simp [List.intercalate_cons_cons]

end Text

end DocTemplate
