import DocTemplate.Proofs.Placeholder.Splice
import DocTemplate.Proofs.Text.Search

/-!
# Which placeholders are found

A text is divided from the left to the right (`Delimiters.Greedy`): up to the first opening
delimiter, from there to the first closing delimiter behind at least one character, and so on in
what is left. Delimiters may overlap themselves or each other, or be part of each other, so it
matters that the closing delimiter is looked for only behind that character, and that the search
goes on only behind the closing delimiter.

If a placeholder occurs anywhere in a text, then there is a first one (`Delimiters.exists_leads`):
a closing delimiter behind a later opening delimiter is also behind the first one. So nothing is
missed when the search ends at the first opening delimiter without a closing one.

* `Delimiters.leads_iff_isMatch`: what is found is the leftmost match of some text between the
  delimiters, and the shortest one there;
* `Delimiters.greedy_iff_eq_scanFrom`: there is one such division, and the scan finds it;
* `Delimiters.Greedy.pairwise`: the placeholders are in order and apart;
* `Delimiters.Greedy.exists_around`: no placeholder starts outside of those found;
* `Delimiters.strip_placeholderAt`: stripped of the delimiters, a placeholder is what is between
  them;
* `Delimiters.divides_iff_eq_scan`: all of this together.
-/

namespace DocTemplate

namespace Delimiters

/-! ## The first placeholder -/

section Definitions

variable (d : Delimiters)

/-- Some characters between the delimiters. -/
def enclose (inner : List Char) : List Char :=
  d.opening.toList ++ inner ++ d.closing.toList

/-- The placeholder that starts at an offset, with some characters between the delimiters. -/
def placeholderAt (start : Nat) (inner : List Char) : Placeholder :=
  ⟨String.ofList (d.enclose inner), String.ofList inner, start,
    start + Text.width (d.enclose inner)⟩

/-- The first placeholder of a text, with what is before it and after it: the first opening
    delimiter, a character, and the first closing delimiter behind that. -/
structure Leads (text before : List Char) (first : Char) (more after : List Char) : Prop where
  opening : Text.IsFirst d.opening.toList text before (first :: (more ++ d.closing.toList ++ after))
  closing : Text.IsFirst d.closing.toList (more ++ d.closing.toList ++ after) more after

/-- Some text between the delimiters, as far to the left as there is any, and the shortest one
    there. -/
structure IsMatch (text before inner after : List Char) : Prop where
  text_eq : text = before ++ d.enclose inner ++ after
  inner_ne : inner ≠ []
  leftmost {before' inner' after' : List Char} (hne : inner' ≠ [])
    (h : text = before' ++ d.enclose inner' ++ after') : before.length ≤ before'.length
  shortest {inner' after' : List Char} (hne : inner' ≠ [])
    (h : text = before ++ d.enclose inner' ++ after') : inner.length ≤ inner'.length

/-- The text from an offset on is divided into placeholders from the left to the right, until
    there is no first one any more. -/
inductive Greedy : (offset : Nat) → (text : List Char) → List Placeholder → Prop
  | done {offset : Nat} {text : List Char}
      (h : ∀ before first more after, ¬ d.Leads text before first more after) :
      Greedy offset text []
  | next {offset : Nat} {text before : List Char} {first : Char} {more after : List Char}
      {p : Placeholder} {found : List Placeholder} (h : d.Leads text before first more after)
      (hp : p = d.placeholderAt (offset + Text.width before) (first :: more))
      (hrest : Greedy p.stop after found) : Greedy offset text (p :: found)

end Definitions

variable {d : Delimiters} {text before more after inner : List Char} {first : Char} {offset : Nat}
  {found : List Placeholder} {p : Placeholder}

theorem enclose_ne_nil (inner : List Char) : d.enclose inner ≠ [] := by
  have hne : d.opening.toList ≠ [] := fun hnil => d.opening_ne (String.toList_inj.1 hnil)
  exact List.append_ne_nil_of_left_ne_nil (List.append_ne_nil_of_left_ne_nil hne inner) _

theorem Leads.text_eq (h : d.Leads text before first more after) :
    text = before ++ d.enclose (first :: more) ++ after := by
  simp [h.opening.text_eq, enclose]

/-- If a placeholder occurs in the text, then there is a first one. -/
theorem exists_leads (hne : inner ≠ []) (h : text = before ++ d.enclose inner ++ after) :
    ∃ before' first more after', d.Leads text before' first more after' := by
  have hocc : text = before ++ d.opening.toList ++ (inner ++ d.closing.toList ++ after) := by
    simp [h, enclose]
  have hopens := Text.isSome_find? before d.opening.toList (inner ++ d.closing.toList ++ after)
  rw [← hocc] at hopens
  obtain ⟨⟨before', rest⟩, hfind⟩ := Option.isSome_iff_exists.1 hopens
  have hopening := Text.isFirst_of_find? hfind
  -- What is behind the first opening delimiter ends with what is behind the other one.
  have hlength : (inner ++ d.closing.toList ++ after).length ≤ rest.length := by
    have hle := hopening.length_le hocc
    have htext := congrArg List.length (hopening.text_eq.symm.trans hocc)
    simp only [List.length_append] at htext ⊢
    omega
  obtain ⟨front, hrest⟩ : inner ++ d.closing.toList ++ after <:+ rest :=
    List.suffix_of_suffix_length_le ⟨_, hocc.symm⟩ ⟨_, hopening.text_eq.symm⟩ hlength
  obtain ⟨first, back, hfront⟩ := List.exists_cons_of_ne_nil
    (List.append_ne_nil_of_right_ne_nil front hne)
  obtain ⟨⟨more, after'⟩, hfind'⟩ := Option.isSome_iff_exists.1
    (Text.isSome_find? back d.closing.toList after)
  have hclosing := Text.isFirst_of_find? hfind'
  have hrest' : rest = first :: (more ++ d.closing.toList ++ after') := by
    rw [← hclosing.text_eq, ← hrest, ← List.append_assoc, ← List.append_assoc, hfront]
    rfl
  rw [hclosing.text_eq] at hclosing
  rw [hrest'] at hopening
  exact ⟨before', first, more, after', hopening, hclosing⟩

theorem IsMatch.unique {before' inner' after' : List Char} (h : d.IsMatch text before inner after)
    (h' : d.IsMatch text before' inner' after') :
    before' = before ∧ inner' = inner ∧ after' = after := by
  have htext := h'.text_eq.symm.trans h.text_eq
  simp only [enclose, List.append_assoc] at htext
  obtain ⟨rfl, hrest⟩ := List.append_inj htext
    (Nat.le_antisymm (h'.leftmost h.inner_ne h.text_eq) (h.leftmost h'.inner_ne h'.text_eq))
  obtain ⟨rfl, hafter⟩ := List.append_inj (List.append_cancel_left hrest)
    (Nat.le_antisymm (h'.shortest h.inner_ne h.text_eq) (h.shortest h'.inner_ne h'.text_eq))
  exact ⟨rfl, rfl, List.append_cancel_left hafter⟩

theorem Leads.isMatch (h : d.Leads text before first more after) :
    d.IsMatch text before (first :: more) after := by
  refine ⟨h.text_eq, List.cons_ne_nil _ _, fun {before' inner' after'} _ h' => ?_,
    fun {inner' after'} hne h' => ?_⟩
  · have hocc : text = before' ++ d.opening.toList ++ (inner' ++ d.closing.toList ++ after') := by
      simp [h', enclose]
    exact h.opening.length_le hocc
  · -- Both go on behind the same opening delimiter.
    obtain ⟨first', more', rfl⟩ := List.exists_cons_of_ne_nil hne
    have htext := h.text_eq.symm.trans h'
    simp only [enclose, List.append_assoc, List.cons_append] at htext
    have hrest := (List.cons.inj
      (List.append_cancel_left (List.append_cancel_left htext))).2
    have hocc : more ++ d.closing.toList ++ after = more' ++ d.closing.toList ++ after' := by
      simpa using hrest
    exact Nat.succ_le_succ (h.closing.length_le hocc)

/-- To look for the delimiters one after the other is to look for the leftmost text between them,
    and for the shortest one there. -/
theorem leads_iff_isMatch :
    d.Leads text before first more after ↔ d.IsMatch text before (first :: more) after := by
  refine ⟨Leads.isMatch, fun h => ?_⟩
  obtain ⟨before', first', more', after', hleads⟩ := exists_leads h.inner_ne h.text_eq
  obtain ⟨rfl, hinner, rfl⟩ := h.unique hleads.isMatch
  obtain ⟨rfl, rfl⟩ := List.cons.inj hinner
  exact hleads

theorem Leads.unique {before' more' after' : List Char} {first' : Char}
    (h : d.Leads text before first more after) (h' : d.Leads text before' first' more' after') :
    before' = before ∧ first' = first ∧ more' = more ∧ after' = after := by
  obtain ⟨hbefore, hinner, hafter⟩ := h.isMatch.unique h'.isMatch
  obtain ⟨hfirst, hmore⟩ := List.cons.inj hinner
  exact ⟨hbefore, hfirst, hmore, hafter⟩

/-- There is one division, and the scan finds it. -/
theorem greedy_iff_eq_scanFrom :
    d.Greedy offset text found ↔
      found = scanFrom d.opening.toList d.closing.toList offset text := by
  have hdone : ∀ {offset : Nat} {text : List Char} {found : List Placeholder},
      (∀ before first more after, ¬ d.Leads text before first more after) →
        (d.Greedy offset text found ↔ found = []) := by
    intro offset text found hnone
    constructor
    · rintro (_ | ⟨h⟩)
      · rfl
      · exact absurd h (hnone _ _ _ _)
    · rintro rfl
      exact .done hnone
  fun_induction scanFrom d.opening.toList d.closing.toList offset text generalizing found with
  | case1 offset text hopening =>
    -- no opening delimiter
    refine hdone fun before first more after h => ?_
    exact Text.find?_eq_none_iff.1 hopening _ _ h.opening.text_eq
  | case2 offset text before hopening =>
    -- no character behind the first opening delimiter
    refine hdone fun before' first more after h => ?_
    have hrest := ((Text.isFirst_of_find? hopening).unique h.opening).2
    cases hrest
  | case3 offset text before first rest hopening hclosing =>
    -- no closing delimiter behind that character
    refine hdone fun before' first' more after h => ?_
    have hrest := ((Text.isFirst_of_find? hopening).unique h.opening).2
    exact Text.find?_eq_none_iff.1 hclosing _ _ (List.cons.inj hrest).2.symm
  | case4 offset text before first rest hopening more after hclosing inner raw start stop =>
    rename_i ih
    have hleads : d.Leads text before first more after := by
      have hclosing := Text.isFirst_of_find? hclosing
      have hopening := Text.isFirst_of_find? hopening
      rw [hclosing.text_eq] at hopening hclosing
      exact ⟨hopening, hclosing⟩
    constructor
    · rintro (h | ⟨h, rfl, hrest⟩)
      · exact absurd hleads (h _ _ _ _)
      · obtain ⟨rfl, rfl, rfl, rfl⟩ := hleads.unique h
        rw [ih.1 hrest]
        rfl
    · rintro rfl
      exact .next hleads rfl (ih.2 rfl)

/-! ## Where placeholders are -/

/-- A placeholder that is found is the first one of what is left of the text at some place. -/
theorem Greedy.exists_found (h : d.Greedy offset text found) (hp : p ∈ found) :
    ∃ front rest before first more after, text = front ++ rest ∧
      d.Leads rest before first more after ∧
        p = d.placeholderAt (offset + Text.width (front ++ before)) (first :: more) := by
  induction h with
  | done => cases hp
  | @next offset text before first more after p' found h hp' _ ih =>
    rcases List.mem_cons.1 hp with rfl | hp
    · exact ⟨[], text, before, first, more, after, rfl, h, hp'⟩
    · obtain ⟨front, rest, before', first', more', after', rfl, hleads, rfl⟩ := ih hp
      refine ⟨before ++ d.enclose (first :: more) ++ front, rest, before', first', more', after',
        by rw [h.text_eq, List.append_assoc _ front], hleads, ?_⟩
      rw [hp']
      simp only [placeholderAt, Text.width_append, Nat.add_assoc]

/-- A placeholder that is found occurs in the text. -/
theorem Greedy.exists_occurrence (h : d.Greedy offset text found) (hp : p ∈ found) :
    ∃ before inner after, inner ≠ [] ∧ text = before ++ d.enclose inner ++ after ∧
      p = d.placeholderAt (offset + Text.width before) inner := by
  obtain ⟨front, rest, before, first, more, after, rfl, hleads, rfl⟩ := h.exists_found hp
  exact ⟨front ++ before, first :: more, after, List.cons_ne_nil _ _, by simp [hleads.text_eq], rfl⟩

/-- The placeholders are in order and apart. -/
theorem Greedy.pairwise (h : d.Greedy offset text found) :
    found.Pairwise fun p q => p.stop ≤ q.start := by
  induction h with
  | done => exact .nil
  | next h hp hrest ih =>
    refine .cons (fun q hq => ?_) ih
    obtain ⟨before', inner, after', -, -, rfl⟩ := hrest.exists_occurrence hq
    exact Nat.le_add_right _ _

theorem Greedy.start_lt_stop (h : d.Greedy offset text found) (hp : p ∈ found) :
    p.start < p.stop := by
  obtain ⟨before, inner, after, -, -, rfl⟩ := h.exists_occurrence hp
  exact Nat.lt_add_of_pos_right (Text.width_pos (enclose_ne_nil inner))

/-- No placeholder starts outside of those found. -/
theorem Greedy.exists_around (h : d.Greedy offset text found) (hne : inner ≠ [])
    (htext : text = before ++ d.enclose inner ++ after) :
    ∃ p ∈ found, p.start ≤ offset + Text.width before ∧ offset + Text.width before < p.stop := by
  induction h generalizing before with
  | done h =>
    obtain ⟨_, _, _, _, hleads⟩ := exists_leads hne htext
    exact absurd hleads (h _ _ _ _)
  | @next offset text front first more rest p found h hp _ ih =>
    have hocc : text = before ++ d.opening.toList ++ (inner ++ d.closing.toList ++ after) := by
      simp [htext, enclose]
    rw [h.text_eq, List.append_assoc, List.append_assoc] at htext
    -- The first opening delimiter is not behind that of the placeholder that occurs.
    obtain ⟨past, rfl⟩ : front <+: before :=
      List.prefix_of_prefix_length_le ⟨_, rfl⟩ ⟨_, htext.symm⟩ (h.opening.length_le hocc)
    rw [List.append_assoc] at htext
    have hpast := List.append_cancel_left htext
    by_cases hbehind : d.enclose (first :: more) <+: past
    · obtain ⟨later, rfl⟩ := hbehind
      rw [List.append_assoc] at hpast
      have hlater : rest = later ++ d.enclose inner ++ after := by
        rw [List.append_cancel_left hpast, List.append_assoc]
      obtain ⟨q, hq, hstart, hstop⟩ := ih hlater
      refine ⟨q, List.mem_cons_of_mem _ hq, ?_⟩
      rw [hp] at hstart hstop
      simp only [placeholderAt, Text.width_append] at hstart hstop ⊢
      omega
    · -- Otherwise it starts inside of the first one.
      obtain ⟨left, hleft⟩ : past <+: d.enclose (first :: more) :=
        (List.prefix_or_prefix_of_prefix ⟨_, rfl⟩ ⟨_, hpast.symm⟩).resolve_left hbehind
      have hpos : 0 < Text.width left := Text.width_pos fun hnil => by
        rw [hnil, List.append_nil] at hleft
        exact hbehind ⟨[], by rw [hleft, List.append_nil]⟩
      refine ⟨p, List.mem_cons_self, ?_⟩
      rw [hp]
      simp only [placeholderAt, ← hleft, Text.width_append]
      omega

/-- Stripped of the delimiters, a placeholder is what is between them. -/
theorem strip_placeholderAt (start : Nat) (inner : List Char) :
    d.strip (d.placeholderAt start inner).raw = (d.placeholderAt start inner).inner := by
  have hopening : d.opening.toList.isPrefixOf? (d.enclose inner) =
      some (inner ++ d.closing.toList) :=
    Text.isPrefixOf?_eq_some_iff.2 (List.append_assoc _ _ _)
  have hclosing : d.closing.toList.reverse.isPrefixOf? (inner ++ d.closing.toList).reverse =
      some inner.reverse :=
    Text.isPrefixOf?_eq_some_iff.2 List.reverse_append
  simp only [strip, placeholderAt, Text.dropOpening?, Text.dropClosing?, String.toList_ofList,
    hopening, hclosing, Option.map_some, Option.getD_some, List.reverse_reverse]

theorem greedy_scan (d : Delimiters) (text : String) : d.Greedy 0 text.toList (d.scan text) :=
  greedy_iff_eq_scanFrom.2 rfl

/-! ## Texts -/

/-- How a text is divided into placeholders and what is around them. -/
structure Divides (d : Delimiters) (text : String) (found : List Placeholder) : Prop where
  /-- They are taken greedily, from the left to the right. -/
  greedy : d.Greedy 0 text.toList found
  /-- They are in order and do not overlap. -/
  pairwise : found.Pairwise fun p q => p.stop ≤ q.start
  /-- Their offsets are between characters, and they are the text between these. -/
  exists_around {p : Placeholder} (hp : p ∈ found) :
    ∃ before after, text = before ++ p.raw ++ after ∧ p.start = Text.size before ∧
      p.stop = Text.size (before ++ p.raw) ∧ p.start < p.stop
  /-- They are some text between delimiters, also if these are stripped off. -/
  inner_ne {p : Placeholder} (hp : p ∈ found) : p.inner ≠ "" ∧
    p.raw = d.opening ++ p.inner ++ d.closing ∧ d.strip p.raw = p.inner
  /-- What else looks like a placeholder starts inside of one of them. -/
  exists_inside {before inner after : String} (hne : inner ≠ "")
    (htext : text = before ++ d.opening ++ inner ++ d.closing ++ after) :
    ∃ p ∈ found, p.start ≤ Text.size before ∧ Text.size before < p.stop

/-- There is one way to divide a text, and the scan finds it. -/
theorem divides_iff_eq_scan (d : Delimiters) (text : String) (found : List Placeholder) :
    d.Divides text found ↔ found = d.scan text := by
  constructor
  · intro h
    exact greedy_iff_eq_scanFrom.1 h.greedy
  · intro h
    have hgreedy : d.Greedy 0 text.toList found := greedy_iff_eq_scanFrom.2 h
    refine ⟨hgreedy, hgreedy.pairwise, fun hp => ?_, fun hp => ?_, fun hne htext => ?_⟩
    · have hlt := hgreedy.start_lt_stop hp
      obtain ⟨before, inner, after, -, htext, rfl⟩ := hgreedy.exists_occurrence hp
      refine ⟨String.ofList before, String.ofList after, ?_, ?_, ?_, hlt⟩
      · rw [← String.toList_inj, htext]
        simp [placeholderAt]
      · simp [placeholderAt, Text.size]
      · simp [placeholderAt, Text.size]
    · obtain ⟨before, inner, after, hne, -, rfl⟩ := hgreedy.exists_occurrence hp
      refine ⟨?_, ?_, strip_placeholderAt _ _⟩
      · intro hempty
        exact hne (by simpa [placeholderAt] using congrArg String.toList hempty)
      · rw [← String.toList_inj]
        simp [placeholderAt, enclose]
    · next before inner after =>
      have hocc : text.toList = before.toList ++ d.enclose inner.toList ++ after.toList := by
        simp [htext, enclose]
      obtain ⟨p, hp, hstart, hstop⟩ :=
        hgreedy.exists_around (fun hnil => hne (String.toList_inj.1 hnil)) hocc
      rw [Nat.zero_add] at hstart hstop
      exact ⟨p, hp, hstart, hstop⟩

/-- The first closing delimiter counts, and not one that starts within it. -/
example : (⟨"[[", "]]", by decide, by decide⟩ : Delimiters).scan "[[items[0]]] and [[b]]" =
    [⟨"[[items[0]]", "items[0", 0, 11⟩, ⟨"[[b]]", "b", 17, 22⟩] := by decide +kernel

end Delimiters

end DocTemplate
