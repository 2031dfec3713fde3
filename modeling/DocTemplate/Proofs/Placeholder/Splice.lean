import DocTemplate.Placeholder.Filling
import DocTemplate.Proofs.Document.Spans
import Mathlib.Data.List.Basic

/-!
# Splices

What a splice does to a paragraph, seen as a sequence of characters that each
have the style of their run (`Paragraph.styledChars`).

A piece of the text lies in one run, or it starts in one run and ends in a later
one (`Covers`). Given which of the two it is, a splice at the offsets of the piece
splits the runs at both of its ends and has a closed form, from which everything
else follows.

* `exists_cover`: every piece that is not empty lies in one run, or from one run
  to a later one;
* `Paragraph.splice?_within`, `Paragraph.splice?_across`: the closed forms;
* `Covers.exists_splice`: a splice of a piece is made; it replaces the piece in
  the style of its first character, and it keeps the characters before and after
  the piece, and all items that are no runs.
-/

namespace DocTemplate

/-! ## Styled characters -/

/-- A character in the style of its run. -/
abbrev StyledChar := Char × RunStyle

/-- The characters of a run in its style. -/
def Run.styledChars (r : Run) : List StyledChar :=
  (RunItem.charsOf r.content).map fun c => (c, r.style)

/-- The characters of an item in their style. -/
def Inline.styledChars : Inline → List StyledChar
  | .run r => r.styledChars
  | _ => []

/-- The characters of some items in their styles. -/
def Inline.styledCharsOf (items : List Inline) : List StyledChar :=
  items.flatMap Inline.styledChars

/-- The characters of a paragraph in their styles. -/
def Paragraph.styledChars (p : Paragraph) : List StyledChar :=
  Inline.styledCharsOf p.content

/-- The number of bytes of styled characters. -/
def StyledChar.width (cs : List StyledChar) : Nat :=
  Text.width (cs.map Prod.fst)

namespace StyledChar

@[simp] theorem width_nil : width [] = 0 := rfl

@[simp] theorem width_append (as bs : List StyledChar) : width (as ++ bs) = width as + width bs := by
  simp [width]

theorem width_pos {cs : List StyledChar} (h : cs ≠ []) : 0 < width cs :=
  Text.width_pos (by simpa using h)

end StyledChar

namespace Inline

@[simp] theorem styledCharsOf_nil : styledCharsOf [] = [] := rfl

@[simp] theorem styledCharsOf_append (as bs : List Inline) :
    styledCharsOf (as ++ bs) = styledCharsOf as ++ styledCharsOf bs :=
  List.flatMap_append

@[simp] theorem styledCharsOf_cons (a : Inline) (as : List Inline) :
    styledCharsOf (a :: as) = a.styledChars ++ styledCharsOf as :=
  List.flatMap_cons

theorem size_eq_width (a : Inline) : a.size = StyledChar.width a.styledChars := by
  cases a <;> simp [size, chars, styledChars, Run.styledChars, StyledChar.width, Function.comp_def]

theorem width_styledCharsOf (items : List Inline) :
    StyledChar.width (styledCharsOf items) = Text.width (items.flatMap chars) := by
  induction items with
  | nil => rfl
  | cons a items ih =>
    rw [styledCharsOf_cons, StyledChar.width_append, ← size_eq_width, ih, List.flatMap_cons,
      Text.width_append, size]

@[simp] theorem styledCharsOf_filter_not_isRun (items : List Inline) :
    styledCharsOf (items.filter fun a => !a.isRun) = [] := by
  simp only [styledCharsOf, List.flatMap_eq_nil_iff, List.mem_filter]
  rintro a ⟨_, ha⟩
  cases a <;> simp_all [isRun, styledChars]

end Inline

theorem Paragraph.map_styledChars (p : Paragraph) :
    p.styledChars.map Prod.fst = p.text.toList := by
  rw [Paragraph.toList_text, Paragraph.styledChars, Inline.styledCharsOf, List.map_flatMap]
  congr 1
  funext a
  cases a <;> simp [Inline.styledChars, Inline.chars, Run.styledChars, Function.comp_def]

/-! ## Splitting runs -/

namespace Run

/-- A run is split between two of its characters, whatever the bias. -/
theorem styledChars_splitAt {r : Run} {as bs : List StyledChar} (h : r.styledChars = as ++ bs)
    (bias : Bias) :
    (r.splitAt (StyledChar.width as) bias).1.styledChars = as ∧
      (r.splitAt (StyledChar.width as) bias).2.styledChars = bs := by
  obtain ⟨cs, ds, hc, rfl, rfl⟩ := List.map_eq_append_iff.1 h
  have hw : StyledChar.width (cs.map fun c => (c, r.style)) = Text.width cs := by
    simp [StyledChar.width, Function.comp_def]
  have hs := charsOf_splitItems bias (Text.width cs) r.content
  rw [hc, Text.cut_width, Prod.mk.injEq] at hs
  simp [splitAt, styledChars, hw, hs.1, hs.2]

theorem style_splitAt (r : Run) (n : Nat) (bias : Bias) :
    (r.splitAt n bias).1.style = r.style ∧ (r.splitAt n bias).2.style = r.style :=
  ⟨rfl, rfl⟩

end Run

/-! ## Covers -/

/-- The items hold a piece of text, with `pre` before it and `post` after it: in
    one run, or from one run to a later one. -/
inductive Covers : (items : List Inline) → (pre piece post : List StyledChar) → Prop
  | within {before after : List Inline} {r : Run} {left piece right : List StyledChar}
      (hr : r.styledChars = left ++ piece ++ right) :
      Covers (before ++ .run r :: after) (Inline.styledCharsOf before ++ left) piece
        (right ++ Inline.styledCharsOf after)
  | across {before between after : List Inline} {first last : Run}
      {left head tail right : List StyledChar}
      (hf : first.styledChars = left ++ head) (hh : head ≠ [])
      (hl : last.styledChars = tail ++ right) (ht : tail ≠ []) :
      Covers (before ++ .run first :: (between ++ .run last :: after))
        (Inline.styledCharsOf before ++ left) (head ++ Inline.styledCharsOf between ++ tail)
        (right ++ Inline.styledCharsOf after)

/-- Every character of some items lies in a run. -/
theorem Inline.exists_run {items : List Inline} {pre post : List StyledChar} {c : StyledChar}
    (h : Inline.styledCharsOf items = pre ++ c :: post) :
    ∃ before r after left right, items = before ++ .run r :: after ∧
      r.styledChars = left ++ c :: right ∧ pre = Inline.styledCharsOf before ++ left ∧
      post = right ++ Inline.styledCharsOf after := by
  induction items generalizing pre with
  | nil => simp at h
  | cons item items ih =>
    rw [Inline.styledCharsOf_cons] at h
    rcases List.append_eq_append_iff.1 h with ⟨as, rfl, hi⟩ | ⟨cs, hitem, hrest⟩
    · -- The character comes after this item.
      obtain ⟨before, r, after, left, right, rfl, hr, rfl, rfl⟩ := ih hi
      exact ⟨item :: before, r, after, left, right, rfl, hr, by simp, rfl⟩
    · cases cs with
      | nil =>
        obtain ⟨before, r, after, left, right, rfl, hr, hpre, rfl⟩ := @ih [] hrest.symm
        obtain ⟨hb, rfl⟩ := List.append_eq_nil_iff.1 hpre.symm
        exact ⟨item :: before, r, after, [], right, rfl, hr, by simp [hb, hitem], rfl⟩
      | cons d cs =>
        obtain ⟨rfl, rfl⟩ := List.cons_eq_cons.1 hrest
        cases item with
        | run r => exact ⟨[], r, items, pre, cs, rfl, hitem, by simp, rfl⟩
        | _ => simp [Inline.styledChars] at hitem

theorem exists_cover {items : List Inline} {pre piece post : List StyledChar}
    (h : Inline.styledCharsOf items = pre ++ piece ++ post) (hp : piece ≠ []) :
    Covers items pre piece post := by
  obtain ⟨c, piece, rfl⟩ := List.exists_cons_of_ne_nil hp
  have hfirst : Inline.styledCharsOf items = pre ++ c :: (piece ++ post) := by simpa using h
  obtain ⟨before, r, after, left, right, rfl, hr, rfl, hpost⟩ := Inline.exists_run hfirst
  rcases List.append_eq_append_iff.1 hpost with ⟨rest, rfl, rfl⟩ | ⟨rest, rfl, hrest⟩
  · have hr' : r.styledChars = left ++ c :: piece ++ rest := by simpa using hr
    exact .within hr'
  · -- The piece goes on after the run of its first character, or it ends with it.
    rcases List.eq_nil_or_concat rest with rfl | ⟨rest, d, rfl⟩
    · have hr' : r.styledChars = left ++ c :: (right ++ []) ++ [] := by simpa using hr
      simpa [hrest] using @Covers.within before after _ _ _ _ hr'
    · have hlast : Inline.styledCharsOf after = rest ++ d :: post := by simpa using hrest
      obtain ⟨between, t, after, left', right', rfl, ht, hpre, rfl⟩ := Inline.exists_run hlast
      have ht' : t.styledChars = (left' ++ [d]) ++ right' := by simpa using ht
      have hcover := @Covers.across before between after _ _ _ _ _ _ hr (by simp) ht' (by simp)
      simpa [hpre] using hcover

/-! ## Splices -/

namespace Paragraph

/-- The span that contains an offset is that of the run which has the offset. -/
theorem find?_spansFrom (before after : List Inline) (r : Run) (index start offset : Nat)
    (hl : start + StyledChar.width (Inline.styledCharsOf before) ≤ offset)
    (hr : offset < start + StyledChar.width (Inline.styledCharsOf before) +
      StyledChar.width r.styledChars) :
    (spansFrom index start (before ++ .run r :: after)).find? (fun s => s.contains offset) =
      some ⟨index + before.length, start + StyledChar.width (Inline.styledCharsOf before),
        start + StyledChar.width (Inline.styledCharsOf before) +
          StyledChar.width r.styledChars⟩ := by
  have hspan : spanBehind index start before (.run r) =
      ⟨index + before.length, start + StyledChar.width (Inline.styledCharsOf before),
        start + StyledChar.width (Inline.styledCharsOf before) + StyledChar.width r.styledChars⟩ := by
    rw [spanBehind, ← Inline.width_styledCharsOf, Inline.size_eq_width, Inline.styledChars]
  have hsize : (Inline.run r).size ≠ 0 := by
    rw [Inline.size_eq_width, Inline.styledChars]
    omega
  have hmem := (mem_spansFrom_iff index start _).2 ⟨before, .run r, after, rfl, hsize, rfl⟩
  rw [← hspan]
  refine (tiles_spansFrom index start _).find?_contains hmem ?_
  rw [hspan]
  simp only [Span.contains, Bool.and_eq_true, decide_eq_true_eq]
  exact ⟨hl, hr⟩

variable {before between after : List Inline} {r first last : Run}
  {left piece head tail right : List StyledChar} (rendering : Rendering)

/-- Both ends of a piece within a run are in the span of the run. -/
theorem find?_within (hr : r.styledChars = left ++ piece ++ right) (hp : piece ≠ []) :
    (spansFrom 0 0 (before ++ .run r :: after)).find? (fun s =>
        s.contains (StyledChar.width (Inline.styledCharsOf before ++ left))) =
      some ⟨before.length, StyledChar.width (Inline.styledCharsOf before),
        StyledChar.width (Inline.styledCharsOf before) + StyledChar.width r.styledChars⟩ ∧
    (spansFrom 0 0 (before ++ .run r :: after)).find? (fun s =>
        s.contains (StyledChar.width (Inline.styledCharsOf before ++ left ++ piece) - 1)) =
      some ⟨before.length, StyledChar.width (Inline.styledCharsOf before),
        StyledChar.width (Inline.styledCharsOf before) + StyledChar.width r.styledChars⟩ := by
  have hw := StyledChar.width_pos hp
  have hfirst := find?_spansFrom before after r 0 0
    (StyledChar.width (Inline.styledCharsOf before ++ left)) (by simp) (by rw [hr]; simp; omega)
  have hlast := find?_spansFrom before after r 0 0
    (StyledChar.width (Inline.styledCharsOf before ++ left ++ piece) - 1)
    (by simp; omega) (by rw [hr]; simp; omega)
  rw [Nat.zero_add, Nat.zero_add] at hfirst hlast
  exact ⟨hfirst, hlast⟩

/-- The ends of a piece across runs are in the spans of its first run and of its last one. -/
theorem find?_across (hf : first.styledChars = left ++ head) (hh : head ≠ [])
    (hl : last.styledChars = tail ++ right) (ht : tail ≠ []) :
    (spansFrom 0 0 (before ++ .run first :: (between ++ .run last :: after))).find? (fun s =>
        s.contains (StyledChar.width (Inline.styledCharsOf before ++ left))) =
      some ⟨before.length, StyledChar.width (Inline.styledCharsOf before),
        StyledChar.width (Inline.styledCharsOf before) + StyledChar.width first.styledChars⟩ ∧
    (spansFrom 0 0 (before ++ .run first :: (between ++ .run last :: after))).find? (fun s =>
        s.contains (StyledChar.width (Inline.styledCharsOf before ++ left ++
          (head ++ Inline.styledCharsOf between ++ tail)) - 1)) =
      some ⟨before.length + (between.length + 1),
        StyledChar.width (Inline.styledCharsOf (before ++ .run first :: between)),
        StyledChar.width (Inline.styledCharsOf (before ++ .run first :: between)) +
          StyledChar.width last.styledChars⟩ := by
  have hw := StyledChar.width_pos hh
  have hw' := StyledChar.width_pos ht
  have hfirst := find?_spansFrom before (between ++ .run last :: after) first 0 0
    (StyledChar.width (Inline.styledCharsOf before ++ left)) (by simp) (by rw [hf]; simp; omega)
  have hlast := find?_spansFrom (before ++ .run first :: between) after last 0 0
    (StyledChar.width (Inline.styledCharsOf before ++ left ++
        (head ++ Inline.styledCharsOf between ++ tail)) - 1)
    (by simp [Inline.styledChars, hf]; omega)
    (by rw [hl]; simp [Inline.styledChars, hf]; omega)
  rw [List.append_assoc before, List.cons_append] at hlast
  have hlen : (before ++ .run first :: between).length = before.length + (between.length + 1) := by
    simp
  rw [Nat.zero_add, Nat.zero_add] at hfirst hlast
  rw [hlen] at hlast
  exact ⟨hfirst, hlast⟩

/-- A piece across runs goes as far into the last run as its tail. -/
theorem width_across_sub (hf : first.styledChars = left ++ head) :
    StyledChar.width (Inline.styledCharsOf before ++ left ++
        (head ++ Inline.styledCharsOf between ++ tail)) -
      StyledChar.width (Inline.styledCharsOf (before ++ .run first :: between)) =
      StyledChar.width tail := by
  simp [Inline.styledChars, hf]
  omega

/-- A splice within a run splits it in three. -/
theorem splice?_within (hr : r.styledChars = left ++ piece ++ right) (hp : piece ≠ []) :
    splice? (before ++ .run r :: after)
      (StyledChar.width (Inline.styledCharsOf before ++ left))
      (StyledChar.width (Inline.styledCharsOf before ++ left ++ piece)) rendering =
    some (before ++
      runUnlessEmpty
        ((r.splitAt (StyledChar.width (left ++ piece)) .right).1.splitAt
          (StyledChar.width left) .left).1 ++
      .run (rendered ((r.splitAt (StyledChar.width (left ++ piece)) .right).1.splitAt
          (StyledChar.width left) .left).2 rendering) ::
        (runUnlessEmpty (r.splitAt (StyledChar.width (left ++ piece)) .right).2 ++ after)) := by
  obtain ⟨hfirst, hlast⟩ := @find?_within before after r left piece right hr hp
  simp only [splice?, hfirst, hlast]
  simp

/-- A splice across runs makes one of the runs that it covers. -/
theorem splice?_across (hf : first.styledChars = left ++ head) (hh : head ≠ [])
    (hl : last.styledChars = tail ++ right) (ht : tail ≠ []) :
    splice? (before ++ .run first :: (between ++ .run last :: after))
      (StyledChar.width (Inline.styledCharsOf before ++ left))
      (StyledChar.width (Inline.styledCharsOf before ++ left ++
        (head ++ Inline.styledCharsOf between ++ tail))) rendering =
    some (before ++ runUnlessEmpty (first.splitAt (StyledChar.width left) .left).1 ++
      .run (rendered (first.splitAt (StyledChar.width left) .left).2 rendering) ::
        (between.filter (fun item => !item.isRun) ++
          (runUnlessEmpty (last.splitAt (StyledChar.width tail) .right).2 ++ after))) := by
  obtain ⟨hfirst, hlast⟩ :=
    @find?_across before between after first last left head tail right hf hh hl ht
  have hstop := @width_across_sub before between first left head tail hf
  have hstart : StyledChar.width (Inline.styledCharsOf before ++ left) -
      StyledChar.width (Inline.styledCharsOf before) = StyledChar.width left := by
    simp
  -- What is between these runs and after them is found by their indices.
  have hindex : before.length ≠ before.length + (between.length + 1) := by omega
  have hgetFirst : (before ++ .run first :: (between ++ .run last :: after))[before.length]? =
      some (.run first) := by
    simp
  have hgetLast : (before ++ .run first :: (between ++ .run last :: after))[
      before.length + (between.length + 1)]? = some (.run last) := by
    simp
  have hbetween : ((before ++ .run first :: (between ++ .run last :: after)).take
      (before.length + (between.length + 1))).drop (before.length + 1) = between := by
    simp [List.take_append, List.drop_append]
  have hafter : (before ++ .run first :: (between ++ .run last :: after)).drop
      (before.length + (between.length + 1) + 1) = after := by
    rw [show before ++ .run first :: (between ++ .run last :: after) =
      (before ++ .run first :: (between ++ [.run last])) ++ after by simp]
    exact List.drop_left' (by simp [Nat.add_assoc])
  simp only [splice?, hfirst, hlast, Option.bind_eq_bind, Option.bind_some,
    hgetFirst, hgetLast, hstart, hstop, hindex, ↓reduceIte, hbetween, hafter]
  simp

end Paragraph

/-- The style of the first of some characters. -/
def StyledChar.style (cs : List StyledChar) : RunStyle :=
  (cs.head?.map Prod.snd).getD {}

theorem StyledChar.style_append {cs : List StyledChar} (h : cs ≠ []) (ds : List StyledChar) :
    StyledChar.style (cs ++ ds) = StyledChar.style cs := by
  obtain ⟨c, cs, rfl⟩ := List.exists_cons_of_ne_nil h
  rfl

/-- The characters of a rendering in place of a text that starts in a style. -/
def Rendering.styledChars (style : RunStyle) : Rendering → List StyledChar
  | .items content => (RunItem.charsOf content).map fun c => (c, style)
  | .run r => r.styledChars

/-- The items that are no runs: anchors of comments and marks of proofing tools. -/
def Inline.nonRunsOf (items : List Inline) : List Inline :=
  items.filter fun a => !a.isRun

namespace Inline

@[simp] theorem nonRunsOf_append (as bs : List Inline) :
    nonRunsOf (as ++ bs) = nonRunsOf as ++ nonRunsOf bs :=
  List.filter_append ..

@[simp] theorem nonRunsOf_run (r : Run) (items : List Inline) :
    nonRunsOf (.run r :: items) = nonRunsOf items := rfl

@[simp] theorem nonRunsOf_filter (items : List Inline) :
    nonRunsOf (items.filter fun a => !a.isRun) = nonRunsOf items := by
  simp [nonRunsOf]

end Inline

theorem Run.style_of_styledChars {r : Run} {left piece right : List StyledChar}
    (h : r.styledChars = left ++ piece ++ right) (hp : piece ≠ []) :
    StyledChar.style piece = r.style := by
  obtain ⟨c, piece, rfl⟩ := List.exists_cons_of_ne_nil hp
  have hc : c ∈ r.styledChars := by simp [h]
  obtain ⟨_, _, rfl⟩ := List.mem_map.1 hc
  rfl

theorem Run.styledChars_eq_nil_of_isEmpty {r : Run} (h : r.isEmpty = true) :
    r.styledChars = [] := by
  simp only [isEmpty, List.all_eq_true, Bool.and_eq_true, List.isEmpty_iff] at h
  simp only [styledChars, List.map_eq_nil_iff, RunItem.charsOf, List.flatMap_eq_nil_iff]
  exact fun item hi => (h item hi).2

namespace Paragraph

@[simp] theorem styledCharsOf_runUnlessEmpty (r : Run) :
    Inline.styledCharsOf (runUnlessEmpty r) = r.styledChars := by
  rw [runUnlessEmpty]
  split
  · next h => simp [Run.styledChars_eq_nil_of_isEmpty h]
  · simp [Inline.styledChars]

@[simp] theorem nonRunsOf_runUnlessEmpty (r : Run) : Inline.nonRunsOf (runUnlessEmpty r) = [] := by
  rw [runUnlessEmpty]
  split <;> rfl

@[simp] theorem styledChars_rendered (covered : Run) (rendering : Rendering) :
    (Inline.run (rendered covered rendering)).styledChars =
      rendering.styledChars covered.style := by
  cases rendering <;> rfl

end Paragraph

/-- A splice of a covered piece replaces it, in the style of its first character,
    and keeps all else. -/
theorem Covers.exists_splice {items : List Inline} {pre piece post : List StyledChar}
    (h : Covers items pre piece post) (hp : piece ≠ []) (rendering : Rendering) :
    ∃ spliced, Paragraph.splice? items (StyledChar.width pre) (StyledChar.width (pre ++ piece))
        rendering = some spliced ∧
      Inline.styledCharsOf spliced =
        pre ++ rendering.styledChars (StyledChar.style piece) ++ post ∧
      Inline.nonRunsOf spliced = Inline.nonRunsOf items := by
  cases h with
  | within hr =>
    have hstyle := Run.style_of_styledChars hr hp
    obtain ⟨hleft, hright⟩ := Run.styledChars_splitAt hr .right
    obtain ⟨hbefore, -⟩ := Run.styledChars_splitAt hleft .left
    refine ⟨_, Paragraph.splice?_within rendering hr hp, ?_, by simp⟩
    simp [-StyledChar.width_append, hbefore, hright, hstyle, Run.style_splitAt]
  | @across _ _ _ first _ left head tail right hf hh hl ht =>
    have hfirst : first.styledChars = left ++ head ++ [] := by simpa using hf
    have hstyle : StyledChar.style head = first.style := Run.style_of_styledChars hfirst hh
    obtain ⟨hbefore, -⟩ := Run.styledChars_splitAt hf .left
    obtain ⟨-, hright⟩ := Run.styledChars_splitAt hl .right
    refine ⟨_, Paragraph.splice?_across rendering hf hh hl ht, ?_, by simp⟩
    simp [hbefore, hright, StyledChar.style_append hh, hstyle, Run.style_splitAt]

end DocTemplate
