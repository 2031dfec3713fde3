import DocTemplate.Proofs.Directive.WordReplacement
import DocTemplate.Proofs.Placeholder.Reading

/-!
# Runs in the range of a comment

A word can be replaced if there is a run between the anchors of its comment. A splice leaves
one there, unless its placeholder starts before the anchor of the start: then that anchor comes
after the rendering, and with it only what is left behind the placeholder. So a run is lost if
such a placeholder goes on behind the last item of it (`Filler.Takes`).

An empty run has no glyph, but it is one that can be replaced. Here it is shown with a tab
(`Run.visible`), so that there is a run where there is a glyph that is no anchor, and it can be
found by reading the glyphs.

* `Paragraph.shows_visibleGlyphsOf`: the glyphs after a splice;
* `Inline.any_visibleGlyphsOf`: there is something of a run among them where there is a run;
* `Filler.any_isRun_fillParagraph`: there is a run in the range after a filling if there was
  one that no placeholder takes.
-/

namespace DocTemplate

/-! ## Empty runs -/

namespace Run

/-- The run, with a tab if it is empty. -/
def visible (r : Run) : Run :=
  if r.isEmpty then { r with content := [.tab] } else r

variable {r : Run}

theorem visible_of_styledChars_ne_nil (h : r.styledChars ≠ []) : r.visible = r :=
  if_neg fun hempty => h (styledChars_eq_nil_of_isEmpty hempty)

theorem styledChars_visible (r : Run) : r.visible.styledChars = r.styledChars := by
  rw [visible]
  split
  · next h => rw [styledChars_eq_nil_of_isEmpty h]; rfl
  · rfl

theorem charsOf_visible (r : Run) :
    RunItem.charsOf r.visible.content = RunItem.charsOf r.content := by
  have h := congrArg (List.map Prod.fst) r.styledChars_visible
  simpa [styledChars, Function.comp_def] using h

theorem exactGlyphs_visible_ne_nil (r : Run) : r.visible.exactGlyphs ≠ [] := by
  rw [visible]
  split
  · exact nofun
  · next h =>
    intro hnil
    refine h (List.all_eq_true.2 fun item hitem => ?_)
    have hglyphs : item.glyphs r.style = [] := List.flatMap_eq_nil_iff.1 hnil item hitem
    cases item <;> simp_all [RunItem.glyphs, RunItem.isText, RunItem.chars]

/-- The offset of the last item of a run, or of the last character if that is one. -/
def lastOffset (r : Run) : Nat :=
  Glyph.width r.exactGlyphs.dropLast

theorem lastOffset_visible (r : Run) : r.visible.lastOffset = r.lastOffset := by
  rw [visible]
  split
  · next h => rw [lastOffset, lastOffset, exactGlyphs_eq_nil_of_isEmpty h]; rfl
  · rfl

end Run

/-- The rendering, with a tab if it is empty. -/
def Rendering.visible : Rendering → Rendering
  | .items content => .items (Run.visible ⟨content, {}⟩).content
  | .run r => .run r.visible

theorem Paragraph.rendered_visible (covered : Run) (rendering : Rendering) :
    rendered covered rendering.visible = (rendered covered rendering).visible := by
  cases rendering with
  | items content =>
    have hempty : Run.isEmpty ⟨content, {}⟩ = Run.isEmpty { covered with content } := rfl
    by_cases h : Run.isEmpty { covered with content } <;>
      simp [Rendering.visible, rendered, Run.visible, hempty, h]
  | run r => rfl

theorem Rendering.charsOf_visible (r : Rendering) :
    RunItem.charsOf r.visible.content = RunItem.charsOf r.content := by
  cases r with
  | items content => exact Run.charsOf_visible ⟨content, {}⟩
  | run r => exact r.charsOf_visible

/-- There is always something to be seen of a visible rendering, and it is in a run. -/
theorem Rendering.glyphs_visible (style : RunStyle) (r : Rendering) :
    r.visible.glyphs style ≠ [] ∧ ∀ g ∈ r.visible.glyphs style, g.isAnchor = false := by
  obtain ⟨s, hs⟩ : ∃ s : Run, r.visible.glyphs style = s.visible.exactGlyphs := by
    refine ⟨Paragraph.rendered ⟨[], style⟩ r, ?_⟩
    rw [← Paragraph.rendered_visible, Paragraph.exactGlyphs_rendered]
  rw [hs]
  refine ⟨s.exactGlyphs_visible_ne_nil, fun g hg => ?_⟩
  simpa using List.filter_eq_nil_iff.1 s.visible.filter_isAnchor_exactGlyphs g hg

theorem Glyph.isRuns_visible (replace : Placeholder → Option Rendering) :
    IsRuns fun p => (replace p).map Rendering.visible := by
  intro p r hr style
  obtain ⟨s, -, rfl⟩ := Option.map_eq_some_iff.1 hr
  exact s.glyphs_visible style

namespace Inline

/-- The exact glyphs of some items, of which the empty runs have a tab. -/
def visibleGlyphsOf (items : List Inline) : List Glyph :=
  exactGlyphsOf (items.map (mapRun Run.visible))

@[simp] theorem visibleGlyphsOf_nil : visibleGlyphsOf [] = [] := rfl

@[simp] theorem visibleGlyphsOf_append (items more : List Inline) :
    visibleGlyphsOf (items ++ more) = visibleGlyphsOf items ++ visibleGlyphsOf more := by
  rw [visibleGlyphsOf, List.map_append, exactGlyphsOf_append]
  rfl

@[simp] theorem visibleGlyphsOf_run (r : Run) (items : List Inline) :
    visibleGlyphsOf (.run r :: items) = r.visible.exactGlyphs ++ visibleGlyphsOf items :=
  rfl

theorem visibleGlyphsOf_anchor {a : Inline} (h : a.isRun = false) (items : List Inline) :
    visibleGlyphsOf (a :: items) = .anchor a :: visibleGlyphsOf items := by
  cases a with
  | run r => cases h
  | _ => rfl

theorem styledCharsOf_map_visible (items : List Inline) :
    styledCharsOf (items.map (mapRun Run.visible)) = styledCharsOf items := by
  induction items with
  | nil => rfl
  | cons item items ih =>
    rw [List.map_cons, styledCharsOf_cons, styledCharsOf_cons, ih]
    cases item with
    | run r => exact congrArg (· ++ _) r.styledChars_visible
    | _ => rfl

theorem charsOf_visibleGlyphsOf (items : List Inline) :
    Glyph.charsOf (visibleGlyphsOf items) = items.flatMap chars := by
  rw [visibleGlyphsOf, charsOf_exactGlyphsOf, List.flatMap_map]
  refine List.flatMap_congr fun item _ => ?_
  cases item with
  | run r => exact r.charsOf_visible
  | _ => rfl

theorem filter_not_isRun_map_visible (items : List Inline) :
    (items.map (mapRun Run.visible)).filter (fun item => !item.isRun) =
      (items.filter fun item => !item.isRun).map (mapRun Run.visible) := by
  rw [List.filter_map]
  congr 2
  funext item
  cases item <;> rfl

end Inline

/-! ## Splices -/

theorem Paragraph.map_visible_runUnlessEmpty (r : Run) :
    (runUnlessEmpty r).map (Inline.mapRun Run.visible) = runUnlessEmpty r := by
  rw [runUnlessEmpty]
  split
  · rfl
  · next h => simp [Inline.mapRun, Run.visible, h]

variable {items : List Inline} {pre piece post : List StyledChar} in
/-- A splice takes no empty run for one with text. -/
theorem Covers.splice?_visible (h : Covers items pre piece post) (hp : piece ≠ [])
    (rendering : Rendering) :
    Paragraph.splice? (items.map (Inline.mapRun Run.visible)) (StyledChar.width pre)
        (StyledChar.width (pre ++ piece)) rendering.visible =
      (Paragraph.splice? items (StyledChar.width pre) (StyledChar.width (pre ++ piece))
        rendering).map (List.map (Inline.mapRun Run.visible)) := by
  cases h with
  | @within before after r left _ right hr =>
    have hne : r.styledChars ≠ [] := by simp [hr, hp]
    have hvisible : Paragraph.splice? (before.map (Inline.mapRun Run.visible) ++
        .run r :: after.map (Inline.mapRun Run.visible)) _ _ _ = _ :=
      Paragraph.splice?_within rendering.visible hr hp
    rw [Inline.styledCharsOf_map_visible] at hvisible
    rw [Paragraph.splice?_within rendering hr hp, List.map_append, List.map_cons, Inline.mapRun,
      Run.visible_of_styledChars_ne_nil hne, hvisible]
    simp [Inline.mapRun, Paragraph.map_visible_runUnlessEmpty, Paragraph.rendered_visible]
  | @across before between after first last left head tail right hf hh hl ht =>
    have hfirst : first.styledChars ≠ [] := by simp [hf, hh]
    have hlast : last.styledChars ≠ [] := by simp [hl, ht]
    have hvisible : Paragraph.splice? (before.map (Inline.mapRun Run.visible) ++ .run first ::
        (between.map (Inline.mapRun Run.visible) ++
          .run last :: after.map (Inline.mapRun Run.visible))) _ _ _ = _ :=
      Paragraph.splice?_across rendering.visible hf hh hl ht
    rw [Inline.styledCharsOf_map_visible, Inline.styledCharsOf_map_visible] at hvisible
    rw [Paragraph.splice?_across rendering hf hh hl ht, List.map_append, List.map_cons,
      List.map_append, List.map_cons, Inline.mapRun, Inline.mapRun,
      Run.visible_of_styledChars_ne_nil hfirst, Run.visible_of_styledChars_ne_nil hlast, hvisible]
    simp [Inline.mapRun, Paragraph.map_visible_runUnlessEmpty, Paragraph.rendered_visible,
      Inline.filter_not_isRun_map_visible]

namespace Paragraph

/-- A splice at a piece of the visible glyphs replaces it by what is visible of a rendering, but
    for what is in no run, which comes after that. -/
theorem shows_visibleGlyphsOf :
    Filler.Progress.Shows Inline.visibleGlyphsOf Rendering.visible where
  chars := Inline.charsOf_visibleGlyphsOf
  content := Rendering.charsOf_visible
  splice {items pre piece post} r h hpiece := by
    have hchars : (Inline.styledCharsOf items).map Prod.fst =
        Glyph.charsOf pre ++ Glyph.charsOf piece ++ Glyph.charsOf post := by
      have hglyphs := congrArg Glyph.charsOf h
      rw [Inline.charsOf_visibleGlyphsOf, Glyph.charsOf_append, Glyph.charsOf_append] at hglyphs
      rw [← hglyphs, ← Paragraph.toList_text ⟨0, items, {}⟩, ← Paragraph.map_styledChars]
      rfl
    obtain ⟨front, post', hitems, hfront, -⟩ := List.map_eq_append_iff.1 hchars
    obtain ⟨pre', piece', rfl, hpre, hpiece'⟩ := List.map_eq_append_iff.1 hfront
    have hne : piece' ≠ [] := by
      rintro rfl
      exact hpiece.charsOf_ne_nil hpiece'.symm
    have hcovers : Covers items pre' piece' post' := exists_cover hitems hne
    have hwidth : StyledChar.width pre' = Glyph.width pre := by
      rw [Glyph.width, ← hpre, StyledChar.width]
    have hwidth' : StyledChar.width (pre' ++ piece') = Glyph.width (pre ++ piece) := by
      rw [StyledChar.width_append, hwidth, Glyph.width_append, Glyph.width, Glyph.width, ← hpiece',
        StyledChar.width]
    obtain ⟨spliced, hspliced, -⟩ := hcovers.exists_splice hne r
    have hvisible := hcovers.splice?_visible hne r
    rw [hwidth, hwidth'] at hspliced hvisible
    obtain ⟨shown, hshown, hglyphs⟩ := exists_splice_exact r.visible
      (show Inline.exactGlyphsOf (items.map (Inline.mapRun Run.visible)) = _ from h) hpiece
    rw [hspliced, hshown] at hvisible
    obtain rfl := Option.some.inj hvisible
    exact ⟨spliced, hspliced, hglyphs⟩

end Paragraph

namespace Inline

theorem anchor_mem_visibleGlyphsOf_iff {a : Inline} (ha : a.isRun = false) (items : List Inline) :
    .anchor a ∈ visibleGlyphsOf items ↔ a ∈ items := by
  induction items with
  | nil => simp
  | cons item items ih =>
    cases item with
    | run r =>
      have hne : a ≠ .run r := by
        rintro rfl
        cases ha
      have hmem : .anchor a ∉ r.visible.exactGlyphs := fun hmem =>
        List.filter_eq_nil_iff.1 r.visible.filter_isAnchor_exactGlyphs _ hmem rfl
      simp [hne, hmem, ih]
    | _ => rw [visibleGlyphsOf_anchor rfl, List.mem_cons, List.mem_cons, ih, Glyph.anchor.injEq]

/-- There is something of a run where there is a run. -/
theorem any_visibleGlyphsOf (items : List Inline) :
    (visibleGlyphsOf items).any (fun g => !g.isAnchor) = items.any isRun := by
  induction items with
  | nil => rfl
  | cons item items ih =>
    cases item with
    | run r =>
      obtain ⟨g, gs, hglyphs⟩ := List.exists_cons_of_ne_nil r.exactGlyphs_visible_ne_nil
      have hg : g.isAnchor = false := by
        have hnone := List.filter_eq_nil_iff.1 r.visible.filter_isAnchor_exactGlyphs g
        simpa [hglyphs] using hnone
      simp [hglyphs, hg, isRun]
    | _ =>
      rw [visibleGlyphsOf_anchor rfl, List.any_cons, List.any_cons, ih]
      rfl

/-- What is in a run is in one of the items. -/
theorem exists_run_of_visible {items : List Inline} {front back : List Glyph} {g : Glyph}
    (h : visibleGlyphsOf items = front ++ g :: back) (hg : g.isAnchor = false) :
    ∃ inner r rest left right, items = inner ++ .run r :: rest ∧
      r.visible.exactGlyphs = left ++ g :: right ∧ front = visibleGlyphsOf inner ++ left := by
  induction items generalizing front with
  | nil => simp at h
  | cons item items ih =>
    have hitem : visibleGlyphsOf (item :: items) =
        visibleGlyphsOf [item] ++ visibleGlyphsOf items := by
      rw [← visibleGlyphsOf_append, List.singleton_append]
    rw [hitem] at h
    rcases exists_of_append_eq_append_cons h with ⟨right, hglyphs, -⟩ | ⟨front', rfl, hrest⟩
    · cases item with
      | run r =>
        rw [visibleGlyphsOf_run, visibleGlyphsOf_nil, List.append_nil] at hglyphs
        exact ⟨[], r, items, front, right, rfl, hglyphs, by simp⟩
      | _ =>
        have hmem : g ∈ front ++ g :: right := by simp
        rw [← hglyphs] at hmem
        obtain rfl := List.mem_singleton.1 hmem
        cases hg
    · obtain ⟨inner, r, rest, left, right, rfl, hr, rfl⟩ := ih hrest
      refine ⟨item :: inner, r, rest, left, right, rfl, hr, ?_⟩
      rw [← List.append_assoc, ← visibleGlyphsOf_append, List.singleton_append]

end Inline

namespace WordReplacement.Encloses

variable {comment : CommentId} {items before between after : List Inline}

theorem visibleGlyphsOf_eq (h : Encloses comment items before between after) :
    Inline.visibleGlyphsOf items = Inline.visibleGlyphsOf before ++
      .anchor (.rangeStart comment) :: (Inline.visibleGlyphsOf between ++
        .anchor (.rangeEnd comment) :: Inline.visibleGlyphsOf after) := by
  rw [h.eq, Inline.visibleGlyphsOf_append, Inline.visibleGlyphsOf_anchor rfl,
    Inline.visibleGlyphsOf_append, Inline.visibleGlyphsOf_anchor rfl]

/-- What a reader knows in the end: whether there is a run between the anchors. -/
theorem foldl_read (h : Encloses comment items before between after) :
    (Inline.visibleGlyphsOf items).foldl (Glyph.read comment) .ahead =
      .past (between.any Inline.isRun) := by
  rw [h.visibleGlyphsOf_eq, List.foldl_append, Glyph.foldl_read_ahead
    (mt (Inline.anchor_mem_visibleGlyphsOf_iff rfl _).1 h.start_before)
    (mt (Inline.anchor_mem_visibleGlyphsOf_iff rfl _).1 h.end_before), List.foldl_cons, Glyph.read,
    if_pos rfl, Glyph.foldl_read_range
      (mt (Inline.anchor_mem_visibleGlyphsOf_iff rfl _).1 h.end_between), Inline.any_visibleGlyphsOf]

/-- The anchors are where they are if runs become others. -/
theorem exists_of_map {g : Run → Run}
    (h : Encloses comment (items.map (Inline.mapRun g)) before between after) :
    ∃ before' between' after', Encloses comment items before' between' after' ∧
      between = between'.map (Inline.mapRun g) := by
  have hanchor : ∀ {x a : Inline}, a.isRun = false → (Inline.mapRun g x = a ↔ x = a) := by
    intro x a ha
    cases x with
    | run r =>
      refine iff_of_false ?_ ?_ <;>
        · rintro rfl
          cases ha
    | _ => exact Iff.rfl
  have hmem : ∀ {a : Inline} {xs : List Inline}, a.isRun = false →
      a ∉ xs.map (Inline.mapRun g) → a ∉ xs := fun ha hnot hmem =>
    hnot (List.mem_map.2 ⟨_, hmem, (hanchor ha).2 rfl⟩)
  obtain ⟨before', rest, rfl, rfl, hrest⟩ := List.map_eq_append_iff.1 h.eq
  obtain ⟨x, rest, rfl, hx, hrest⟩ := List.map_eq_cons_iff.1 hrest
  obtain ⟨between', rest, rfl, rfl, hlast⟩ := List.map_eq_append_iff.1 hrest
  obtain ⟨y, after', rfl, hy, rfl⟩ := List.map_eq_cons_iff.1 hlast
  obtain rfl := (hanchor rfl).1 hx
  obtain rfl := (hanchor rfl).1 hy
  exact ⟨before', between', after', ⟨rfl, hmem rfl h.start_before, hmem rfl h.end_before,
    hmem rfl h.end_between⟩, rfl⟩

end WordReplacement.Encloses

/-! ## Fillings -/

/-- The number of bytes of text of some items. -/
def Inline.widthOf (items : List Inline) : Nat :=
  Text.width (items.flatMap chars)

theorem Inline.width_visibleGlyphsOf (items : List Inline) :
    Glyph.width (visibleGlyphsOf items) = widthOf items := by
  rw [Glyph.width, charsOf_visibleGlyphsOf]
  rfl

theorem Inline.widthOf_append (items more : List Inline) :
    widthOf (items ++ more) = widthOf items + widthOf more := by
  simp [widthOf]

namespace Filler

variable {f : Filler} {scope : Value} {p q : Paragraph} {tally : Tally} {comment : CommentId}
  {before between after before' between' after' : List Inline}

/-- A placeholder that is replaced takes a run with it, which comes after an anchor and some more
    items: it starts before the anchor, and goes on behind the last item of the run. -/
def Takes (f : Filler) (scope : Value) (p : Paragraph) (before inner : List Inline) (r : Run) :
    Prop :=
  ∃ ph ∈ f.delimiters.scan p.text, (f.rendering? scope ph).isSome ∧
    ph.start < Inline.widthOf before ∧
      Inline.widthOf (before ++ inner) + r.lastOffset < ph.stop

open WordReplacement Glyph

/-- Something of a run is left in the range if all placeholders leave the last of a run. -/
theorem any_filter_isLeft_iff {replace : Placeholder → Option Rendering} {ps : List Placeholder} :
    ((placed (Inline.widthOf before) (Inline.visibleGlyphsOf between)).filter
        (isLeft replace ps (Inline.widthOf before))).any (fun x => !x.2.isAnchor) ↔
      ∃ inner r rest, between = inner ++ .run r :: rest ∧ ¬ ∃ ph ∈ ps, (replace ph).isSome ∧
        ph.start < Inline.widthOf before ∧
          Inline.widthOf (before ++ inner) + r.lastOffset < ph.stop := by
  have hleft : ∀ {k : Nat} {g : Glyph}, g.isAnchor = false →
      (isLeft replace ps (Inline.widthOf before) (.original k, g) ↔
        ¬ ∃ ph ∈ ps, (replace ph).isSome ∧ ph.start < Inline.widthOf before ∧ k < ph.stop) := by
    intro k g hg
    simp only [isLeft, hg, Bool.false_or, List.all_eq_true, Bool.or_eq_true, decide_eq_true_eq,
      Option.isNone_iff_eq_none, not_exists, not_and, Option.isSome_iff_ne_none, Nat.not_lt]
    refine forall₂_congr fun ph _ => ?_
    rw [or_assoc, or_iff_not_imp_left, or_iff_not_imp_left, Nat.not_le]
  simp only [List.any_eq_true, List.mem_filter, Bool.not_eq_true', mem_placed_iff]
  constructor
  · rintro ⟨_, ⟨⟨front, g, back, hglyphs, rfl⟩, hisLeft⟩, hg⟩
    obtain ⟨inner, r, rest, left, right, rfl, hr, rfl⟩ := Inline.exists_run_of_visible hglyphs hg
    refine ⟨inner, r, rest, rfl, ?_⟩
    rintro ⟨ph, hph, hsome, hstart, hstop⟩
    refine (hleft hg).1 hisLeft ⟨ph, hph, hsome, hstart, ?_⟩
    have hle : width left ≤ r.lastOffset := by
      rw [← r.lastOffset_visible, Run.lastOffset, hr,
        List.dropLast_append_of_ne_nil (List.cons_ne_nil g right), width_append]
      exact Nat.le_add_right _ _
    rw [Inline.widthOf_append] at hstop
    rw [width_append, Inline.width_visibleGlyphsOf]
    omega
  · rintro ⟨inner, r, rest, rfl, htakes⟩
    have hlast := List.dropLast_append_getLast r.exactGlyphs_visible_ne_nil
    have hg : (r.visible.exactGlyphs.getLast r.exactGlyphs_visible_ne_nil).isAnchor = false := by
      simpa using List.filter_eq_nil_iff.1 r.visible.filter_isAnchor_exactGlyphs _
        (List.getLast_mem r.exactGlyphs_visible_ne_nil)
    refine ⟨_, ⟨⟨Inline.visibleGlyphsOf inner ++ r.visible.exactGlyphs.dropLast, _,
      Inline.visibleGlyphsOf rest, ?_, rfl⟩, (hleft hg).2 ?_⟩, hg⟩
    · conv_lhs => rw [Inline.visibleGlyphsOf_append, Inline.visibleGlyphsOf_run, ← hlast]
      simp
    · rw [width_append, Inline.width_visibleGlyphsOf, ← Nat.add_assoc, ← Inline.widthOf_append,
        ← Run.lastOffset, r.lastOffset_visible]
      exact htakes

/-- There is a run between the anchors of a comment after a filling if there was one that no
    placeholder takes with it. -/
theorem any_isRun_fillParagraph (h : f.fillParagraph scope p = .ok (q, tally))
    (henc : Encloses comment p.content before between after)
    (henc' : Encloses comment q.content before' between' after') :
    between'.any Inline.isRun ↔
      ∃ inner r rest, between = inner ++ .run r :: rest ∧ ¬ f.Takes scope p before inner r := by
  obtain ⟨content, out, rfl, hout, hfilled⟩ := exists_filled Paragraph.shows_visibleGlyphsOf h
  obtain ⟨_, left, _, hleft, rfl⟩ := henc'.exists_of_map
  have hread := hfilled.foldl_read_ahead (isRuns_visible _) henc.visibleGlyphsOf_eq
    (mt (Inline.anchor_mem_visibleGlyphsOf_iff rfl _).1 henc.start_before)
    (mt (Inline.anchor_mem_visibleGlyphsOf_iff rfl _).1 henc.end_before)
  have hend : ∀ P : Source × Glyph → Bool, .anchor (.rangeEnd comment) ∉
      ((placed (Inline.widthOf before) (Inline.visibleGlyphsOf between)).filter P).map Prod.snd := by
    intro P hmem
    obtain ⟨x, hx, hsnd⟩ := List.mem_map.1 hmem
    have hglyph := List.mem_map_of_mem (f := Prod.snd) (List.mem_filter.1 hx).1
    rw [map_snd_placed, hsnd, Inline.anchor_mem_visibleGlyphsOf_iff rfl] at hglyph
    exact henc.end_between hglyph
  rw [hout, hleft.foldl_read, Inline.width_visibleGlyphsOf, Nat.zero_add, placed_append,
    List.filter_append, List.map_append, placed, List.filter_cons_of_pos rfl, List.map_cons,
    foldl_read_range (hend _), Reading.past.injEq, List.any_map] at hread
  have hruns : (left.map (Inline.mapRun (Run.breakLines f.settings.lineBreak))).any Inline.isRun =
      left.any Inline.isRun := by
    rw [List.any_map]
    congr 1
    funext item
    cases item <;> rfl
  rw [hruns, hread]
  refine any_filter_isLeft_iff.trans ?_
  simp only [Option.isSome_map]
  exact Iff.rfl

end Filler

end DocTemplate
