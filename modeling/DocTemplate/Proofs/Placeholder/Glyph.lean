import DocTemplate.Proofs.Document.Glyph
import DocTemplate.Proofs.Placeholder.Substitution

/-!
# Splicing glyphs

A splice takes other ways in one run and across runs, but to the glyphs of the paragraph it
does the same: a piece of them that starts and ends with a character is replaced, in the
style of that first character, and all else stays. This is so only if there is no anchor in
the piece, for a splice across runs keeps it.

* `Run.glyphs_splitAt`: the glyphs of the parts of a run;
* `Paragraph.exists_splice_of_isPiece`: the glyphs after a splice.
-/

namespace DocTemplate

namespace Glyph

variable {gs hs : List Glyph}

/-- The first glyph, if there is one, is a character. -/
def StartsInText (gs : List Glyph) : Prop :=
  ∀ g ∈ gs.head?, g.char?.isSome

/-- The last glyph, if there is one, is a character. -/
def EndsInText (gs : List Glyph) : Prop :=
  ∀ g ∈ gs.getLast?, g.char?.isSome

theorem EndsInText.of_append (h : EndsInText (gs ++ hs)) : EndsInText hs := by
  intro g hg
  refine h g ?_
  rw [List.getLast?_append, Option.mem_def.1 hg]
  rfl

theorem EndsInText.charsOf_ne_nil (h : EndsInText gs) (hne : gs ≠ []) : charsOf gs ≠ [] := by
  obtain ⟨c, hc⟩ := Option.isSome_iff_exists.1 (h _ (List.getLast?_eq_some_getLast hne))
  exact List.ne_nil_of_mem (List.mem_filterMap.2 ⟨_, List.getLast_mem hne, hc⟩)

theorem width_pos (h : charsOf gs ≠ []) : 0 < width gs :=
  Text.width_pos h

theorem width_cons (g : Glyph) (gs : List Glyph) : width (g :: gs) = width [g] + width gs :=
  width_append [g] gs

theorem width_pos_of_isSome {g : Glyph} (h : g.char?.isSome) : 0 < width [g] := by
  cases g with
  | char c style => exact width_pos (by simp [char?])
  | _ => cases h

theorem width_eq_of_charsOf {cs : List StyledChar} (h : charsOf gs = cs.map Prod.fst) :
    width gs = StyledChar.width cs := by
  rw [width, h, StyledChar.width]

/-! ## Spans -/

/-- The glyphs start and end with a character. -/
structure IsSpan (gs : List Glyph) : Prop where
  first : ∃ c style rest, gs = .char c style :: rest
  last : ∃ c style init, gs = init ++ [.char c style]

namespace IsSpan

variable {left right : List Glyph} {g : Glyph}

theorem startsInText (h : IsSpan gs) : StartsInText gs := by
  obtain ⟨c, style, rest, rfl⟩ := h.first
  intro g hg
  cases hg
  rfl

theorem endsInText (h : IsSpan gs) (hs : List Glyph) : EndsInText (hs ++ gs) := by
  obtain ⟨c, style, init, rfl⟩ := h.last
  intro g hg
  rw [← List.append_assoc, List.getLast?_concat] at hg
  cases hg
  rfl

theorem charsOf_ne_nil (h : IsSpan gs) : charsOf gs ≠ [] := by
  obtain ⟨c, style, rest, rfl⟩ := h.first
  simp [char?]

theorem width_pos (h : IsSpan gs) : 0 < width gs :=
  Glyph.width_pos h.charsOf_ne_nil

theorem exists_char_of_concat (h : IsSpan (gs ++ [g])) : ∃ c style, g = .char c style := by
  obtain ⟨c, style, init, hinit⟩ := h.last
  exact ⟨c, style, List.singleton_inj.1 (List.append_inj_right' hinit rfl)⟩

/-- What is no character is strictly inside. -/
theorem width_pos_around (h : IsSpan (left ++ g :: right)) (hg : g.char? = none) :
    0 < width left ∧ 0 < width right := by
  constructor
  · obtain ⟨c, style, rest, hfirst⟩ := h.first
    cases left with
    | nil =>
      obtain ⟨rfl, -⟩ := List.cons_eq_cons.1 hfirst
      cases hg
    | cons g' left =>
      obtain ⟨rfl, -⟩ := List.cons_eq_cons.1 hfirst
      exact Glyph.width_pos (by simp [char?])
  · have hends : EndsInText (g :: right) := (h.endsInText []).of_append.of_append
    have hne := hends.charsOf_ne_nil (List.cons_ne_nil _ _)
    rw [charsOf_cons, hg] at hne
    exact Glyph.width_pos hne

end IsSpan

theorem exists_char_of_charsOf {bs cs : List Char} {c : Char} (h : charsOf gs = bs ++ c :: cs) :
    ∃ front style back, gs = front ++ .char c style :: back ∧ charsOf front = bs ∧
      charsOf back = cs := by
  obtain ⟨front, rest, rfl, hfront, hrest⟩ := List.filterMap_eq_append_iff.1 h
  obtain ⟨more, g, back, rfl, hmore, hg, hback⟩ := List.filterMap_eq_cons_iff.1 hrest
  obtain ⟨style, rfl⟩ : ∃ style, g = .char c style := by
    cases g <;> simp_all [char?]
  refine ⟨front ++ more, style, back, by simp, ?_, hback⟩
  rw [charsOf_append, charsOf, hfront, charsOf, List.filterMap_eq_nil_iff.2 hmore, List.append_nil]

/-- A part of the text is that of glyphs which start and end with a character. -/
theorem exists_isSpan_of_charsOf {bs cs ds : List Char} (h : charsOf gs = bs ++ cs ++ ds)
    (hcs : cs ≠ []) : ∃ front piece back, gs = front ++ piece ++ back ∧ charsOf front = bs ∧
      charsOf piece = cs ∧ charsOf back = ds ∧ IsSpan piece := by
  obtain ⟨c, cs, rfl⟩ := List.exists_cons_of_ne_nil hcs
  rw [List.append_assoc, List.cons_append] at h
  obtain ⟨front, style, rest, rfl, hfront, hrest⟩ := exists_char_of_charsOf h
  rcases List.eq_nil_or_concat cs with rfl | ⟨cs, d, rfl⟩
  · exact ⟨front, [.char c style], rest, by simp, hfront, rfl, hrest, ⟨c, style, [], rfl⟩,
      c, style, [], rfl⟩
  · rw [List.concat_eq_append, List.append_assoc, List.singleton_append] at hrest
    obtain ⟨mid, style', back, rfl, hmid, hback⟩ := exists_char_of_charsOf hrest
    exact ⟨front, .char c style :: (mid ++ [.char d style']), back, by simp, hfront,
      by simp [char?, hmid], hback, ⟨c, style, _, rfl⟩, d, style', .char c style :: mid, by simp⟩

end Glyph

/-! ## Splitting runs -/

namespace RunItem

variable {style : RunStyle} {bias : Bias} {items : List RunItem} {left right : List Glyph}

/-- Wherever the glyphs of the items are cut, the items are split there: before a character, if what
    is no text goes to the left, and after one, if it goes to the right. -/
def SplitsExactly (style : RunStyle) (bias : Bias) (items : List RunItem) : Prop :=
  ∀ {left right : List Glyph}, glyphsOf style items = left ++ right →
    (bias = .left → Glyph.StartsInText right) → (bias = .right → Glyph.EndsInText left) →
      glyphsOf style (Run.splitItems bias (Glyph.width left) items).1 = left ∧
        glyphsOf style (Run.splitItems bias (Glyph.width left) items).2 = right

/-- An item that is no text is on the left, unless the cut is right before it. -/
theorem SplitsExactly.cons_item {item : RunItem} (hitems : SplitsExactly style bias items)
    (hglyphs : item.glyphs style = [.item item style])
    (hsplit : ∀ n, Run.splitItems bias n (item :: items) =
      if 0 < n ∨ bias = .left then
        (item :: (Run.splitItems bias n items).1, (Run.splitItems bias n items).2)
      else ((Run.splitItems bias n items).1, item :: (Run.splitItems bias n items).2)) :
    SplitsExactly style bias (item :: items) := by
  intro left right h hleft hright
  rw [glyphsOf_cons, hglyphs, List.singleton_append] at h
  cases left with
  | nil =>
    subst h
    cases bias with
    | left => exact absurd (hleft rfl _ rfl) (by simp [Glyph.char?])
    | right =>
      have hnil : glyphsOf style items = [] ++ glyphsOf style items := rfl
      obtain ⟨hl, hr⟩ := hitems hnil (fun hbias => by cases hbias) fun _ _ hg => by cases hg
      rw [hsplit, Glyph.width_nil, if_neg (by simp)]
      exact ⟨hl, by rw [glyphsOf_cons, hglyphs, ← Glyph.width_nil, hr]; rfl⟩
  | cons g left =>
    obtain ⟨rfl, hrest⟩ := List.cons_eq_cons.1 h
    have hwidth : Glyph.width (.item item style :: left) = Glyph.width left := by
      simp [Glyph.width, Glyph.char?]
    have hstays : 0 < Glyph.width left ∨ bias = .left := by
      cases bias with
      | left => exact .inr rfl
      | right =>
        rw [← hwidth]
        exact .inl (Glyph.width_pos ((hright rfl).charsOf_ne_nil (List.cons_ne_nil _ _)))
    obtain ⟨hl, hr⟩ := hitems hrest hleft fun hbias =>
      (show Glyph.EndsInText ([.item item style] ++ left) from hright hbias).of_append
    rw [hsplit, hwidth, if_pos hstays]
    exact ⟨by rw [glyphsOf_cons, hglyphs, hl]; rfl, hr⟩

/-- A text is on the left as a whole, or there is some of it on the right. -/
theorem SplitsExactly.cons_text (s : String) (hitems : SplitsExactly style bias items) :
    SplitsExactly style bias (.text s :: items) := by
  intro left right h hleft hright
  rw [glyphsOf_cons] at h
  have hsize : Glyph.width (glyphs style (.text s)) = Text.size s := by
    rw [Glyph.width, charsOf_glyphs]
    rfl
  have hwhole : ∀ rest, left = glyphs style (.text s) ++ rest →
      glyphsOf style items = rest ++ right →
      glyphsOf style (Run.splitItems bias (Glyph.width left) (.text s :: items)).1 = left ∧
        glyphsOf style (Run.splitItems bias (Glyph.width left) (.text s :: items)).2 = right := by
    rintro rest rfl hrest
    obtain ⟨hl, hr⟩ := hitems hrest hleft fun hbias => (hright hbias).of_append
    simp [Run.splitItems, hsize, hl, hr]
  rcases List.append_eq_append_iff.1 h with ⟨rest, hl, hrest⟩ | ⟨cs, hs, rfl⟩
  · exact hwhole rest hl hrest
  · obtain ⟨as, bs, hchars, rfl, rfl⟩ := List.map_eq_append_iff.1 hs
    by_cases hbs : bs = []
    · subst hbs
      exact hwhole [] (by simp [glyphs, hchars]) rfl
    · have hwidth : Glyph.width (as.map fun c => .char c style) = Text.width as := by
        rw [Glyph.width, Glyph.charsOf_map_char]
      have hlt : ¬ Text.size s ≤ Text.width as := by
        have := Text.width_pos hbs
        rw [Text.size, hchars, Text.width_append]
        omega
      rw [hwidth, Run.splitItems, if_neg hlt]
      split
      · -- All of it is on the right.
        next hzero =>
        have has : as = [] := by
          by_contra hne
          exact absurd hzero (Nat.ne_of_gt (Text.width_pos hne))
        subst has
        simp [glyphs, hchars]
      · simp [Text.splitAt, hchars, Text.cut_width, glyphs]

theorem splitsExactly (style : RunStyle) (bias : Bias) (items : List RunItem) :
    SplitsExactly style bias items := by
  induction items with
  | nil =>
    intro left right h _ _
    obtain ⟨rfl, rfl⟩ := List.append_eq_nil_iff.1 h.symm
    exact ⟨rfl, rfl⟩
  | cons item items ih =>
    cases item with
    | text s => exact ih.cons_text s
    | _ =>
      refine ih.cons_item rfl fun n => ?_
      rw [Run.splitItems]
      intro s hs
      cases hs

end RunItem

/-- The characters of some glyphs, in a style. -/
def Glyph.styledChars (style : RunStyle) (gs : List Glyph) : List StyledChar :=
  (charsOf gs).map fun c => (c, style)

namespace Glyph

variable {style : RunStyle} {gs : List Glyph}

@[simp] theorem styledChars_append (gs hs : List Glyph) :
    styledChars style (gs ++ hs) = styledChars style gs ++ styledChars style hs := by
  simp [styledChars]

@[simp] theorem width_styledChars : StyledChar.width (styledChars style gs) = width gs := by
  simp [styledChars, StyledChar.width, width, Function.comp_def]

theorem styledChars_ne_nil (h : charsOf gs ≠ []) : styledChars style gs ≠ [] := by
  simpa [styledChars] using h

end Glyph

namespace Run

variable {r : Run} {left right : List Glyph}

theorem glyphs_splitAt (bias : Bias) (h : r.glyphs = left ++ right)
    (hleft : bias = .left → Glyph.StartsInText right)
    (hright : bias = .right → Glyph.EndsInText left) :
    (r.splitAt (Glyph.width left) bias).1.glyphs = left ∧
      (r.splitAt (Glyph.width left) bias).2.glyphs = right :=
  RunItem.splitsExactly _ _ _ h hleft hright

theorem styledChars_eq (r : Run) : r.styledChars = Glyph.styledChars r.style r.glyphs := by
  rw [styledChars, Glyph.styledChars, charsOf_glyphs]

end Run

namespace Inline

theorem width_headedGlyphsOf (opened : Bool) (items : List Inline) :
    Glyph.width (headedGlyphsOf opened items) = StyledChar.width (styledCharsOf items) := by
  rw [Glyph.width, charsOf_headedGlyphsOf, StyledChar.width, styledCharsOf, List.map_flatMap]
  congr 2
  funext item
  cases item <;> simp [chars, styledChars, Run.styledChars, Function.comp_def]

/-- Where there is no anchor, nothing is to be seen of the items that are no runs. -/
theorem headedGlyphsOf_filter_not_isRun {items : List Inline}
    (h : ∀ a, .anchor a ∉ headedGlyphsOf true items) (more : List Inline) :
    headedGlyphsOf true ((items.filter fun item => !item.isRun) ++ more) =
      headedGlyphsOf true more := by
  induction items with
  | nil => rfl
  | cons item items ih =>
    cases item with
    | run r => exact ih fun a ha => h a (List.mem_append_right _ ha)
    | proof mark => exact ih h
    | _ => exact absurd List.mem_cons_self (h _)

theorem foldl_opens_of_no_anchor {items : List Inline}
    (h : ∀ a, .anchor a ∉ headedGlyphsOf true items) : items.foldl opens true = true := by
  rw [foldl_opens]
  generalize headedGlyphsOf true items = gs at h
  induction gs with
  | nil => rfl
  | cons g gs ih =>
    have ih := ih fun a ha => h a (List.mem_cons_of_mem _ ha)
    cases g with
    | anchor a => exact absurd List.mem_cons_self (h a)
    | _ => exact ih

end Inline

/-! ## Splices -/

namespace Glyph

/-- The glyphs start and end with a character, and have no anchor in between. -/
structure IsPiece (gs : List Glyph) : Prop extends IsSpan gs where
  anchors : ∀ a, .anchor a ∉ gs

/-- The style of the first character of a piece. -/
def styleOf : List Glyph → RunStyle
  | .char _ style :: _ => style
  | _ => {}

end Glyph

namespace Paragraph

theorem headedGlyphsOf_runUnlessEmpty (r : Run) (items : List Inline) :
    Inline.headedGlyphsOf true (runUnlessEmpty r ++ items) =
      r.glyphs ++ Inline.headedGlyphsOf true items := by
  rw [runUnlessEmpty]
  split
  · next h => simp [Run.glyphs_eq_nil_of_isEmpty h]
  · rfl

/-- A run that is left out before one of the same style leaves its head to it. -/
theorem headedGlyphsOf_runUnlessEmpty_run (opened : Bool) {r r' : Run} (h : r'.style = r.style)
    (items : List Inline) : Inline.headedGlyphsOf opened (runUnlessEmpty r ++ .run r' :: items) =
      r.head opened ++ r.glyphs ++ r'.glyphs ++ Inline.headedGlyphsOf true items := by
  rw [runUnlessEmpty]
  split
  · next hempty =>
    rw [Run.glyphs_eq_nil_of_isEmpty hempty]
    simp [Run.head_congr (congrArg RunStyle.withoutLang h)]
  · simp

variable {r first last : Run} {left piece head tail right : List Glyph} (content : List RunItem)
  (opened : Bool) (before between after : List Inline)

/-- A splice in one run, which has the head of the run before it, if there is one. -/
theorem exists_splice_within (hr : r.glyphs = left ++ piece ++ right) (hpiece : Glyph.IsPiece piece) :
    ∃ spliced, splice? (before ++ .run r :: after)
        (StyledChar.width (Inline.styledCharsOf before) + Glyph.width left)
        (StyledChar.width (Inline.styledCharsOf before) + Glyph.width left + Glyph.width piece)
        (.items content) = some spliced ∧
      Inline.headedGlyphsOf opened spliced =
        Inline.headedGlyphsOf opened before ++ r.head (before.foldl Inline.opens opened) ++ left ++
          RunItem.glyphsOf r.style.withoutLang content ++ right ++
            Inline.headedGlyphsOf true after := by
  have hsplice : splice? (before ++ .run r :: after) _ _ _ = _ := splice?_within (.items content)
    (show r.styledChars = Glyph.styledChars r.style left ++ Glyph.styledChars r.style piece ++
      Glyph.styledChars r.style right by rw [Run.styledChars_eq, hr]; simp)
    (Glyph.styledChars_ne_nil hpiece.charsOf_ne_nil)
  simp only [StyledChar.width_append, Glyph.width_styledChars] at hsplice
  rw [← Glyph.width_append] at hsplice
  obtain ⟨hfront, hafter⟩ := Run.glyphs_splitAt .right hr nofun fun _ => hpiece.endsInText left
  obtain ⟨hbefore, -⟩ := Run.glyphs_splitAt .left hfront
    (fun _ => hpiece.startsInText) nofun
  refine ⟨_, hsplice, ?_⟩
  rw [List.append_assoc, Inline.headedGlyphsOf_append, headedGlyphsOf_runUnlessEmpty_run,
    headedGlyphsOf_runUnlessEmpty, hbefore, hafter]
  · simp [Run.head, Run.splitAt, Run.glyphs, rendered]
  · rfl

/-- A splice across runs, between which there is no anchor. -/
theorem exists_splice_across (hf : first.glyphs = left ++ head) (hh : Glyph.StartsInText head)
    (hhead : Glyph.charsOf head ≠ []) (hl : last.glyphs = tail ++ right)
    (ht : Glyph.EndsInText tail) (htail : Glyph.charsOf tail ≠ [])
    (hbetween : ∀ a, .anchor a ∉ Inline.headedGlyphsOf true between) :
    ∃ spliced, splice? (before ++ .run first :: (between ++ .run last :: after))
        (StyledChar.width (Inline.styledCharsOf before) + Glyph.width left)
        (StyledChar.width (Inline.styledCharsOf before) + Glyph.width left +
          (Glyph.width head + Glyph.width (Inline.headedGlyphsOf true between) + Glyph.width tail))
        (.items content) = some spliced ∧
      Inline.headedGlyphsOf opened spliced =
        Inline.headedGlyphsOf opened before ++ first.head (before.foldl Inline.opens opened) ++ left ++
          RunItem.glyphsOf first.style.withoutLang content ++ right ++
            Inline.headedGlyphsOf true after := by
  have hsplice : splice? (before ++ .run first :: (between ++ .run last :: after)) _ _ _ = _ :=
      splice?_across (.items content)
    (show first.styledChars = Glyph.styledChars first.style left ++
      Glyph.styledChars first.style head by rw [Run.styledChars_eq, hf]; simp)
    (Glyph.styledChars_ne_nil hhead)
    (show last.styledChars = Glyph.styledChars last.style tail ++
      Glyph.styledChars last.style right by rw [Run.styledChars_eq, hl]; simp)
    (Glyph.styledChars_ne_nil htail)
  simp only [StyledChar.width_append, Glyph.width_styledChars, ← Inline.width_headedGlyphsOf true between]
    at hsplice
  obtain ⟨hbefore, -⟩ := Run.glyphs_splitAt .left hf (fun _ => hh) nofun
  obtain ⟨-, hafter⟩ := Run.glyphs_splitAt .right hl nofun fun _ => ht
  refine ⟨_, hsplice, ?_⟩
  rw [List.append_assoc, Inline.headedGlyphsOf_append, headedGlyphsOf_runUnlessEmpty_run,
    Inline.headedGlyphsOf_filter_not_isRun hbetween, headedGlyphsOf_runUnlessEmpty, hbefore, hafter]
  · simp [Run.head, Run.splitAt, Run.glyphs, rendered]
  · rfl

/-- A splice at a piece of the glyphs replaces it, in the style of its first character. -/
theorem exists_splice_of_isPiece {opened : Bool} {items : List Inline} {pre post : List Glyph}
    (h : Inline.headedGlyphsOf opened items = pre ++ piece ++ post) (hpiece : Glyph.IsPiece piece) :
    ∃ spliced, splice? items (Glyph.width pre) (Glyph.width (pre ++ piece)) (.items content) =
        some spliced ∧
      Inline.headedGlyphsOf opened spliced =
        pre ++ RunItem.glyphsOf (Glyph.styleOf piece) content ++ post := by
  obtain ⟨c, style, rest, rfl⟩ := hpiece.first
  rw [List.append_assoc, List.cons_append] at h
  obtain ⟨before, r, after, left, right, rfl, hr, rfl, hpost⟩ := Inline.exists_run_of_char h
  have hstyle : style = r.style.withoutLang := by
    have hmem : Glyph.char c style ∈ r.glyphs := by simp [hr]
    rcases RunItem.exists_of_mem_glyphsOf hmem with ⟨d, hd⟩ | ⟨i, -, -, hi⟩
    · exact (Glyph.char.inj hd).2
    · cases hi
  have hwidth : Glyph.width (Inline.headedGlyphsOf opened before ++
      r.head (before.foldl Inline.opens opened) ++ left) =
        StyledChar.width (Inline.styledCharsOf before) + Glyph.width left := by
    rw [Glyph.width_append, Glyph.width_append, Inline.width_headedGlyphsOf]
    simp [Glyph.width]
  have hstyleOf : Glyph.styleOf (.char c style :: rest) = r.style.withoutLang := hstyle
  rw [Glyph.width_append _ (_ :: rest), hwidth, hstyleOf]
  rcases List.append_eq_append_iff.1 hpost with ⟨more, rfl, rfl⟩ | ⟨more, rfl, hmore⟩
  · -- The piece ends in the run where it starts.
    have hr' : r.glyphs = left ++ (.char c style :: rest) ++ more := by simpa using hr
    simpa using exists_splice_within content opened before after hr' hpiece
  · rcases List.eq_nil_or_concat more with rfl | ⟨more, g, rfl⟩
    · rw [List.append_nil] at hpiece ⊢
      have hr' : r.glyphs = left ++ (.char c style :: right) ++ [] := by simpa using hr
      simpa [hmore] using exists_splice_within content opened before after hr' hpiece
    · -- It ends in a later run.
      obtain ⟨d, style', rfl⟩ : ∃ d style', g = .char d style' := by
        have hspan := hpiece.toIsSpan
        rw [List.concat_eq_append, ← List.append_assoc, ← List.cons_append] at hspan
        exact hspan.exists_char_of_concat
      have hlater : Inline.headedGlyphsOf true after = more ++ .char d style' :: post := by
        simpa using hmore
      obtain ⟨between, t, after, left', right', rfl, ht, rfl, rfl⟩ := Inline.exists_run_of_char hlater
      have hbetween : ∀ a, .anchor a ∉ Inline.headedGlyphsOf true between := by
        intro a ha
        exact hpiece.anchors a (by simp [ha])
      have htail : t.glyphs = (left' ++ [.char d style']) ++ right' := by simpa using ht
      have hspliced := exists_splice_across content opened before between after hr
        (fun g hg => by cases hg; rfl) (by simp [Glyph.char?]) htail
        (fun g hg => by rw [List.getLast?_concat] at hg; cases hg; rfl) (by simp [Glyph.char?]) hbetween
      rw [Inline.foldl_opens_of_no_anchor hbetween]
      have hwidth' : Glyph.width (.char c style :: (right ++
          (Inline.headedGlyphsOf true between ++ t.head true ++ left').concat (.char d style'))) =
            Glyph.width (.char c style :: right) + Glyph.width (Inline.headedGlyphsOf true between) +
              Glyph.width (left' ++ [.char d style']) := by
        rw [List.concat_eq_append, Run.head_true, List.append_nil, ← List.cons_append]
        simp only [Glyph.width_append]
        omega
      rw [hwidth']
      simpa using hspliced

end Paragraph

/-! ## Fillings -/

namespace Filler.Progress

variable {view : List Inline → List Glyph} {done before piece after filled : List Glyph}
  {offset : Nat} {state : Progress} {p : Placeholder}

/-- In a view of the items, the glyphs up to `offset` in the first text are done, and the
    others are still to come. -/
structure Tracks (view : List Inline → List Glyph) (done rest : List Glyph) (offset : Nat)
    (state : Progress) : Prop where
  glyphs : view state.content = done ++ rest
  shift : offset + state.shift = Glyph.width done

/-- A placeholder that is kept is done. -/
theorem Tracks.skip (h : state.Tracks view done (before ++ piece ++ after) offset)
    (hstart : p.start = offset + Glyph.width before)
    (hstop : p.stop = p.start + Glyph.width piece) :
    state.Tracks view (done ++ before ++ piece) after p.stop := by
  refine ⟨?_, ?_⟩
  · rw [h.glyphs]
    simp
  · have := h.shift
    simp
    omega

/-- A placeholder that is replaced is done, with what its splice leaves. -/
theorem Tracks.splice (h : state.Tracks view done (before ++ piece ++ after) offset)
    (hstart : p.start = offset + Glyph.width before)
    (hstop : p.stop = p.start + Glyph.width piece) {rendering : Rendering}
    (hsplice : view state.content = done ++ before ++ piece ++ after →
      ∃ spliced, Paragraph.splice? state.content (Glyph.width (done ++ before))
          (Glyph.width (done ++ before ++ piece)) rendering = some spliced ∧
        view spliced = done ++ before ++ filled ++ after)
    (hfilled : Glyph.charsOf filled = RunItem.charsOf rendering.content) :
    (state.splice p rendering).Tracks view (done ++ before ++ filled) after p.stop := by
  have hshift := h.shift
  obtain ⟨spliced, hspliced, hresult⟩ := hsplice (by rw [h.glyphs]; simp)
  have hfirst : (p.start + state.shift).toNat = Glyph.width (done ++ before) := by
    simp
    omega
  have hlast : (p.stop + state.shift).toNat = Glyph.width (done ++ before ++ piece) := by
    simp
    omega
  have hwidth : Glyph.width filled = Text.width (RunItem.charsOf rendering.content) := by
    rw [Glyph.width, hfilled]
  simp only [Progress.splice, hfirst, hlast, hspliced]
  refine ⟨hresult, ?_⟩
  simp [hwidth]
  omega

end Filler.Progress

end DocTemplate
