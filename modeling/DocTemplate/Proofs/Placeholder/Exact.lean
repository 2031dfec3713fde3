import DocTemplate.Proofs.Placeholder.Glyph

/-!
# Exact glyphs

The *exact* glyphs of a paragraph leave nothing out but how they are spread over runs: they
have the style of their run with its language, and every item that is no run is one of them,
whether an anchor or a mark of a proofing tool.

A splice at a piece that starts and ends with a character replaces it, in the style of the
run of that first character, and leaves all before and after it as it is. Of the piece, only
what is in no run is left, and comes after the replacement.

* `Inline.exists_run_of_exact_char`: every character is one of a run;
* `Paragraph.exists_splice_exact`: the exact glyphs after a splice.
-/

namespace DocTemplate

/-- The glyphs of a run in its style. -/
def Run.exactGlyphs (r : Run) : List Glyph :=
  RunItem.glyphsOf r.style r.content

/-- The glyphs of a rendering in place of a text that starts in a style. -/
def Rendering.glyphs (style : RunStyle) : Rendering → List Glyph
  | .items content => RunItem.glyphsOf style content
  | .run r => r.exactGlyphs

/-- Whether the glyph is an item that is no run. -/
def Glyph.isAnchor : Glyph → Bool
  | anchor _ => true
  | _ => false

namespace Run

variable {r : Run} {left right : List Glyph}

@[simp] theorem charsOf_exactGlyphs (r : Run) :
    Glyph.charsOf r.exactGlyphs = RunItem.charsOf r.content :=
  RunItem.charsOf_glyphsOf r.content

theorem exactGlyphs_splitAt (bias : Bias) (h : r.exactGlyphs = left ++ right)
    (hleft : bias = .left → Glyph.StartsInText right)
    (hright : bias = .right → Glyph.EndsInText left) :
    (r.splitAt (Glyph.width left) bias).1.exactGlyphs = left ∧
      (r.splitAt (Glyph.width left) bias).2.exactGlyphs = right :=
  RunItem.splitsExactly _ _ _ h hleft hright

theorem styledChars_eq_exact (r : Run) :
    r.styledChars = Glyph.styledChars r.style r.exactGlyphs := by
  rw [styledChars, Glyph.styledChars, charsOf_exactGlyphs]

/-- In a run there is nothing that is no run. -/
theorem filter_isAnchor_exactGlyphs (r : Run) : r.exactGlyphs.filter Glyph.isAnchor = [] := by
  refine List.filter_eq_nil_iff.2 fun g hg => ?_
  rcases RunItem.exists_of_mem_glyphsOf hg with ⟨c, rfl⟩ | ⟨i, -, -, rfl⟩ <;> simp [Glyph.isAnchor]

theorem exactGlyphs_eq_nil_of_isEmpty (h : r.isEmpty = true) : r.exactGlyphs = [] :=
  RunItem.glyphsOf_eq_nil_of_isEmpty h _

end Run

namespace Inline

/-- The exact glyphs of an item. -/
def exactGlyphs : Inline → List Glyph
  | run r => r.exactGlyphs
  | item => [.anchor item]

/-- The exact glyphs of some items. -/
def exactGlyphsOf (items : List Inline) : List Glyph :=
  items.flatMap exactGlyphs

@[simp] theorem exactGlyphsOf_nil : exactGlyphsOf [] = [] := rfl

@[simp] theorem exactGlyphsOf_cons (item : Inline) (items : List Inline) :
    exactGlyphsOf (item :: items) = item.exactGlyphs ++ exactGlyphsOf items :=
  List.flatMap_cons

@[simp] theorem exactGlyphsOf_append (items more : List Inline) :
    exactGlyphsOf (items ++ more) = exactGlyphsOf items ++ exactGlyphsOf more :=
  List.flatMap_append

@[simp] theorem exactGlyphs_run (r : Run) : exactGlyphs (.run r) = r.exactGlyphs := rfl

theorem charsOf_exactGlyphs (item : Inline) : Glyph.charsOf item.exactGlyphs = item.chars := by
  cases item with
  | run r => exact r.charsOf_exactGlyphs
  | _ => rfl

@[simp] theorem charsOf_exactGlyphsOf (items : List Inline) :
    Glyph.charsOf (exactGlyphsOf items) = items.flatMap chars := by
  induction items with
  | nil => rfl
  | cons item items ih => simp [ih, charsOf_exactGlyphs]

theorem width_exactGlyphsOf (items : List Inline) :
    Glyph.width (exactGlyphsOf items) = StyledChar.width (styledCharsOf items) := by
  rw [Glyph.width, charsOf_exactGlyphsOf, StyledChar.width, styledCharsOf, List.map_flatMap]
  congr 2
  funext item
  cases item <;> simp [chars, styledChars, Run.styledChars, Function.comp_def]

/-- What is in no run. -/
theorem filter_isAnchor_exactGlyphsOf (items : List Inline) :
    (exactGlyphsOf items).filter Glyph.isAnchor = (nonRunsOf items).map .anchor := by
  induction items with
  | nil => rfl
  | cons item items ih =>
    rw [exactGlyphsOf_cons, List.filter_append, ih]
    cases item with
    | run r => simp [Run.filter_isAnchor_exactGlyphs, nonRunsOf, isRun]
    | _ => rfl

theorem exactGlyphsOf_nonRunsOf (items : List Inline) :
    exactGlyphsOf (nonRunsOf items) = (nonRunsOf items).map .anchor := by
  induction items with
  | nil => rfl
  | cons item items ih =>
    cases item with
    | run r => simpa [nonRunsOf, isRun] using ih
    | _ => simpa [nonRunsOf, isRun, exactGlyphs] using ih

/-- Every character is one of a run, in its style. -/
theorem exists_run_of_exact_char {items : List Inline} {pre post : List Glyph} {c : Char}
    {style : RunStyle} (h : exactGlyphsOf items = pre ++ .char c style :: post) :
    ∃ before r after left right, items = before ++ .run r :: after ∧
      r.exactGlyphs = left ++ .char c style :: right ∧ style = r.style ∧
      pre = exactGlyphsOf before ++ left ∧ post = right ++ exactGlyphsOf after := by
  induction items generalizing pre with
  | nil => simp at h
  | cons item items ih =>
    rw [exactGlyphsOf_cons] at h
    rcases List.append_eq_append_iff.1 h with ⟨rest, rfl, hrest⟩ | ⟨rest, hitem, hrest⟩
    · -- It is in a later item.
      obtain ⟨before, r, after, left, right, rfl, hr, hstyle, rfl, rfl⟩ := ih hrest
      exact ⟨item :: before, r, after, left, right, rfl, hr, hstyle, by simp, rfl⟩
    · cases rest with
      | nil =>
        obtain ⟨before, r, after, left, right, rfl, hr, hstyle, hpre, rfl⟩ := @ih [] hrest.symm
        obtain ⟨hbefore, rfl⟩ := List.append_eq_nil_iff.1 hpre.symm
        exact ⟨item :: before, r, after, [], right, rfl, hr, hstyle, by simp [hbefore, hitem], rfl⟩
      | cons g rest =>
        obtain ⟨rfl, rfl⟩ := List.cons_eq_cons.1 hrest
        cases item with
        | run r =>
          have hmem : Glyph.char c style ∈ r.exactGlyphs := by
            rw [← exactGlyphs_run, hitem]
            simp
          have hstyle : style = r.style := by
            rcases RunItem.exists_of_mem_glyphsOf hmem with ⟨d, hd⟩ | ⟨i, -, -, hi⟩
            · exact (Glyph.char.inj hd).2
            · cases hi
          exact ⟨[], r, items, pre, rest, rfl, hitem, hstyle, rfl, rfl⟩
        | _ =>
          have hmem : Glyph.char c style ∈ pre ++ .char c style :: rest := by simp
          rw [← hitem] at hmem
          cases List.mem_singleton.1 hmem

end Inline

/-! ## Splices -/

namespace Paragraph

theorem exactGlyphsOf_runUnlessEmpty (r : Run) :
    Inline.exactGlyphsOf (runUnlessEmpty r) = r.exactGlyphs := by
  rw [runUnlessEmpty]
  split
  · next h => rw [Run.exactGlyphs_eq_nil_of_isEmpty h, Inline.exactGlyphsOf_nil]
  · simp

theorem exactGlyphs_rendered (covered : Run) (rendering : Rendering) :
    (rendered covered rendering).exactGlyphs = rendering.glyphs covered.style := by
  cases rendering <;> rfl

variable {r first last : Run} {left piece head tail right : List Glyph} (rendering : Rendering)
  (before between after : List Inline)

/-- A splice in one run, where there is nothing that is no run. -/
theorem exists_splice_exact_within (hr : r.exactGlyphs = left ++ piece ++ right)
    (hpiece : Glyph.IsSpan piece) :
    ∃ spliced, splice? (before ++ .run r :: after)
        (StyledChar.width (Inline.styledCharsOf before) + Glyph.width left)
        (StyledChar.width (Inline.styledCharsOf before) + Glyph.width left + Glyph.width piece)
        rendering = some spliced ∧
      Inline.exactGlyphsOf spliced = Inline.exactGlyphsOf before ++ left ++
        rendering.glyphs r.style ++ piece.filter Glyph.isAnchor ++ right ++
          Inline.exactGlyphsOf after := by
  have hsplice : splice? (before ++ .run r :: after) _ _ _ = _ := splice?_within rendering
    (show r.styledChars = Glyph.styledChars r.style left ++ Glyph.styledChars r.style piece ++
      Glyph.styledChars r.style right by rw [Run.styledChars_eq_exact, hr]; simp)
    (Glyph.styledChars_ne_nil hpiece.charsOf_ne_nil)
  simp only [StyledChar.width_append, Glyph.width_styledChars] at hsplice
  rw [← Glyph.width_append] at hsplice
  obtain ⟨hfront, hafter⟩ := Run.exactGlyphs_splitAt .right hr nofun fun _ => hpiece.endsInText left
  obtain ⟨hbefore, -⟩ := Run.exactGlyphs_splitAt .left hfront (fun _ => hpiece.startsInText) nofun
  have hnone : piece.filter Glyph.isAnchor = [] := by
    have hall := r.filter_isAnchor_exactGlyphs
    rw [hr, List.filter_append, List.filter_append, List.append_eq_nil_iff,
      List.append_eq_nil_iff] at hall
    exact hall.1.2
  refine ⟨_, hsplice, ?_⟩
  simp only [Inline.exactGlyphsOf_append, Inline.exactGlyphsOf_cons, Inline.exactGlyphs_run,
    exactGlyphsOf_runUnlessEmpty, exactGlyphs_rendered, hbefore, hafter, hnone, List.append_assoc]
  rfl

/-- A splice across runs. What is in no run between them comes after the rendering. -/
theorem exists_splice_exact_across (hf : first.exactGlyphs = left ++ head)
    (hfirst : Glyph.StartsInText head) (hhead : Glyph.charsOf head ≠ [])
    (hl : last.exactGlyphs = tail ++ right) (hlast : Glyph.EndsInText tail)
    (htail : Glyph.charsOf tail ≠ []) :
    ∃ spliced, splice? (before ++ .run first :: (between ++ .run last :: after))
        (StyledChar.width (Inline.styledCharsOf before) + Glyph.width left)
        (StyledChar.width (Inline.styledCharsOf before) + Glyph.width left +
          (Glyph.width head + Glyph.width (Inline.exactGlyphsOf between) + Glyph.width tail))
        rendering = some spliced ∧
      Inline.exactGlyphsOf spliced = Inline.exactGlyphsOf before ++ left ++
        rendering.glyphs first.style ++ (Inline.exactGlyphsOf between).filter Glyph.isAnchor ++ right ++
          Inline.exactGlyphsOf after := by
  have hsplice : splice? (before ++ .run first :: (between ++ .run last :: after)) _ _ _ = _ :=
      splice?_across rendering
    (show first.styledChars = Glyph.styledChars first.style left ++
      Glyph.styledChars first.style head by rw [Run.styledChars_eq_exact, hf]; simp)
    (Glyph.styledChars_ne_nil hhead)
    (show last.styledChars = Glyph.styledChars last.style tail ++
      Glyph.styledChars last.style right by rw [Run.styledChars_eq_exact, hl]; simp)
    (Glyph.styledChars_ne_nil htail)
  simp only [StyledChar.width_append, Glyph.width_styledChars, ← Inline.width_exactGlyphsOf between]
    at hsplice
  obtain ⟨hbefore, -⟩ := Run.exactGlyphs_splitAt .left hf (fun _ => hfirst) nofun
  obtain ⟨-, hafter⟩ := Run.exactGlyphs_splitAt .right hl nofun fun _ => hlast
  refine ⟨_, hsplice, ?_⟩
  rw [Inline.filter_isAnchor_exactGlyphsOf, ← Inline.exactGlyphsOf_nonRunsOf, Inline.nonRunsOf]
  simp only [Inline.exactGlyphsOf_append, Inline.exactGlyphsOf_cons, Inline.exactGlyphs_run,
    exactGlyphsOf_runUnlessEmpty, exactGlyphs_rendered, hbefore, hafter, List.append_assoc]
  rfl

/-- A splice at a piece of the exact glyphs replaces it in the style of its first character,
    but for what is in no run, which comes after that. -/
theorem exists_splice_exact {items : List Inline} {pre post : List Glyph}
    (h : Inline.exactGlyphsOf items = pre ++ piece ++ post) (hpiece : Glyph.IsSpan piece) :
    ∃ spliced, splice? items (Glyph.width pre) (Glyph.width (pre ++ piece)) rendering =
        some spliced ∧
      Inline.exactGlyphsOf spliced = pre ++ rendering.glyphs (Glyph.styleOf piece) ++
        piece.filter Glyph.isAnchor ++ post := by
  obtain ⟨c, style, rest, rfl⟩ := hpiece.first
  rw [List.append_assoc, List.cons_append] at h
  obtain ⟨before, r, after, left, right, rfl, hr, rfl, rfl, hpost⟩ := Inline.exists_run_of_exact_char h
  have hwidth : Glyph.width (Inline.exactGlyphsOf before ++ left) =
      StyledChar.width (Inline.styledCharsOf before) + Glyph.width left := by
    rw [Glyph.width_append, Inline.width_exactGlyphsOf]
  have hstyleOf : Glyph.styleOf (.char c r.style :: rest) = r.style := rfl
  rw [Glyph.width_append _ (_ :: rest), hwidth, hstyleOf]
  rcases List.append_eq_append_iff.1 hpost with ⟨more, rfl, rfl⟩ | ⟨more, rfl, hmore⟩
  · -- The piece ends in the run where it starts.
    have hr' : r.exactGlyphs = left ++ (.char c r.style :: rest) ++ more := by simpa using hr
    simpa using exists_splice_exact_within rendering before after hr' hpiece
  · rcases List.eq_nil_or_concat more with rfl | ⟨more, g, rfl⟩
    · rw [List.append_nil] at hpiece ⊢
      have hr' : r.exactGlyphs = left ++ (.char c r.style :: right) ++ [] := by simpa using hr
      simpa [hmore] using exists_splice_exact_within rendering before after hr' hpiece
    · -- It ends in a later run.
      rw [List.concat_eq_append] at hmore hpiece ⊢
      obtain ⟨d, style', rfl⟩ : ∃ d style', g = .char d style' := by
        rw [← List.append_assoc, ← List.cons_append] at hpiece
        exact hpiece.exists_char_of_concat
      have hlater : Inline.exactGlyphsOf after = more ++ .char d style' :: post := by
        simpa using hmore
      obtain ⟨between, t, after, left', right', rfl, ht, rfl, rfl, rfl⟩ :=
        Inline.exists_run_of_exact_char hlater
      have htail : t.exactGlyphs = (left' ++ [.char d t.style]) ++ right' := by simpa using ht
      have hspliced := exists_splice_exact_across rendering before between after hr
        (fun g hg => by cases hg; rfl) (by simp [Glyph.char?]) htail
        (fun g hg => by rw [List.getLast?_concat] at hg; cases hg; rfl) (by simp [Glyph.char?])
      -- Of the piece, only what is between the two runs is in no run.
      have hanchors : (Glyph.char c r.style :: (right ++
          (Inline.exactGlyphsOf between ++ left' ++ [.char d t.style]))).filter Glyph.isAnchor =
            (Inline.exactGlyphsOf between).filter Glyph.isAnchor := by
        have hleft := r.filter_isAnchor_exactGlyphs
        have hright := t.filter_isAnchor_exactGlyphs
        rw [hr, List.filter_append, List.append_eq_nil_iff] at hleft
        rw [htail, List.filter_append, List.append_eq_nil_iff] at hright
        rw [List.append_assoc, ← List.cons_append, List.filter_append,
          List.filter_append, hleft.2, hright.1, List.append_nil, List.nil_append]
      have hwidth' : Glyph.width (.char c r.style :: (right ++
          (Inline.exactGlyphsOf between ++ left' ++ [.char d t.style]))) =
            Glyph.width (.char c r.style :: right) + Glyph.width (Inline.exactGlyphsOf between) +
              Glyph.width (left' ++ [.char d t.style]) := by
        rw [← List.cons_append]
        simp only [Glyph.width_append]
        omega
      rw [hwidth', hanchors]
      simpa using hspliced

end Paragraph

end DocTemplate
