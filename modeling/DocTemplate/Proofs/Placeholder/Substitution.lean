import DocTemplate.Proofs.Document.BrokenText
import DocTemplate.Proofs.Except
import DocTemplate.Proofs.Placeholder.Splice

/-!
# Filling a paragraph is a substitution

The placeholders of a paragraph are found once, in the text that the paragraph
has at first; they are then replaced from the left to the right, each in what the
replacements before it have left. `StyledChar.substitute` is what this should
amount to: every placeholder replaced on its own, in the text that was there at
first, and all else kept.

Between two replacements, the characters of the paragraph are those *done* and
the *rest*, which is still that of the first text, and the shift is how much
longer the done part is than what it was made of (`Filler.Progress.Keeps`).

* `Placeholder.occur_scan`: the placeholders of a text are pieces of it, in their
  order, and none of them is empty;
* `Filler.Progress.Keeps.step`: what one replacement does to the done part and to
  the rest;
* `Filler.fillParagraph_frame`: identity, formatting and the items that are no
  runs are those of the paragraph, with line breaks or without;
* `Filler.styledChars_fillParagraph`: the styled characters are those of the
  paragraph with all placeholders substituted.
-/

namespace DocTemplate

namespace StyledChar

/-- The characters before the byte offset `n`, and the others. -/
def cut (n : Nat) : List StyledChar → List StyledChar × List StyledChar
  | [] => ([], [])
  | c :: cs =>
    if c.1.utf8Size ≤ n then
      let (before, after) := cut (n - c.1.utf8Size) cs
      (c :: before, after)
    else
      ([], c :: cs)

theorem cut_width (as bs : List StyledChar) : cut (width as) (as ++ bs) = (as, bs) := by
  induction as with
  | nil =>
    cases bs with
    | nil => rfl
    | cons b bs => simp [cut, Nat.not_le.2 b.1.utf8Size_pos]
  | cons a as ih =>
    have hw : width (a :: as) - a.1.utf8Size = width as := by simp [width]
    have ha : a.1.utf8Size ≤ width (a :: as) := by simp [width]
    simp [cut, ha, hw, ih]

/-- The characters of a text that starts at `offset` with each of some
    placeholders replaced by its rendering, in the style of its first character,
    or kept if there is none. -/
def substitute (replace : Placeholder → Option Rendering) :
    (offset : Nat) → List Placeholder → List StyledChar → List StyledChar
  | _, [], cs => cs
  | offset, p :: ps, cs =>
    let (before, cs) := cut (p.start - offset) cs
    let (piece, cs) := cut (p.stop - p.start) cs
    let replaced := (replace p).elim piece (Rendering.styledChars (style piece))
    before ++ replaced ++ substitute replace p.stop ps cs

end StyledChar

namespace Placeholder

/-- The placeholders are pieces of the characters, which start at `offset`: in
    their order, apart from each other, and none of them empty. -/
inductive Occur : (offset : Nat) → List Placeholder → List StyledChar → Prop
  | nil {offset : Nat} {cs : List StyledChar} : Occur offset [] cs
  | cons {offset : Nat} {p : Placeholder} {ps : List Placeholder}
      {before piece after : List StyledChar} (hp : piece ≠ [])
      (hstart : p.start = offset + StyledChar.width before)
      (hstop : p.stop = p.start + StyledChar.width piece) (h : Occur p.stop ps after) :
      Occur offset (p :: ps) (before ++ piece ++ after)

/-- The scan of a text finds pieces of it. -/
theorem occur_scanFrom {opening closing : List Char} (hne : opening ≠ []) {offset : Nat}
    {text : List Char} {cs : List StyledChar} (hcs : cs.map Prod.fst = text) :
    Occur offset (Delimiters.scanFrom opening closing offset text) cs := by
  fun_induction Delimiters.scanFrom opening closing offset text generalizing cs with
  | case1 => exact .nil
  | case2 => exact .nil
  | case3 => exact .nil
  | case4 offset text before first rest hopen more after hclose inner raw start stop =>
    rename_i ih
    have htext : cs.map Prod.fst = before ++ raw ++ after := by
      rw [hcs, Text.find?_eq_append hopen, Text.find?_eq_append hclose]
      simp [raw, inner]
    obtain ⟨_, after', rfl, hfront, hafter⟩ := List.map_eq_append_iff.1 htext
    obtain ⟨before', piece, rfl, hbefore, hpiece⟩ := List.map_eq_append_iff.1 hfront
    refine .cons ?_ ?_ ?_ (ih hafter)
    · -- The opening delimiter alone is not empty.
      rintro rfl
      exact hne (List.append_eq_nil_iff.1 (List.append_eq_nil_iff.1 hpiece.symm).1).1
    · simp only [StyledChar.width, hbefore]
      rfl
    · simp only [StyledChar.width, hpiece]
      rfl

/-- The placeholders of a paragraph are pieces of its text. -/
theorem occur_scan (d : Delimiters) (p : Paragraph) : Occur 0 (d.scan p.text) p.styledChars := by
  have hne : d.opening.toList ≠ [] := fun hnil => d.opening_ne (String.toList_inj.1 hnil)
  exact occur_scanFrom hne p.map_styledChars

end Placeholder

theorem Rendering.width_styledChars (style : RunStyle) (r : Rendering) :
    StyledChar.width (r.styledChars style) = Text.width (RunItem.charsOf r.content) := by
  cases r <;> simp [styledChars, Run.styledChars, content, StyledChar.width, Function.comp_def]

/-! ## Line breaks -/

/-- Without a literal, there are no line breaks. -/
theorem Run.breakLines_of_no_literal {literal : Option String} (hl : ∀ l ∈ literal, l = "")
    (r : Run) : r.breakLines literal = r := by
  have hcontent : (r.breakLines literal).content = r.content := by
    simp only [breakLines]
    induction r.content with
    | nil => rfl
    | cons item items ih =>
      rw [List.flatMap_cons, ih]
      cases item <;> simp [RunItem.breakLines_of_no_literal hl]
  cases r
  simpa [breakLines] using hcontent

theorem Paragraph.mapRuns_breakLines {literal : Option String} (hl : ∀ l ∈ literal, l = "")
    (p : Paragraph) : p.mapRuns (Run.breakLines literal) = p := by
  have hitem : ∀ item, Inline.mapRun (Run.breakLines literal) item = item := by
    intro item
    cases item <;> simp [Inline.mapRun, Run.breakLines_of_no_literal hl]
  have hmap : Inline.mapRun (Run.breakLines literal) = fun item => item := funext hitem
  simp [mapRuns, hmap]

theorem Paragraph.nonRunsOf_mapRuns (p : Paragraph) (g : Run → Run) :
    Inline.nonRunsOf (p.mapRuns g).content = Inline.nonRunsOf p.content := by
  simp only [mapRuns]
  induction p.content with
  | nil => rfl
  | cons item items ih =>
    cases item <;> simpa [Inline.nonRunsOf, Inline.mapRun, Inline.isRun] using ih

/-! ## Fillings -/

namespace Filler

variable {f : Filler} {scope : Value}

variable (f scope) in
/-- What takes the place of a placeholder in a paragraph that is filled: nothing
    does if the settings keep it. -/
def rendering? (p : Placeholder) : Option Rendering :=
  match f.renderingOf scope p with
  | .ok rendering => some rendering
  | .error _ => f.recovery?.join

/-- The settings recover what can be recovered from, or they do not. -/
theorem recovery?_eq_none_iff : f.recovery? = none ↔ f.settings.recoversUnresolved = false := by
  rw [recovery?, Settings.recoversUnresolved]
  cases f.settings.leaveEmptyOnError <;> cases f.settings.replaceUnresolved <;>
    cases f.settings.failOnUnresolved <;> simp

theorem eq_rendering?_of_replacement {text : String} {p : Placeholder}
    {rendering : Option Rendering} {tally : Tally}
    (h : f.replacement scope text p = .ok (rendering, tally)) :
    rendering = f.rendering? scope p := by
  rw [replacement] at h
  rw [rendering?]
  cases hr : f.renderingOf scope p with
  | ok r =>
    rw [hr] at h
    cases h
    rfl
  | error e =>
    rw [hr] at h
    dsimp only at h
    split at h
    · next recovered hrec =>
      cases h
      split at hrec
      · rw [hrec]
        rfl
      · cases hrec
    · cases h

namespace Progress

/-- Of a text with some items, the characters up to `offset` are done, and the
    rest is still to come. -/
structure Keeps (items : List Inline) (done rest : List StyledChar) (offset : Nat)
    (state : Progress) : Prop where
  chars : Inline.styledCharsOf state.content = done ++ rest
  shift : offset + state.shift = StyledChar.width done
  nonRuns : Inline.nonRunsOf state.content = Inline.nonRunsOf items

variable {items : List Inline} {done before piece after : List StyledChar} {offset : Nat}
  {state state' : Progress} {p : Placeholder}

/-- A placeholder that is kept is done. -/
theorem Keeps.skip (h : state.Keeps items done (before ++ piece ++ after) offset)
    (hstart : p.start = offset + StyledChar.width before)
    (hstop : p.stop = p.start + StyledChar.width piece) :
    state.Keeps items (done ++ before ++ piece) after p.stop := by
  refine ⟨?_, ?_, h.nonRuns⟩
  · rw [h.chars]
    simp
  · have := h.shift
    simp
    omega

/-- A placeholder that is replaced is done, with its rendering. -/
theorem Keeps.splice (h : state.Keeps items done (before ++ piece ++ after) offset)
    (hp : piece ≠ []) (hstart : p.start = offset + StyledChar.width before)
    (hstop : p.stop = p.start + StyledChar.width piece) (rendering : Rendering) :
    (state.splice p rendering).Keeps items
      (done ++ before ++ rendering.styledChars (StyledChar.style piece)) after p.stop := by
  have hshift := h.shift
  have hcover : Covers state.content (done ++ before) piece after :=
    exists_cover (by rw [h.chars]; simp) hp
  obtain ⟨spliced, hspliced, hchars, hnonRuns⟩ := hcover.exists_splice hp rendering
  have hfirst : (p.start + state.shift).toNat = StyledChar.width (done ++ before) := by
    simp
    omega
  have hlast : (p.stop + state.shift).toNat = StyledChar.width (done ++ before ++ piece) := by
    simp
    omega
  simp only [Progress.splice, hfirst, hlast, hspliced]
  refine ⟨hchars, ?_, hnonRuns.trans h.nonRuns⟩
  simp [Rendering.width_styledChars]
  omega

/-- What one more placeholder does to the done part and to the rest. -/
theorem Keeps.step {text : String} (hs : f.step scope text state p = .ok state')
    (h : state.Keeps items done (before ++ piece ++ after) offset)
    (hp : piece ≠ []) (hstart : p.start = offset + StyledChar.width before)
    (hstop : p.stop = p.start + StyledChar.width piece) :
    state'.Keeps items
      (done ++ before ++
        (f.rendering? scope p).elim piece (Rendering.styledChars (StyledChar.style piece)))
      after p.stop := by
  rw [Filler.step] at hs
  obtain ⟨⟨rendering, tally⟩, hr, hs⟩ := Except.bind_eq_ok.1 hs
  obtain rfl := eq_rendering?_of_replacement hr
  cases hs
  have h' : ({ state with tally := state.tally.add tally } : Progress).Keeps items done
      (before ++ piece ++ after) offset := ⟨h.chars, h.shift, h.nonRuns⟩
  cases f.rendering? scope p with
  | none => exact h'.skip hstart hstop
  | some rendering => exact h'.splice hp hstart hstop rendering

/-- What all placeholders to come do to the characters. -/
theorem Keeps.foldlM {text : String} {ps : List Placeholder} {rest : List StyledChar}
    (hs : ps.foldlM (f.step scope text) state = .ok state')
    (hps : Placeholder.Occur offset ps rest) (h : state.Keeps items done rest offset) :
    Inline.styledCharsOf state'.content =
        done ++ StyledChar.substitute (f.rendering? scope) offset ps rest ∧
      Inline.nonRunsOf state'.content = Inline.nonRunsOf items := by
  induction hps generalizing state done with
  | nil =>
    cases hs
    exact ⟨h.chars, h.nonRuns⟩
  | @cons offset p ps before piece after hp hstart hstop hps ih =>
    rw [List.foldlM_cons] at hs
    obtain ⟨next, hstep, hs⟩ := Except.bind_eq_ok.1 hs
    obtain ⟨hchars, hnonRuns⟩ := ih hs (h.step hstep hp hstart hstop)
    refine ⟨hchars.trans ?_, hnonRuns⟩
    have hbefore : StyledChar.cut (p.start - offset) (before ++ (piece ++ after)) =
        (before, piece ++ after) := by
      rw [hstart, Nat.add_sub_cancel_left, StyledChar.cut_width]
    have hpiece : StyledChar.cut (p.stop - p.start) (piece ++ after) = (piece, after) := by
      rw [hstop, Nat.add_sub_cancel_left, StyledChar.cut_width]
    simp [StyledChar.substitute, hbefore, hpiece]

end Progress

/-! ## Paragraphs -/

variable {p q : Paragraph} {tally : Tally}

/-- The replacements keep what is not text, and substitute the placeholders. -/
theorem exists_progress (h : f.fillParagraph scope p = .ok (q, tally)) :
    ∃ content, q = ({ p with content }).mapRuns (Run.breakLines f.settings.lineBreak) ∧
      Inline.styledCharsOf content =
        StyledChar.substitute (f.rendering? scope) 0 (f.delimiters.scan p.text) p.styledChars ∧
      Inline.nonRunsOf content = Inline.nonRunsOf p.content := by
  rw [fillParagraph] at h
  obtain ⟨state, hs, h⟩ := Except.bind_eq_ok.1 h
  cases h
  have hps := Placeholder.occur_scan f.delimiters p
  have hstart : ({ content := p.content } : Progress).Keeps p.content [] p.styledChars 0 :=
    ⟨rfl, rfl, rfl⟩
  obtain ⟨hchars, hnonRuns⟩ := hstart.foldlM hs hps
  exact ⟨state.content, rfl, hchars, hnonRuns⟩

/-- Filling a paragraph changes its runs only. -/
theorem fillParagraph_frame (h : f.fillParagraph scope p = .ok (q, tally)) :
    q.id = p.id ∧ q.style = p.style ∧
      Inline.nonRunsOf q.content = Inline.nonRunsOf p.content := by
  obtain ⟨content, rfl, -, hnonRuns⟩ := exists_progress h
  exact ⟨rfl, rfl, (Paragraph.nonRunsOf_mapRuns _ _).trans hnonRuns⟩

/-- Without placeholders and without a literal for line breaks, it changes nothing. -/
theorem eq_of_fillParagraph (hl : ∀ l ∈ f.settings.lineBreak, l = "")
    (hscan : f.delimiters.scan p.text = []) (h : f.fillParagraph scope p = .ok (q, tally)) :
    q = p := by
  simp only [fillParagraph, hscan, List.foldlM_nil, pure_bind] at h
  cases h
  exact Paragraph.mapRuns_breakLines hl _

/-- Without a literal for line breaks, filling a paragraph replaces each of the
    placeholders of its text by the rendering of its value, in the style of its
    first character or in a style of the rendering, or keeps it; and it keeps
    every other character in its style. -/
theorem styledChars_fillParagraph (hl : ∀ l ∈ f.settings.lineBreak, l = "")
    (h : f.fillParagraph scope p = .ok (q, tally)) :
    q.styledChars =
      StyledChar.substitute (f.rendering? scope) 0 (f.delimiters.scan p.text) p.styledChars := by
  obtain ⟨content, rfl, hchars, -⟩ := exists_progress h
  rw [Paragraph.mapRuns_breakLines hl]
  exact hchars

/-! ### A salutation -/

/-- The filler with the standard delimiters and settings. -/
def standard : Filler where
  delimiters := .standard

/-- A name and a number, of which the name looks like a placeholder. -/
def salutationData : Value :=
  .ofEntries [("name", .string "$\x7bé\x7d"), ("count", .int 3)]

/-- A paragraph with a placeholder that starts in one run and ends in another,
    behind an anchor, and with a second one there. -/
def salutation : Paragraph where
  content :=
    [.run (.ofText "é $\x7bna" { italic := true }), .rangeStart 1,
      .run (.ofText "me\x7d, $\x7bcount\x7d!" { bold := true })]

/-- The salutation with the name in the style of the first run. -/
def filledSalutation : Paragraph where
  content :=
    [.run (.ofText "é " { italic := true }), .run (.ofText "$\x7bé\x7d" { italic := true }),
      .rangeStart 1, .run (.ofText ", " { bold := true }), .run (.ofText "3" { bold := true }),
      .run (.ofText "!" { bold := true })]

theorem styledChars_filledSalutation :
    (∀ l ∈ standard.settings.lineBreak, l = "") ∧
      standard.fillParagraph salutationData salutation = .ok (filledSalutation, ⟨2, 0⟩) ∧
      filledSalutation.styledChars =
        StyledChar.substitute (standard.rendering? salutationData) 0
          (standard.delimiters.scan salutation.text) salutation.styledChars := by
  have hl : ∀ l ∈ standard.settings.lineBreak, l = "" := by simp [standard]
  have h : standard.fillParagraph salutationData salutation = .ok (filledSalutation, ⟨2, 0⟩) :=
    Except.eq_ok_of_toOption (by decide +kernel)
  exact ⟨hl, h, styledChars_fillParagraph hl h⟩

end Filler

end DocTemplate
