import DocTemplate.Proofs.Placeholder.Scan
import DocTemplate.Proofs.Placeholder.Substitution

/-!
# Splices are within bounds

A splice looks up the runs at both ends of a placeholder and splits them there, by offsets that were
counted in the text as it was at first, and by a shift. If the shift were wrong, the offsets could be
negative, or outside of the text, or inside a character; then the placeholder would be left as it is, or
something else would be replaced.

None of this happens. Whenever a placeholder has its turn, the rest of the text is what it was at first
(`Filler.Progress.Pending`), and so the placeholder stands at its offset plus the shift. Both of its ends
are in runs, and these are split between characters (`Paragraph.Bounded`).

* `Covers.bounded`: the bounds of a splice of a piece of the text;
* `Filler.Progress.Pending.step`, `Filler.Progress.Pending.foldlM`: where the placeholders are that have
  not had their turn;
* `Filler.exists_splices`: every placeholder that gets a rendering is replaced by it, within bounds.
-/

namespace DocTemplate

/-! ## Bounds of a splice -/

/-- The byte offsets `start` and `stop` are in the text of some items, between characters: in one run, or
    in a run and a later one. All indices and offsets that a splice makes of them are within bounds. -/
inductive Paragraph.Bounded (content : List Inline) (start stop : Nat) : Prop
  | within {span : Span} {r : Run}
      (hfirst : (spansFrom 0 0 content).find? (fun s => s.contains start) = some span)
      (hlast : (spansFrom 0 0 content).find? (fun s => s.contains (stop - 1)) = some span)
      (hrun : content[span.index]? = some (.run r))
      (hstart : span.start ≤ start) (hstop : start < stop)
      (hright : Text.IsBoundary r.text (stop - span.start))
      (hleft : Text.IsBoundary (r.splitAt (stop - span.start) .right).1.text (start - span.start))
  | across {first last : Span} {head tail : Run}
      (hfirst : (spansFrom 0 0 content).find? (fun s => s.contains start) = some first)
      (hlast : (spansFrom 0 0 content).find? (fun s => s.contains (stop - 1)) = some last)
      (hindex : first.index < last.index)
      (hhead : content[first.index]? = some (.run head))
      (htail : content[last.index]? = some (.run tail))
      (hstart : first.start ≤ start) (hbetween : start < last.start) (hstop : last.start < stop)
      (hleft : Text.IsBoundary head.text (start - first.start))
      (hright : Text.IsBoundary tail.text (stop - last.start))

/-- Between two characters of a run is a boundary of its text. -/
theorem Run.isBoundary_of_styledChars {r : Run} {as bs : List StyledChar}
    (h : r.styledChars = as ++ bs) : Text.IsBoundary r.text (StyledChar.width as) := by
  refine ⟨String.ofList (as.map Prod.fst), String.ofList (bs.map Prod.fst), ?_, ?_⟩
  · have hchars : r.styledChars.map Prod.fst = RunItem.charsOf r.content := by
      simp [styledChars, Function.comp_def]
    rw [text, RunItem.textOf, ← hchars, h, List.map_append, String.ofList_append]
  · rw [Text.size, String.toList_ofList]
    rfl

/-- A piece of the text that is not empty has its ends within bounds. -/
theorem Covers.bounded {items : List Inline} {pre piece post : List StyledChar}
    (h : Covers items pre piece post) (hp : piece ≠ []) :
    Paragraph.Bounded items (StyledChar.width pre) (StyledChar.width (pre ++ piece)) := by
  have hpos := StyledChar.width_pos hp
  cases h with
  | @within before after r left piece right hr =>
    obtain ⟨hfirst, hlast⟩ := @Paragraph.find?_within before after r left piece right hr hp
    have hrun : (before ++ .run r :: after)[before.length]? = some (.run r) := by simp
    have hstop : StyledChar.width (Inline.styledCharsOf before ++ left ++ piece) -
        StyledChar.width (Inline.styledCharsOf before) = StyledChar.width (left ++ piece) := by
      simp
    have hstart : StyledChar.width (Inline.styledCharsOf before ++ left) -
        StyledChar.width (Inline.styledCharsOf before) = StyledChar.width left := by
      simp
    -- The run is split at the end of the piece, and then its left part at the start.
    refine .within hfirst hlast hrun (by simp) (by simp; omega) ?_ ?_
    · rw [hstop]
      exact Run.isBoundary_of_styledChars hr
    · rw [hstop, hstart]
      exact Run.isBoundary_of_styledChars (Run.styledChars_splitAt hr .right).1
  | @across before between after first last left head tail right hf hh hl ht =>
    obtain ⟨hfirst, hlast⟩ :=
      @Paragraph.find?_across before between after first last left head tail right hf hh hl ht
    have hhead : (before ++ .run first :: (between ++ .run last :: after))[before.length]? =
        some (.run first) := by
      simp
    have htail : (before ++ .run first :: (between ++ .run last :: after))[
        before.length + (between.length + 1)]? = some (.run last) := by
      simp
    have hposHead := StyledChar.width_pos hh
    have hposTail := StyledChar.width_pos ht
    refine .across hfirst hlast (by simp) hhead htail (by simp) ?_ ?_ ?_ ?_
    · simp [Inline.styledChars, hf]
      omega
    · simp [Inline.styledChars, hf]
      omega
    · simpa using Run.isBoundary_of_styledChars hf
    · rw [Paragraph.width_across_sub hf]
      exact Run.isBoundary_of_styledChars hl

/-! ## Placeholders that have not had their turn -/

namespace Filler

namespace Progress

/-- In the course of a filling of `p`, the characters `rest` are still those that come after the
    characters `front` of the paragraph, and the placeholders `ps` are in them. -/
structure Pending (p : Paragraph) (ps : List Placeholder) (front done rest : List StyledChar)
    (state : Progress) : Prop where
  chars : p.styledChars = front ++ rest
  occur : Placeholder.Occur (StyledChar.width front) ps rest
  keeps : state.Keeps p.content done rest (StyledChar.width front)

variable {f : Filler} {scope : Value} {p : Paragraph} {ph : Placeholder} {ps : List Placeholder}
  {front done rest : List StyledChar} {state state' : Progress}

/-- At first, this is so of all placeholders. -/
theorem pending_start (f : Filler) (p : Paragraph) :
    Pending p (f.delimiters.scan p.text) [] [] p.styledChars { content := p.content } :=
  ⟨rfl, Placeholder.occur_scan f.delimiters p, rfl, rfl, rfl⟩

/-- After the turn of a placeholder, it is so of the others. -/
theorem Pending.step (h : Pending p (ph :: ps) front done rest state)
    (hs : f.step scope p.text state ph = .ok state') :
    ∃ front' done' rest', Pending p ps front' done' rest' state' := by
  obtain ⟨hchars, hoccur, hkeeps⟩ := h
  cases hoccur with
  | @cons _ _ _ before piece after hp hstart hstop hlater =>
    have hwidth : StyledChar.width (front ++ before ++ piece) = ph.stop := by
      simp only [StyledChar.width_append]
      omega
    have hkeeps' := hkeeps.step hs hp hstart hstop
    rw [← hwidth] at hkeeps' hlater
    exact ⟨front ++ before ++ piece, _, after, by simp [hchars], hlater, hkeeps'⟩

/-- It is so of the later ones after all turns up to them. -/
theorem Pending.foldlM {before after : List Placeholder}
    (h : Pending p (before ++ after) front done rest state)
    (hs : before.foldlM (f.step scope p.text) state = .ok state') :
    ∃ front' done' rest', Pending p after front' done' rest' state' := by
  induction before generalizing front done rest state with
  | nil =>
    cases hs
    exact ⟨front, done, rest, h⟩
  | cons ph before ih =>
    rw [List.foldlM_cons] at hs
    obtain ⟨next, hstep, hs⟩ := Except.bind_eq_ok.1 hs
    obtain ⟨front', done', rest', h'⟩ := h.step hstep
    exact ih h' hs

end Progress

/-! ## Every splice is within bounds -/

/-- The placeholder gets its rendering when it has its turn: at its offsets, which are those at which it
    was found plus the shift, and within bounds. -/
structure Splices (f : Filler) (scope : Value) (p : Paragraph) (state : Progress) (ph : Placeholder)
    (rendering : Rendering) (tally : Tally) (start stop : Nat) : Prop where
  start_eq : (start : Int) = ph.start + state.shift
  stop_eq : (stop : Int) = ph.stop + state.shift
  bounded : Paragraph.Bounded state.content start stop
  /-- The placeholder is replaced, and so the text from there on moves by the difference. -/
  replaced : ∃ pre piece post spliced,
    Inline.styledCharsOf state.content = pre ++ piece ++ post ∧
    StyledChar.width pre = start ∧ piece.map Prod.fst = ph.raw.toList ∧
    Paragraph.splice? state.content start stop rendering = some spliced ∧
    Inline.styledCharsOf spliced =
      pre ++ rendering.styledChars (StyledChar.style piece) ++ post ∧
    f.step scope p.text state ph = .ok
      { content := spliced
        shift := state.shift + (Text.width (RunItem.charsOf rendering.content) - (stop - start : Int))
        tally := state.tally.add tally }

variable {f : Filler} {scope : Value} {p : Paragraph} {ph : Placeholder}
  {before after : List Placeholder} {state : Progress} {rendering : Rendering} {tally : Tally}

/-- The characters of a paragraph at the offsets of a placeholder are the placeholder. -/
theorem map_fst_eq_raw (hph : ph ∈ f.delimiters.scan p.text) {front piece after : List StyledChar}
    (hchars : p.styledChars = front ++ piece ++ after) (hstart : ph.start = StyledChar.width front)
    (hstop : ph.stop = ph.start + StyledChar.width piece) : piece.map Prod.fst = ph.raw.toList := by
  obtain ⟨before, inner, behind, -, htext, rfl⟩ :=
    (f.delimiters.greedy_scan p.text).exists_occurrence hph
  rw [← p.map_styledChars, hchars] at htext
  simp only [List.map_append, List.append_assoc] at htext
  simp only [Delimiters.placeholderAt, Nat.zero_add, StyledChar.width] at hstart hstop ⊢
  obtain ⟨-, hrest⟩ := Text.append_inj_of_width htext hstart.symm
  rw [String.toList_ofList]
  exact (Text.append_inj_of_width hrest (by omega)).1

/-- Whenever a placeholder with a rendering has its turn, whatever the renderings before it were, it is
    replaced by its rendering, and the splice that does it is within bounds. -/
theorem exists_splices (hscan : f.delimiters.scan p.text = before ++ ph :: after)
    (hrun : before.foldlM (f.step scope p.text) { content := p.content } = .ok state)
    (hrendering : f.replacement scope p.text ph = .ok (some rendering, tally)) :
    ∃ start stop, f.Splices scope p state ph rendering tally start stop := by
  have hpending := Progress.pending_start f p
  rw [hscan] at hpending
  obtain ⟨front, done, rest, hchars, hoccur, hkeeps⟩ := hpending.foldlM hrun
  cases hoccur with
  | @cons _ _ _ clear piece behind hp hstart hstop hlater =>
    -- The first characters of the rest are `clear`, and then comes the placeholder. So it stands behind
    -- what is done and `clear`, which is where the shift puts it.
    have hshift := hkeeps.shift
    have hcontent : Inline.styledCharsOf state.content = done ++ clear ++ piece ++ behind := by
      rw [hkeeps.chars]
      simp
    have hcover := exists_cover hcontent hp
    obtain ⟨spliced, hspliced, hresult, -⟩ := hcover.exists_splice hp rendering
    have hfirst : (StyledChar.width (done ++ clear) : Int) = ph.start + state.shift := by
      rw [StyledChar.width_append]
      omega
    have hlast : (StyledChar.width (done ++ clear ++ piece) : Int) = ph.stop + state.shift := by
      rw [StyledChar.width_append, hstop]
      omega
    refine ⟨_, _, hfirst, hlast, hcover.bounded hp, done ++ clear, piece, behind, spliced, hcontent,
      rfl, ?_, hspliced, hresult, ?_⟩
    · -- The piece is not changed, so it still has the characters of the placeholder.
      have hph : ph ∈ f.delimiters.scan p.text := by simp [hscan]
      have hpiece : p.styledChars = (front ++ clear) ++ piece ++ behind := by simp [hchars]
      have hfront : ph.start = StyledChar.width (front ++ clear) := by
        rw [hstart, StyledChar.width_append]
      exact map_fst_eq_raw hph hpiece hfront hstop
    · have hfirst' : (ph.start + state.shift).toNat = StyledChar.width (done ++ clear) := by omega
      have hlast' : (ph.stop + state.shift).toNat = StyledChar.width (done ++ clear ++ piece) := by
        omega
      have hstep : f.step scope p.text state ph =
          .ok (({ state with tally := state.tally.add tally } : Progress).splice ph rendering) := by
        rw [step, hrendering]
        rfl
      rw [hstep, Progress.splice]
      simp only [hfirst', hlast', hspliced]

/-- The salutation with the name filled in, before the number has its turn. -/
def namedSalutation : Progress where
  content :=
    [.run (.ofText "é " { italic := true }), .run (.ofText "$\x7bé\x7d" { italic := true }),
      .rangeStart 1, .run (.ofText ", $\x7bcount\x7d!" { bold := true })]
  shift := -2
  tally := ⟨1, 0⟩

/-- The second placeholder has moved, since the name is shorter than the first one. -/
theorem exists_splices_namedSalutation :
    standard.delimiters.scan salutation.text =
        [⟨"$\x7bname\x7d", "name", 3, 10⟩] ++ ⟨"$\x7bcount\x7d", "count", 12, 20⟩ :: [] ∧
      [⟨"$\x7bname\x7d", "name", 3, 10⟩].foldlM (standard.step salutationData salutation.text)
        { content := salutation.content } = .ok namedSalutation ∧
      standard.replacement salutationData salutation.text ⟨"$\x7bcount\x7d", "count", 12, 20⟩ =
        .ok (some (.ofText "3"), ⟨1, 0⟩) ∧
      ∃ start stop, standard.Splices salutationData salutation namedSalutation
        ⟨"$\x7bcount\x7d", "count", 12, 20⟩ (.ofText "3") ⟨1, 0⟩ start stop := by
  have hscan : standard.delimiters.scan salutation.text =
      [⟨"$\x7bname\x7d", "name", 3, 10⟩] ++ ⟨"$\x7bcount\x7d", "count", 12, 20⟩ :: [] := by
    decide +kernel
  have hrun : [⟨"$\x7bname\x7d", "name", 3, 10⟩].foldlM (standard.step salutationData salutation.text)
      { content := salutation.content } = .ok namedSalutation :=
    Except.eq_ok_of_toOption (by decide +kernel)
  have hrendering : standard.replacement salutationData salutation.text
      ⟨"$\x7bcount\x7d", "count", 12, 20⟩ = .ok (some (.ofText "3"), ⟨1, 0⟩) :=
    Except.eq_ok_of_toOption (by decide +kernel)
  exact ⟨hscan, hrun, hrendering, exists_splices hscan hrun hrendering⟩

end Filler

end DocTemplate
