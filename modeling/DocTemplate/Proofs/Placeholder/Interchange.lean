import DocTemplate.Proofs.Document.Relation
import DocTemplate.Proofs.Placeholder.Blocks
import DocTemplate.Proofs.Placeholder.Glyph

/-!
# Filling interchangeable paragraphs

A filling does not see how the text of a paragraph is spread over runs, if no anchor of a
comment is strictly inside a placeholder (`Paragraph.Undivided`): each placeholder is a piece
of the glyphs then, and its replacement is one of that piece.

* `Placeholder.occurIn_scan`: the placeholders of an undivided paragraph are pieces of its
  glyphs;
* `Filler.Progress.Tracks.agree_foldlM`: two fillings that have come equally far in the glyphs
  do the same from there on;
* `Filler.agree_fillParagraph_of_interchangeable`: fillings of interchangeable paragraphs have
  the same outcome;
* `Filler.agree_fillBlocks_of_interchangeable`: and so have those of blocks with such
  paragraphs.
-/

namespace DocTemplate

/-! ## Placeholders -/

namespace Paragraph

/-- The byte offsets in the text of some items at which there is an anchor. -/
def anchorOffsetsFrom (offset : Nat) : List Inline → List Nat
  | [] => []
  | item :: items =>
    let rest := anchorOffsetsFrom (offset + item.size) items
    if item.commentId?.isSome then offset :: rest else rest

/-- The byte offsets in the text of the paragraph at which there is an anchor. -/
def anchorOffsets (p : Paragraph) : List Nat :=
  anchorOffsetsFrom 0 p.content

/-- No anchor is strictly inside a placeholder. -/
def Undivided (d : Delimiters) (p : Paragraph) : Prop :=
  ∀ n ∈ p.anchorOffsets, ∀ ph ∈ d.scan p.text, n ≤ ph.start ∨ ph.stop ≤ n

instance (d : Delimiters) (p : Paragraph) : Decidable (p.Undivided d) :=
  inferInstanceAs (Decidable (∀ n ∈ p.anchorOffsets, ∀ ph ∈ d.scan p.text, _ ∨ _))

theorem mem_anchorOffsetsFrom {a : Inline} (ha : a.commentId?.isSome) (before after : List Inline)
    (offset : Nat) :
    offset + Text.width (before.flatMap Inline.chars) ∈
      anchorOffsetsFrom offset (before ++ a :: after) := by
  induction before generalizing offset with
  | nil => simp [anchorOffsetsFrom, ha]
  | cons item before ih =>
    have hmem := ih (offset + item.size)
    rw [Inline.size, Nat.add_assoc, ← Text.width_append] at hmem
    rw [List.cons_append, anchorOffsetsFrom]
    split
    · exact List.mem_cons_of_mem _ hmem
    · exact hmem

theorem exists_of_mem_anchorOffsetsFrom {items : List Inline} {offset n : Nat}
    (h : n ∈ anchorOffsetsFrom offset items) :
    ∃ before a after, items = before ++ a :: after ∧ a.commentId?.isSome ∧
      n = offset + Text.width (before.flatMap Inline.chars) := by
  induction items generalizing offset with
  | nil => cases h
  | cons item items ih =>
    have hlater : n ∈ anchorOffsetsFrom (offset + item.size) items →
        ∃ before a after, item :: items = before ++ a :: after ∧ a.commentId?.isSome ∧
          n = offset + Text.width (before.flatMap Inline.chars) := by
      intro hn
      obtain ⟨before, a, after, rfl, ha, rfl⟩ := ih hn
      refine ⟨item :: before, a, after, rfl, ha, ?_⟩
      rw [List.flatMap_cons, Text.width_append, Inline.size, Nat.add_assoc]
    rw [anchorOffsetsFrom] at h
    split at h
    · next ha =>
      rcases List.mem_cons.1 h with rfl | h
      · exact ⟨[], item, items, rfl, ha, rfl⟩
      · exact hlater h
    · exact hlater h

variable {d : Delimiters} {p q : Paragraph}

/-- Without anchors, no placeholder is divided. -/
theorem undivided_of_anchors (h : p.anchors = []) : p.Undivided d := by
  intro n hn
  obtain ⟨before, a, after, hcontent, ha, -⟩ := exists_of_mem_anchorOffsetsFrom hn
  have hmem : a ∈ p.anchors := List.mem_filter.2 ⟨by simp [hcontent], ha⟩
  rw [h] at hmem
  cases hmem

/-- Interchangeable paragraphs have the same placeholders, and anchors at the same places. -/
theorem Interchangeable.undivided (h : p.Interchangeable q) (hp : p.Undivided d) :
    q.Undivided d := by
  intro n hn
  obtain ⟨before, a, after, hcontent, ha, rfl⟩ := exists_of_mem_anchorOffsetsFrom hn
  have hglyphs : Inline.headedGlyphsOf false q.content = p.headedGlyphs := h.headedGlyphs
  rw [hcontent, Inline.headedGlyphsOf_append, Inline.headedGlyphsOf_anchor ha]
    at hglyphs
  obtain ⟨before', after', hcontent', -, hbefore, -⟩ := Inline.exists_item_of_anchor hglyphs.symm
  rw [h.text, ← Inline.charsOf_headedGlyphsOf false, hbefore, Inline.charsOf_headedGlyphsOf]
  refine hp _ ?_
  rw [anchorOffsets, hcontent']
  exact mem_anchorOffsetsFrom ha before' after' 0

end Paragraph

namespace Placeholder

/-- The placeholders are pieces of the glyphs, the text of which starts at `offset`: in their
    order, and apart from each other. -/
inductive OccurIn : (offset : Nat) → List Placeholder → List Glyph → Prop
  | nil {offset : Nat} {gs : List Glyph} : OccurIn offset [] gs
  | cons {offset : Nat} {p : Placeholder} {ps : List Placeholder}
      {before piece after : List Glyph} (hpiece : Glyph.IsPiece piece)
      (hstart : p.start = offset + Glyph.width before)
      (hstop : p.stop = p.start + Glyph.width piece) (h : OccurIn p.stop ps after) :
      OccurIn offset (p :: ps) (before ++ piece ++ after)

variable {gs : List Glyph} {offset : Nat} {ps : List Placeholder}

/-- What is a piece of the text is one of the glyphs, if no anchor is inside. -/
theorem Occur.occurIn {cs : List StyledChar} (h : Occur offset ps cs)
    (hcs : Glyph.charsOf gs = cs.map Prod.fst)
    (hanchors : ∀ before a after, gs = before ++ .anchor a :: after → ∀ p ∈ ps,
      offset + Glyph.width before ≤ p.start ∨ p.stop ≤ offset + Glyph.width before) :
    OccurIn offset ps gs := by
  induction h generalizing gs with
  | nil => exact .nil
  | @cons offset p ps before piece after hp hstart hstop _ ih =>
    rw [List.map_append, List.map_append] at hcs
    obtain ⟨front, mid, back, rfl, hfront, hmid, hback, hspan⟩ :=
      Glyph.exists_isSpan_of_charsOf hcs (by simpa using hp)
    have hbefore := Glyph.width_eq_of_charsOf hfront
    have hpiece := Glyph.width_eq_of_charsOf hmid
    refine .cons ⟨hspan, fun a ha => ?_⟩ (by rw [hbefore, hstart]) (by rw [hpiece, hstop])
      (ih hback fun before' a after' hafter q hq => ?_)
    · -- An anchor between the first and the last character would be strictly inside.
      obtain ⟨left, right, rfl⟩ := List.append_of_mem ha
      have hinside := hanchors (front ++ left) a (right ++ back) (by simp) p List.mem_cons_self
      obtain ⟨hleft, hright⟩ := hspan.width_pos_around rfl
      have hnone : Glyph.width [.anchor a] = 0 := rfl
      rw [Glyph.width_append, hbefore] at hinside
      rw [Glyph.width_append, Glyph.width_cons, hnone] at hpiece
      omega
    · have hoffset := hanchors (front ++ mid ++ before') a after' (by simp [hafter]) q
        (List.mem_cons_of_mem _ hq)
      rw [Glyph.width_append, Glyph.width_append, hbefore, hpiece] at hoffset
      rw [hstop, hstart]
      simpa [Nat.add_assoc] using hoffset

/-- The placeholders of an undivided paragraph are pieces of its glyphs. -/
theorem occurIn_scan {d : Delimiters} {p : Paragraph} (h : p.Undivided d) :
    OccurIn 0 (d.scan p.text) p.headedGlyphs := by
  refine (occur_scan d p).occurIn ?_ fun before a after hglyphs ph hph => ?_
  · rw [p.map_styledChars, Paragraph.toList_text]
    exact Inline.charsOf_headedGlyphsOf false p.content
  · obtain ⟨front, back, hcontent, ha, rfl, -⟩ := Inline.exists_item_of_anchor hglyphs
    have hmem := Paragraph.mem_anchorOffsetsFrom ha front back 0
    rw [← hcontent] at hmem
    rw [Glyph.width, Inline.charsOf_headedGlyphsOf]
    exact h _ hmem ph hph

end Placeholder

/-! ## Settings -/

/-- The settings with other choices of what is done before a filling. -/
def Settings.withCleanup (mergeRuns stripLanguage : Bool) (s : Settings) : Settings :=
  { s with mergeRuns, stripLanguage }

namespace Renderer

variable {settings : Settings} {raw : String} {v : Value}

/-- What comes of a value with the built-in renderers: a text, with line breaks for the literal
    if the value is one; or the error that a pattern cannot write a date, or that nothing renders
    tabular data. -/
theorem cases_renderBy_builtin (settings : Settings) (raw : String) (v : Value) :
    (∃ s, renderBy builtin settings raw v = .ok (.ofText s)) ∨
      (∃ s, renderBy builtin settings raw v =
        .ok (.items (RunItem.breakLines settings.lineBreak s))) ∨
      (v.kind ≠ .table ∧
        renderBy builtin settings raw v = .error (.evaluation raw (.badPattern v.kind))) ∨
      (v.kind = .table ∧ renderBy builtin settings raw v = .error (.noRenderer raw .table)) := by
  have hwritten : ∀ written : Option String,
      (∃ s, written.elim (.error (.evaluation raw (.badPattern v.kind))) (fun s =>
          .ok (.ofText s)) = (.ok (.ofText s) : Except Error Rendering)) ∨
        written.elim (.error (.evaluation raw (.badPattern v.kind))) (fun s =>
          .ok (.ofText s)) = (.error (.evaluation raw (.badPattern v.kind)) : Except Error Rendering) := by
    rintro (_ | s)
    · exact .inr rfl
    · exact .inl ⟨s, rfl⟩
  cases v with
  | table g => exact .inr (.inr (.inr ⟨rfl, rfl⟩))
  | string s => exact .inr (.inl ⟨s, rfl⟩)
  | date d => exact (hwritten _).imp_right fun h => .inr (.inl ⟨by simp [Value.kind], h⟩)
  | dateTime dt => exact (hwritten _).imp_right fun h => .inr (.inl ⟨by simp [Value.kind], h⟩)
  | _ => exact .inl ⟨_, rfl⟩

/-- The built-in renderers give items in the style of the placeholder. -/
theorem exists_of_renderBy_builtin {rendering : Rendering}
    (h : renderBy builtin settings raw v = .ok rendering) :
    ∃ content, rendering = .items content := by
  rcases cases_renderBy_builtin settings raw v with ⟨s, hs⟩ | ⟨s, hs⟩ | ⟨-, hs⟩ | ⟨-, hs⟩ <;>
    cases hs.symm.trans h <;> exact ⟨_, rfl⟩

theorem renderBy_withCleanup (mergeRuns stripLanguage : Bool) :
    renderBy builtin (settings.withCleanup mergeRuns stripLanguage) raw v =
      renderBy builtin settings raw v := by
  rw [renderBy, renderBy]
  split
  · next r hr =>
    have hmem := List.mem_of_find?_eq_some hr
    simp only [builtin, List.mem_cons, List.not_mem_nil, or_false] at hmem
    rcases hmem with rfl | rfl | rfl | rfl <;> rfl
  · rfl

end Renderer

/-! ## Fillings -/

namespace Filler

/-- The filler with other choices of what is done before a filling. -/
def withCleanup (mergeRuns stripLanguage : Bool) (f : Filler) : Filler :=
  { f with settings := f.settings.withCleanup mergeRuns stripLanguage }

variable {f : Filler} {scope : Value} {mergeRuns stripLanguage : Bool} {text : String}
  {p : Placeholder}

theorem replacement_withCleanup (hf : f.renderers = Renderer.builtin) :
    (f.withCleanup mergeRuns stripLanguage).replacement scope text p =
      f.replacement scope text p := by
  have hrendering : (f.withCleanup mergeRuns stripLanguage).renderingOf scope p =
      f.renderingOf scope p := by
    simp only [renderingOf, withCleanup, hf, Renderer.renderBy_withCleanup]
  rw [replacement, replacement, hrendering]
  rfl

/-- What takes the place of a placeholder are items in its style. -/
theorem exists_of_replacement (hf : f.renderers = Renderer.builtin) {rendering : Rendering}
    {tally : Tally} (h : f.replacement scope text p = .ok (some rendering, tally)) :
    ∃ content, rendering = .items content := by
  have h := eq_rendering?_of_replacement h
  rw [rendering?] at h
  split at h
  · next r hr =>
    cases h
    obtain ⟨v, -, hr⟩ := Except.bind_eq_ok.1 hr
    rw [hf] at hr
    exact Renderer.exists_of_renderBy_builtin hr
  · rw [recovery?] at h
    split at h
    · cases h
      exact ⟨_, rfl⟩
    · split at h
      · cases h
        exact ⟨_, rfl⟩
      · split at h <;> cases h

namespace Progress

variable {done before piece after rest : List Glyph} {offset : Nat} {state state' : Progress}

/-- A placeholder that is replaced is done, in the style of its first character. -/
theorem Tracks.splice_items
    (h : state.Tracks (Inline.headedGlyphsOf false) done (before ++ piece ++ after) offset)
    (hpiece : Glyph.IsPiece piece) (hstart : p.start = offset + Glyph.width before)
    (hstop : p.stop = p.start + Glyph.width piece) (content : List RunItem) :
    (state.splice p (.items content)).Tracks (Inline.headedGlyphsOf false)
      (done ++ before ++ RunItem.glyphsOf (Glyph.styleOf piece) content) after p.stop :=
  h.splice hstart hstop (fun hglyphs => Paragraph.exists_splice_of_isPiece content hglyphs hpiece)
    (RunItem.charsOf_glyphsOf content)

theorem tally_splice (state : Progress) (p : Placeholder) (rendering : Rendering) :
    (state.splice p rendering).tally = state.tally := by
  rw [splice]
  split <;> rfl

/-- Two fillings that have come equally far do the same from there on. -/
theorem Tracks.agree_foldlM (hf : f.renderers = Renderer.builtin) {ps : List Placeholder}
    (hps : Placeholder.OccurIn offset ps rest)
    (h : state.Tracks (Inline.headedGlyphsOf false) done rest offset)
    (h' : state'.Tracks (Inline.headedGlyphsOf false) done rest offset)
    (htally : state'.tally = state.tally) :
    Except.Agree (fun a b => Inline.headedGlyphsOf false b.content =
        Inline.headedGlyphsOf false a.content ∧ b.tally = a.tally)
      (ps.foldlM (f.step scope text) state)
      (ps.foldlM ((f.withCleanup mergeRuns stripLanguage).step scope text) state') := by
  induction hps generalizing state state' done with
  | nil => exact .ok ⟨h'.glyphs.trans h.glyphs.symm, htally⟩
  | @cons offset p ps before piece after hpiece hstart hstop _ ih =>
    rw [List.foldlM_cons, List.foldlM_cons, step, step, replacement_withCleanup hf]
    cases hr : f.replacement scope text p with
    | error e => exact .error e
    | ok outcome =>
      obtain ⟨rendering, tally⟩ := outcome
      have hnext : ∀ {s : Progress},
          s.Tracks (Inline.headedGlyphsOf false) done (before ++ piece ++ after) offset →
          ({ s with tally := s.tally.add tally } : Progress).Tracks (Inline.headedGlyphsOf false) done
            (before ++ piece ++ after) offset := fun hs => ⟨hs.glyphs, hs.shift⟩
      have htally' : state'.tally.add tally = state.tally.add tally := by rw [htally]
      cases rendering with
      | none =>
        exact ih ((hnext h).skip hstart hstop) ((hnext h').skip hstart hstop) htally'
      | some rendering =>
        obtain ⟨content, rfl⟩ := exists_of_replacement hf hr
        refine ih ((hnext h).splice_items hpiece hstart hstop content)
          ((hnext h').splice_items hpiece hstart hstop content) ?_
        dsimp only [Option.elim_some]
        rw [tally_splice, tally_splice]
        exact htally'

end Progress

variable {q r : Paragraph}

/-- Fillings of interchangeable paragraphs have the same outcome, if no anchor is strictly
    inside a placeholder and no literal stands for line breaks. -/
theorem agree_fillParagraph_of_interchangeable (hf : f.renderers = Renderer.builtin)
    (hl : ∀ l ∈ f.settings.lineBreak, l = "") (hq : q.Undivided f.delimiters)
    (h : q.Interchangeable r) :
    Except.Agree (fun a b => a.1.Interchangeable b.1 ∧ b.2 = a.2) (f.fillParagraph scope q)
      ((f.withCleanup mergeRuns stripLanguage).fillParagraph scope r) := by
  have hstart : ({ content := q.content } : Progress).Tracks (Inline.headedGlyphsOf false) []
      q.headedGlyphs 0 := ⟨rfl, rfl⟩
  have hstart' : ({ content := r.content } : Progress).Tracks (Inline.headedGlyphsOf false) []
      q.headedGlyphs 0 := ⟨h.headedGlyphs, rfl⟩
  rw [fillParagraph, fillParagraph, h.text]
  refine (hstart.agree_foldlM hf (Placeholder.occurIn_scan hq) hstart' rfl).bind
    fun a b hab => .ok ⟨?_, hab.2⟩
  have hl' : ∀ l ∈ (f.withCleanup mergeRuns stripLanguage).settings.lineBreak, l = "" := hl
  dsimp only
  rw [Paragraph.mapRuns_breakLines hl, Paragraph.mapRuns_breakLines hl']
  exact ⟨h.id, h.style, hab.1⟩

/-- Fillings of blocks with such paragraphs have the same outcome. -/
theorem agree_fillBlocks_of_interchangeable (hf : f.renderers = Renderer.builtin)
    (hl : ∀ l ∈ f.settings.lineBreak, l = "") {bs bs' : List Block}
    (h : List.Forall₂ (Block.Related Eq fun p q => p.Undivided f.delimiters ∧ p.Interchangeable q)
      bs bs') :
    Except.Agree (fun a b => List.Forall₂ (Block.Related Eq Paragraph.Interchangeable) a.1 b.1 ∧
        b.2 = a.2)
      (f.fillBlocks scope bs) ((f.withCleanup mergeRuns stripLanguage).fillBlocks scope bs') := by
  refine (Simulation.lockstep (ε := Error) (fun s t : Tally => t = s)).walkAll
    (fun _ _ p q _ hpq tally _ htally => ?_) h {} {} rfl
  subst htally
  rw [run_visit, run_visit]
  exact (agree_fillParagraph_of_interchangeable hf hl hpq.1 hpq.2).map fun _ _ h =>
    ⟨h.1, congrArg (Tally.add _) h.2⟩

end Filler

end DocTemplate
