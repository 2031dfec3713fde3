import DocTemplate.Proofs.Document.LineBreak

/-!
# Line breaks in filled paragraphs

When all placeholders of a paragraph are replaced (`Filler.progress`), line breaks are put in for
the literal of the settings, in each text by itself. So an occurrence that is spread over several
texts of a run is left, and this is the only thing that is not as it should be.

* `Filler.fillParagraph_eq`: the two steps of a filling;
* `Filler.breaks_lines_iff`: when all occurrences of the literal become line breaks;
* `Filler.literal_left_address`: one that does not.
-/

namespace DocTemplate

namespace Filler

variable {f : Filler} {scope : Value} {p q : Paragraph} {tally : Tally} {literal : String}

/-- The filling of a paragraph when all its placeholders are replaced, before line breaks are put
    in. -/
def progress (f : Filler) (scope : Value) (p : Paragraph) : Except Error Progress :=
  (f.delimiters.scan p.text).foldlM (f.step scope p.text) { content := p.content }

theorem fillParagraph_eq : f.fillParagraph scope p = (f.progress scope p).map fun state =>
    (({ p with content := state.content }).mapRuns (Run.breakLines f.settings.lineBreak),
      state.tally) := by
  rw [fillParagraph, progress]
  cases (f.delimiters.scan p.text).foldlM (f.step scope p.text) { content := p.content } <;> rfl

/-- In a paragraph that is filled, all occurrences of the literal became line breaks, whether they
    were in the paragraph or in what took the place of a placeholder, exactly if none is spread
    over several texts of a run. In any case nothing is left of it in a text by itself; and a value
    that is a text has its line breaks from the start. -/
theorem breaks_lines_iff (hl : f.settings.lineBreak = some literal) (hne : literal ≠ "")
    (h : f.fillParagraph scope p = .ok (q, tally)) :
    ∃ state, f.progress scope p = .ok state ∧ q = { p with content := q.content } ∧
      (Inline.AllBroken literal state.content q.content ↔
        ∀ r, .run r ∈ state.content → ¬ r.Spreads literal) ∧
      (∀ r, .run r ∈ q.content → ∀ s, .text s ∈ r.content → ¬ RunItem.HasLiteral literal [.text s]) ∧
      ∀ raw s, ∃ content, Renderer.string.render f.settings raw (.string s) = .ok (.items content) ∧
        ∀ style, Glyph.Breaks style literal ((RunItem.text s).glyphs style)
          (RunItem.glyphsOf style content) := by
  rw [fillParagraph_eq] at h
  cases hstate : f.progress scope p with
  | error e =>
    rw [hstate] at h
    cases h
  | ok state =>
    rw [hstate] at h
    cases h
    rw [hl]
    refine ⟨state, rfl, rfl, Inline.allBroken_iff hne state.content, ?_, fun raw s => ?_⟩
    · intro r hr s hs
      obtain ⟨item, -, hitem⟩ := List.mem_map.1 hr
      cases item with
      | run r' =>
        cases hitem
        exact Run.not_hasLiteral_text hne hs
      | _ => cases hitem
    · refine ⟨RunItem.breakLines f.settings.lineBreak s, rfl, fun style => ?_⟩
      have hbreaks := RunItem.breaks_breakLines style f.settings.lineBreak s
      rwa [hl] at hbreaks ⊢

/-! ### A label -/

/-- A filler with a literal for line breaks. -/
def breaking : Filler where
  delimiters := .standard
  settings := { lineBreak := some "<br>" }

/-- A street of two lines. -/
def labelData : Value :=
  .ofEntries [("street", .string "Flat 2<br>1 High Street")]

/-- A label with a placeholder across runs, and with the literal in a run, after a tab. -/
def label : Paragraph where
  content :=
    [.run (.ofText "$\x7bstr" { bold := true }), .rangeStart 1,
      .run ⟨[.text "eet\x7d<br>", .tab, .text "York<br><br>"], {}⟩]

/-- The label, filled. -/
def filledLabel : Paragraph where
  content :=
    [.run ⟨[.text "Flat 2", .lineBreak, .text "1 High Street"], { bold := true }⟩, .rangeStart 1,
      .run ⟨[.lineBreak, .tab, .text "York", .lineBreak, .lineBreak], {}⟩]

theorem breaks_lines_label :
    breaking.settings.lineBreak = some "<br>" ∧ "<br>" ≠ "" ∧
      breaking.fillParagraph labelData label = .ok (filledLabel, ⟨1, 0⟩) ∧
      ∃ state, breaking.progress labelData label = .ok state ∧
        filledLabel = { label with content := filledLabel.content } ∧
        (Inline.AllBroken "<br>" state.content filledLabel.content ↔
          ∀ r, .run r ∈ state.content → ¬ r.Spreads "<br>") ∧
        (∀ r, .run r ∈ filledLabel.content → ∀ s, .text s ∈ r.content →
          ¬ RunItem.HasLiteral "<br>" [.text s]) ∧
        ∀ raw s, ∃ content,
          Renderer.string.render breaking.settings raw (.string s) = .ok (.items content) ∧
          ∀ style, Glyph.Breaks style "<br>" ((RunItem.text s).glyphs style)
            (RunItem.glyphsOf style content) := by
  have h : breaking.fillParagraph labelData label = .ok (filledLabel, ⟨1, 0⟩) :=
    Except.eq_ok_of_toOption (by decide +kernel)
  exact ⟨rfl, by decide, h, breaks_lines_iff rfl (by decide) h⟩

/-- An address in two texts of one run, which come one after the other. -/
def address : Paragraph where
  content := [.run ⟨[.text "Rome<b", .text "r>Italy"], {}⟩]

/-- The literal is in the two texts together, and is left there. -/
theorem literal_left_address :
    breaking.settings.lineBreak = some "<br>" ∧
      breaking.fillParagraph .null address = .ok (address, {}) ∧
      ∃ r, .run r ∈ address.content ∧ RunItem.HasLiteral "<br>" r.content := by
  refine ⟨rfl, Except.eq_ok_of_toOption (by decide +kernel), _, List.mem_singleton_self _,
    ["Rome<b", "r>Italy"], List.infix_refl _, "Rome".toList, "Italy".toList, ?_⟩
  decide +kernel

end Filler

end DocTemplate
