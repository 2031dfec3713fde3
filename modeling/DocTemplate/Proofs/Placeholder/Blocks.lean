import DocTemplate.Proofs.Document.Descent
import DocTemplate.Proofs.Document.Walk
import DocTemplate.Proofs.Placeholder.Substitution

/-!
# Filling blocks

Filling the placeholders of some blocks keeps their nodes, and all of a paragraph
but its runs (`Paragraph.Refilled`). It depends on the values of the placeholders in
the texts of these paragraphs, and on no others (`Filler.Alike`).

* `Filler.forall₂_fillParagraph`, `Filler.forall₂_fillBlocks`: node by node, what filling
  makes of blocks;
* `Filler.fillBlocks_congr`: two fillers make the same of blocks if they render the
  placeholders in their texts alike.
-/

namespace DocTemplate

/-- What filling may make of a paragraph: other runs, and nothing else. -/
def Paragraph.Refilled (p q : Paragraph) : Prop :=
  q.id = p.id ∧ q.style = p.style ∧ Inline.nonRunsOf q.content = Inline.nonRunsOf p.content

namespace Filler

variable {f g : Filler} {scope : Value}

theorem run_visit (around : List CellPosition) (p : Paragraph) (t : Tally) :
    (f.visit scope around p).run t =
      (f.fillParagraph scope p).map fun (q, tally) => (q, t.add tally) := by
  rw [visit]
  cases f.fillParagraph scope p <;> rfl

/-- Node by node, the paragraphs of some blocks are filled. -/
theorem forall₂_fillParagraph {blocks blocks' : List Block} {tally : Tally}
    (h : f.fillBlocks scope blocks = .ok (blocks', tally)) :
    List.Forall₂ (Placed.Becomes fun _ p q => ∃ tally, f.fillParagraph scope p = .ok (q, tally))
      (Block.outlineOf blocks []) (Block.outlineOf blocks' []) := by
  have hrun : ((Block.outlineOf blocks []).mapM (Placed.visit (f.visit scope))).run {} =
      .ok (Block.outlineOf blocks' [], tally) := by
    rw [← Block.outlineOf_walkAll, StateT.run_map]
    rw [fillBlocks] at h
    rw [h]
    rfl
  refine (StateT.forall₂_of_run_mapM hrun).imp ?_
  rintro ⟨p | id | id, around⟩ e' ⟨s, s', he⟩
  · obtain ⟨q, s₁, hq, he⟩ := StateT.run_bind_eq_ok.1 he
    obtain ⟨rfl, -⟩ := StateT.run_pure_eq_ok.1 he
    rw [run_visit, Except.map_eq_ok] at hq
    obtain ⟨⟨q', tally'⟩, hq, he⟩ := hq
    obtain ⟨rfl, -⟩ := Prod.mk.inj he
    exact .paragraph (fillParagraph_frame hq).1 ⟨tally', hq⟩
  · obtain ⟨rfl, -⟩ := StateT.run_pure_eq_ok.1 he
    exact .table
  · obtain ⟨rfl, -⟩ := StateT.run_pure_eq_ok.1 he
    exact .row

/-- Node by node, what filling makes of some blocks. -/
theorem forall₂_fillBlocks {blocks blocks' : List Block} {tally : Tally}
    (h : f.fillBlocks scope blocks = .ok (blocks', tally)) :
    List.Forall₂ (Placed.Becomes fun _ => Paragraph.Refilled)
      (Block.outlineOf blocks []) (Block.outlineOf blocks' []) :=
  (forall₂_fillParagraph h).imp fun _ _ hbecomes =>
    hbecomes.imp fun _ _ _ ⟨_, hfill⟩ => fillParagraph_frame hfill

theorem ids_fillBlocks {blocks blocks' : List Block} {tally : Tally}
    (h : f.fillBlocks scope blocks = .ok (blocks', tally)) :
    blocks'.flatMap Block.ids = blocks.flatMap Block.ids := by
  rw [← Block.map_id_outlineOf _ [], ← Block.map_id_outlineOf _ []]
  exact Placed.Becomes.map_id_eq (forall₂_fillBlocks h)

theorem length_fillBlocks {blocks blocks' : List Block} {tally : Tally}
    (h : f.fillBlocks scope blocks = .ok (blocks', tally)) : blocks'.length = blocks.length :=
  (StateT.forall₂_of_run_mapM h).length_eq.symm

/-! ## Failures -/

/-- A paragraph cannot be filled only if a placeholder in it has no value. -/
theorem exists_of_fillParagraph_eq_error {p : Paragraph} {error : Error}
    (h : f.fillParagraph scope p = .error error) :
    ∃ raw source, error = .unresolved raw p.text source := by
  rw [fillParagraph] at h
  rcases Except.bind_eq_error.1 h with h | ⟨state, -, h⟩
  · obtain ⟨ph, -, state, h⟩ := Except.exists_of_foldlM_eq_error h
    rcases Except.bind_eq_error.1 h with h | ⟨_, -, h⟩
    · rw [replacement] at h
      split at h
      · cases h
      · split at h
        · cases h
        · cases h
          exact ⟨_, _, rfl⟩
    · cases h
  · cases h

/-- Blocks cannot be filled only if a placeholder in them has no value. -/
theorem exists_of_fillBlocks_eq_error {blocks : List Block} {error : Error}
    (h : f.fillBlocks scope blocks = .error error) :
    ∃ raw text source, error = .unresolved raw text source := by
  have hrun : ((Block.outlineOf blocks []).mapM (Placed.visit (f.visit scope))).run {} =
      .error error := by
    rw [← Block.outlineOf_walkAll, StateT.run_map]
    rw [fillBlocks] at h
    rw [h]
    rfl
  obtain ⟨⟨p | id | id, around⟩, -, s, h⟩ := StateT.exists_of_run_mapM_eq_error hrun
  · rcases StateT.run_bind_eq_error.1 h with h | ⟨_, _, -, h⟩
    · rw [run_visit, Except.map_eq_error] at h
      obtain ⟨raw, source, rfl⟩ := exists_of_fillParagraph_eq_error h
      exact ⟨raw, _, source, rfl⟩
    · cases h
  · cases h
  · cases h

/-! ## What a filling depends on -/

/-- Two fillers have the same settings, and render alike the placeholders in some
    texts, those that `evaluated` holds of in a scope. -/
structure Alike (f g : Filler) (evaluated : Value → String → Prop) : Prop where
  delimiters : g.delimiters = f.delimiters
  settings : g.settings = f.settings
  renderingOf {scope : Value} {text : String} (h : evaluated scope text) :
    ∀ p ∈ f.delimiters.scan text, g.renderingOf scope p = f.renderingOf scope p

variable {evaluated : Value → String → Prop}

theorem replacement_congr (hs : g.settings = f.settings) {p : Placeholder}
    (h : g.renderingOf scope p = f.renderingOf scope p) (text : String) :
    g.replacement scope text p = f.replacement scope text p := by
  simp only [replacement, h, recovery?, hs]

theorem fillParagraph_congr (h : f.Alike g evaluated) {p : Paragraph}
    (hp : evaluated scope p.text) : g.fillParagraph scope p = f.fillParagraph scope p := by
  have hsteps : ∀ (ps : List Placeholder) (state : Progress),
      (∀ ph ∈ ps, g.renderingOf scope ph = f.renderingOf scope ph) →
      ps.foldlM (g.step scope p.text) state = ps.foldlM (f.step scope p.text) state := by
    intro ps
    induction ps with
    | nil => exact fun _ _ => rfl
    | cons ph ps ih =>
      intro state hps
      have hstep : g.step scope p.text state ph = f.step scope p.text state ph := by
        simp only [step, replacement_congr h.settings (hps ph List.mem_cons_self)]
      rw [List.foldlM_cons, List.foldlM_cons, hstep]
      congr 1
      funext state'
      exact ih state' fun ph hph => hps ph (List.mem_cons_of_mem _ hph)
  simp only [fillParagraph, h.delimiters, h.settings, hsteps _ _ (h.renderingOf hp)]

theorem fillBlocks_congr (h : f.Alike g evaluated) {blocks : List Block}
    (hp : ∀ p ∈ Block.paragraphsOf blocks, evaluated scope p.text) :
    g.fillBlocks scope blocks = f.fillBlocks scope blocks := by
  have hwalk : Block.walkAll (g.visit scope) blocks = Block.walkAll (f.visit scope) blocks := by
    refine Block.walkAll_congr fun around p hmem => ?_
    have hmem : p ∈ Block.paragraphsOf blocks := by
      rw [Block.paragraphsOf_eq_outline _ []]
      exact List.mem_filterMap.2 ⟨_, hmem, rfl⟩
    simp only [visit, fillParagraph_congr h (hp p hmem)]
  rw [fillBlocks, fillBlocks, hwalk]

end Filler

end DocTemplate
