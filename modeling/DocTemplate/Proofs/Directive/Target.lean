import DocTemplate.Proofs.Directive.Descent

/-!
# The tables of instructions

What an edit about a table does by the table that its instruction names at the time:
none, one that is gone, or one that is there.

* `TableFill.run_perform_of_none`: without a table it does nothing, or fails;
* `TableFill.run_perform_of_gone`: with a table that is gone it does nothing;
* `TableFill.exists_of_fails`: with any table it fails over the shape of data at most.
-/

namespace DocTemplate

/-- The instruction of an edit about a table. -/
def Edit.tableInstruction? : Edit → Option Instruction
  | fillTable i _ | dropTable i => some i
  | _ => none

namespace TableFill

variable {f : Filler} {edit : Edit} {i : Instruction} {d : Draft} {table : NodeId}

/-- The table of an instruction, and what happens without one. -/
theorem run_target (i : Instruction) (d : Draft) :
    (target i).run d =
      (match target? d.document i.site with
        | some table => .ok (some table)
        | none =>
          if i.site.cell = none ∧ d.document.locate? i.site.paragraph = none then .ok none
          else .error (i.misplaced .noTable), d) := by
  rw [target]
  rw [Revision.run_bind]
  change ((match target? d.document i.site with
    | some table => return some table
    | none =>
      if i.site.cell.isNone ∧ (d.document.locate? i.site.paragraph).isNone then return none
      else throw (i.misplaced .noTable)) : Revision (Option NodeId)).run d = _
  simp only [Option.isNone_iff_eq_none]
  split
  · rfl
  · split <;> rfl

theorem run_target_of_some (h : target? d.document i.site = some table) :
    (target i).run d = (.ok (some table), d) := by
  rw [run_target, h]

/-- Without a table, the edit does nothing or fails. -/
theorem run_perform_of_none (hi : edit.tableInstruction? = some i)
    (h : target? d.document i.site = none) :
    (perform f edit).run d =
      (if i.site.cell = none ∧ d.document.locate? i.site.paragraph = none then .ok ()
        else .error (i.misplaced .noTable), d) := by
  have hrun := run_target i d
  rw [h] at hrun
  by_cases hgone : i.site.cell = none ∧ d.document.locate? i.site.paragraph = none
  · rw [if_pos hgone] at hrun ⊢
    cases edit <;> simp only [Edit.tableInstruction?, Option.some.injEq, reduceCtorEq] at hi <;>
      (subst hi; rw [perform, Revision.run_bind, hrun]; rfl)
  · rw [if_neg hgone] at hrun ⊢
    cases edit <;> simp only [Edit.tableInstruction?, Option.some.injEq, reduceCtorEq] at hi <;>
      (subst hi; rw [perform, Revision.run_bind, hrun])

/-- With a table that is gone, the edit does nothing. -/
theorem run_perform_of_gone (hi : edit.tableInstruction? = some i)
    (h : target? d.document i.site = some table) (hgone : d.document.locate? table = none) :
    (perform f edit).run d = (.ok (), d) := by
  cases edit with
  | fillTable j data =>
    obtain rfl := Option.some.inj hi
    have htable : d.document.table? table = none := by simp [Document.table?, Document.node?, hgone]
    refine Revision.yields_bind.2 ⟨some table, d, run_target_of_some h, ?_⟩
    refine Revision.yields_bind.2 ⟨_, d, Revision.yields_document.2 ⟨rfl, rfl⟩, ?_⟩
    rw [htable]
    exact Revision.yields_pure.2 ⟨rfl, rfl⟩
  | dropTable j =>
    obtain rfl := Option.some.inj hi
    refine Revision.yields_bind.2 ⟨some table, d, run_target_of_some h, ?_⟩
    refine Revision.yields_bind.2 ⟨none, d, Revision.yields_edit?.2 (.inr ⟨?_, rfl, rfl⟩), ?_⟩
    · exact Document.removeBlock?_eq_none_iff.2 hgone
    · exact Revision.yields_pure.2 ⟨rfl, rfl⟩
  | _ => cases hi

/-- A filling fails over the shape of its data at most. -/
theorem exists_of_fails_fill {settings : Settings} {data : Grid} {layout : TableLayout}
    {error : Error} (hfails : (fill settings data table layout).Fails d error) :
    ∃ columns cells, error = .badShape columns cells := by
  rw [fill] at hfails
  dsimp only at hfails
  split at hfails
  · cases hfails
    exact ⟨_, _, rfl⟩
  · refine absurd hfails ?_
    refine Revision.not_fails_bind ?_ fun records d₁ => ?_
    · exact Revision.not_fails_mapM (fun _ _ => Revision.not_fails_edit) _ d
    · refine Revision.not_fails_bind Revision.not_fails_edit? fun filled d₂ => ?_
      split
      · exact Revision.not_fails_count
      · exact Revision.not_fails_pure

/-- With any table, the edit fails over the shape of its data at most. -/
theorem exists_of_fails (hi : edit.tableInstruction? = some i)
    (h : target? d.document i.site = some table) {error : Error}
    (hfails : (perform f edit).Fails d error) :
    ∃ columns cells, error = .badShape columns cells := by
  have htarget : ∀ {o d₁}, (target i).Yields d o d₁ → o = some table ∧ d₁ = d := by
    intro o d₁ ho
    obtain ⟨rfl, rfl⟩ := yields_target ho
    exact ⟨h, rfl⟩
  -- The table is there, so what can fail is the filling itself.
  have hnot : ¬ (target i).Fails d error := by
    rw [Revision.Fails, run_target_of_some h]
    intro hfails
    cases hfails
  cases edit with
  | fillTable j data =>
    obtain rfl := Option.some.inj hi
    rcases Revision.fails_bind.1 hfails with hfirst | ⟨o, d₁, ho, hrest⟩
    · exact absurd hfirst hnot
    · obtain ⟨rfl, rfl⟩ := htarget ho
      rcases Revision.fails_bind.1 hrest with hdoc | ⟨doc, d₂, -, hfill⟩
      · cases hdoc
      · dsimp only at hfill
        split at hfill
        · exact exists_of_fails_fill hfill
        · exact absurd hfill Revision.not_fails_pure
  | dropTable j =>
    obtain rfl := Option.some.inj hi
    rcases Revision.fails_bind.1 hfails with hfirst | ⟨o, d₁, ho, hdrop⟩
    · exact absurd hfirst hnot
    · obtain ⟨rfl, rfl⟩ := htarget ho
      refine absurd hdrop (Revision.not_fails_bind Revision.not_fails_edit? fun removed d₂ => ?_)
      split
      · exact Revision.not_fails_count
      · exact Revision.not_fails_pure
  | _ => cases hi

end TableFill

end DocTemplate
