import DocTemplate.Proofs.Directive.Move
import DocTemplate.Proofs.Directive.Target

/-!
# Why directives fail

A comment that cannot be interpreted is at fault itself; a directive may fail over its
argument, or over its place. Only the handler of a directive finds fault with its place, so
the error names a directive of that handler (`Error.misplaced?`).

* `Registry.misplaced?_of_interpret`: the interpretation of a comment;
* `Desks.misplaced?_of_dispatch`: its dispatch, which finds no fault with a repetition;
* `Move.exists_of_fails`: the moves that can fail.
-/

namespace DocTemplate

/-- The directive that does not fit its place, if the error says so. -/
def Error.misplaced? : Error → Option String
  | .misplaced directive _ _ => some directive
  | _ => none

/-! ## Interpretation -/

section Interpret

variable {registry : Registry} {settings : Settings} {comment : String} {error : Error}

theorem Call.misplaced?_of_parseAll (h : parseAll comment = .error error) :
    error.misplaced? = none := by
  rw [parseAll] at h
  split at h
  · cases h
  · split at h
    · cases h
      rfl
    · obtain ⟨expr, -, h⟩ := Except.exists_of_mapM_eq_error h
      rw [ofExpr] at h
      split at h <;> cases h
      rfl

namespace Registry

theorem misplaced?_of_fault? {call : Call} (h : registry.fault? comment call = some error) :
    error.misplaced? = none := by
  simp only [fault?] at h
  split at h
  · cases h
    rfl
  · split at h <;> cases h
    rfl

theorem misplaced?_of_calls (h : registry.calls comment = .error error) :
    error.misplaced? = none := by
  rw [calls] at h
  rcases Except.bind_eq_error.1 h with h | ⟨calls, -, h⟩
  · exact Call.misplaced?_of_parseAll h
  · split at h
    · next hfault =>
      cases h
      obtain ⟨call, -, hfault⟩ := List.exists_of_findSome?_eq_some hfault
      exact misplaced?_of_fault? hfault
    · cases h

/-- The interpretation of a comment finds no fault with its place. -/
theorem misplaced?_of_interpret (h : registry.interpret settings comment = .error error) :
    error.misplaced? = none := by
  rw [interpret] at h
  split at h
  · cases h
  · next hcalls =>
    split at h <;> cases h
    exact misplaced?_of_calls hcalls

end Registry

end Interpret

/-! ## Dispatch -/

section Accept

variable {settings : Settings} {handler : Handler} {i : Instruction} {error : Error}

theorem Display.misplaced?_of_condition (h : condition i = .error error) :
    error.misplaced? = none := by
  rw [condition] at h
  split at h <;> cases h
  rfl

theorem Display.misplaced?_of_cell {otherwise : Misplacement}
    (h : cell i otherwise = .error error) : error.misplaced? = some i.name.toString := by
  rw [cell] at h
  cases hcell : i.site.cell with
  | none =>
    rw [hcell] at h
    cases h
    rfl
  | some position =>
    rw [hcell] at h
    cases h

theorem Display.misplaced?_of_accept (h : accept settings i = .error error) :
    ∀ name ∈ error.misplaced?, name = i.name.toString := by
  have hcondition : ∀ {edit : Bool → Option Edit},
      (condition i >>= fun b => (pure (edit b) : Except Error (Option Edit))) = .error error →
        ∀ name ∈ error.misplaced?, name = i.name.toString := by
    intro edit h
    rcases Except.bind_eq_error.1 h with h | ⟨b, -, h⟩
    · simp [misplaced?_of_condition h]
    · cases h
  have hcell : ∀ {otherwise : Misplacement} {edit : CellPosition → Bool → Option Edit},
      (cell i otherwise >>= fun position => condition i >>= fun b =>
        (pure (edit position b) : Except Error (Option Edit))) = .error error →
          ∀ name ∈ error.misplaced?, name = i.name.toString := by
    intro otherwise edit h
    rcases Except.bind_eq_error.1 h with h | ⟨position, -, h⟩
    · simp [misplaced?_of_cell h]
    · exact hcondition h
  rw [accept] at h
  split at h
  · exact hcondition h
  · cases h
  · exact hcell h
  · exact hcell h
  · cases h

theorem Repetition.misplaced?_of_accept (h : accept settings i = .error error) :
    error.misplaced? = none := by
  rw [accept] at h
  split at h <;> cases h
  rfl

theorem WordReplacement.misplaced?_of_accept (h : accept settings i = .error error) :
    ∀ name ∈ error.misplaced?, name = i.name.toString := by
  rw [accept] at h
  split at h
  · rcases Except.bind_eq_error.1 h with h | ⟨text, -, h⟩
    · rw [replacement] at h
      split at h <;> cases h
      all_goals simp [Error.misplaced?, Instruction.badArgument]
    · cases h
  · split at h <;> cases h
    simp [Error.misplaced?, Instruction.misplaced]

theorem TableFill.misplaced?_of_accept (h : accept settings i = .error error) :
    error.misplaced? = none := by
  rw [accept] at h
  split at h
  · split at h <;> cases h
    rfl
  · cases h
  · cases h
    rfl

/-- No other built-in handler has the directive to repeat. -/
theorem Registry.eq_repetition (hh : handler ∈ builtin.handlers)
    (hname : handler.names.contains "repeatParagraph") : handler = .repetition := by
  rcases mem_builtin.1 hh with rfl | rfl | rfl | rfl
  · cases hname
  · rfl
  · cases hname
  · cases hname

/-- What a built-in handler does not accept is no misplaced repetition. -/
theorem Registry.misplaced?_of_accept (hh : handler ∈ builtin.handlers)
    (hname : handler.names.contains i.name.toString)
    (h : handler.accept settings i = .error error) :
    error.misplaced? ≠ some "repeatParagraph" := by
  intro herror
  have hdirective : ∀ name ∈ error.misplaced?, name = i.name.toString := by
    rcases mem_builtin.1 hh with rfl | rfl | rfl | rfl
    · exact Display.misplaced?_of_accept (show Display.accept settings i = _ from h)
    · simp [Repetition.misplaced?_of_accept (show Repetition.accept settings i = _ from h)]
    · exact WordReplacement.misplaced?_of_accept h
    · simp [TableFill.misplaced?_of_accept h]
  rw [← hdirective _ herror] at hname
  obtain rfl := eq_repetition hh hname
  rw [Repetition.misplaced?_of_accept (show Repetition.accept settings i = _ from h)] at herror
  cases herror

end Accept

/-- The values of the arguments of a comment are missing if it has no instructions. -/
theorem Call.misplaced?_of_instructions {env : Environment} {settings : Settings} {scope : Value}
    {site : Site} {calls : List Call} {error : Error}
    (h : instructions env settings scope site calls = .error error) : error.misplaced? = none := by
  induction calls with
  | nil => cases h
  | cons call calls ih =>
    rw [instructions] at h
    split at h
    · rcases Except.bind_eq_error.1 h with h | ⟨rest, -, h⟩
      · exact ih h
      · cases h
    · split at h <;> cases h
      rfl

namespace Desks

variable {settings : Settings} {i : Instruction} {error : Error} {d : Desks}

/-- An instruction is not accepted by the handler that has its name, or nobody has. -/
theorem exists_of_acceptAt?_eq_error {name : String} {desks : List Desk}
    (h : acceptAt? settings i name desks = some (.error error)) :
    ∃ desk ∈ desks, desk.handler.names.contains name ∧
      desk.handler.accept settings i = .error error := by
  induction desks with
  | nil => cases h
  | cons desk desks ih =>
    rw [acceptAt?] at h
    split at h
    · next hname =>
      refine ⟨desk, List.mem_cons_self, hname, ?_⟩
      rcases Except.bind_eq_error.1 (Except.map_eq_error.1 (Option.some.inj h)) with h | ⟨_, -, h⟩
      · exact h
      · cases h
    · obtain ⟨outcome, houtcome, h⟩ := Option.map_eq_some_iff.1 h
      rw [Except.map_eq_error] at h
      subst h
      obtain ⟨desk', hdesk, haccept⟩ := ih houtcome
      exact ⟨desk', List.mem_cons_of_mem _ hdesk, haccept⟩

/-- Handing over instructions to the built-in handlers finds no fault with a repetition. -/
theorem misplaced?_of_foldlM_accept {is : List Instruction}
    (hd : d.desks.map Desk.handler = Registry.builtin.handlers)
    (h : is.foldlM (accept settings) d = .error error) :
    error.misplaced? ≠ some "repeatParagraph" := by
  induction is generalizing d with
  | nil => cases h
  | cons i is ih =>
    rw [List.foldlM_cons] at h
    rcases Except.bind_eq_error.1 h with h | ⟨next, hnext, h⟩
    · rw [accept] at h
      split at h
      · next outcome houtcome =>
        rw [Except.map_eq_error] at h
        subst h
        obtain ⟨desk, hdesk, hname, haccept⟩ := exists_of_acceptAt?_eq_error houtcome
        refine Registry.misplaced?_of_accept ?_ hname haccept
        rw [← hd]
        exact List.mem_map_of_mem hdesk
      · cases h
        simp [Error.misplaced?]
    · exact ih ((map_handler_accept hnext).trans hd) h

/-- And neither does the dispatch of a comment. -/
theorem misplaced?_of_dispatch {env : Environment} {scope : Value} {site : Site}
    {calls : List Call} (hd : d.desks.map Desk.handler = Registry.builtin.handlers)
    (h : d.dispatch env settings scope site calls = .error error) :
    error.misplaced? ≠ some "repeatParagraph" := by
  rw [dispatch] at h
  rcases Except.bind_eq_error.1 h with h | ⟨is, -, h⟩
  · simp [Call.misplaced?_of_instructions h]
  · cases is with
    | none => cases h
    | some is =>
      rcases Except.bind_eq_error.1 h with h | ⟨desks, -, h⟩
      · exact misplaced?_of_foldlM_accept hd h
      · cases h

/-- An edit goes back to an instruction with the directive to repeat only if it is a
    repetition. -/
theorem Traces.exists_repetition {given : Instruction → Prop}
    (h : d.Traces settings Registry.builtin.handlers given) {m : Move} (hm : m ∈ d.moves)
    {i : Instruction} (hi : m.edit.instruction? = some i)
    (hname : i.name.toString = "repeatParagraph") :
    ∃ items, m.edit = .repeatBlocks i items := by
  obtain ⟨handler, j, hget, -, hcontains, haccept⟩ := h.exists_of_mem_moves hm
  have hhandler : handler ∈ Registry.builtin.handlers := List.mem_of_getElem? hget
  obtain rfl := (Registry.spec_of_accept hhandler haccept).1 i hi
  rw [hname] at hcontains
  rw [Registry.eq_repetition hhandler hcontains] at haccept
  obtain ⟨items, heq⟩ := Repetition.exists_of_accept
    (show Repetition.accept settings i = _ from haccept)
  exact ⟨items, Option.some.inj heq⟩

end Desks

/-! ## Moves -/

namespace Revision

/-- A sequence of steps that fails does so at one of them. -/
theorem exists_reaches_of_fails {α : Type} {step : α → Revision Unit} {as : List α} {d : Draft}
    {error : Error} (h : (as.forM step).Fails d error) :
    ∃ a d₁, Reaches step as d a d₁ ∧ (step a).Fails d₁ error := by
  induction as generalizing d with
  | nil => exact absurd h not_fails_pure
  | cons a as ih =>
    have h : (step a >>= fun _ => as.forM step).Fails d error := h
    rcases fails_bind.1 h with h | ⟨_, d₁, ha, h⟩
    · exact ⟨a, d, ⟨[], as, rfl, yields_forM_nil.2 rfl⟩, h⟩
    · obtain ⟨b, d₂, hb, hfails⟩ := ih h
      exact ⟨b, d₂, (reaches_cons_iff ha).2 (.inr hb), hfails⟩

/-- An edit that is made if it can be, and is counted then, does not fail. -/
theorem not_fails_edit?_count {α : Type} {f : Document → Option (α × Document)}
    {report : Report → Report} {d : Draft} {error : Error} :
    ¬ Fails (do
      if (← edit? f).isSome then
        count report) d error := by
  refine not_fails_bind not_fails_edit? fun o d₁ => ?_
  split
  · exact not_fails_count
  · exact not_fails_pure

end Revision

/-- A move that fails is a repetition, or is about a table. -/
theorem Move.exists_of_fails {f : Filler} {m : Move} {d : Draft} {error : Error}
    (h : (m.perform f).Fails d error) :
    (∃ i items, m = ⟨.repetitions, .repeatBlocks i items⟩) ∨
      ∃ i, m.pass = .fills ∧ m.edit.tableInstruction? = some i := by
  obtain ⟨pass, edit⟩ := m
  cases pass with
  | paragraphs => cases edit <;> first | exact absurd h Revision.not_fails_edit?_count | cases h
  | rows => cases edit <;> first | exact absurd h Revision.not_fails_edit?_count | cases h
  | tables => cases edit <;> first | exact absurd h Revision.not_fails_edit?_count | cases h
  | words => cases edit <;> first | exact absurd h Revision.not_fails_edit?_count | cases h
  | repetitions =>
    cases edit with
    | repeatBlocks i items => exact .inl ⟨i, items, rfl⟩
    | _ => cases h
  | fills =>
    cases edit with
    | fillTable i data => exact .inr ⟨i, rfl, rfl⟩
    | dropTable i => exact .inr ⟨i, rfl, rfl⟩
    | _ => cases h

/-- An edit about a table finds fault with the place of its own instruction. -/
theorem TableFill.misplaced?_of_fails {f : Filler} {edit : Edit} {i : Instruction} {d : Draft}
    {error : Error} (hi : edit.tableInstruction? = some i) (h : (perform f edit).Fails d error) :
    ∀ name ∈ error.misplaced?, name = i.name.toString := by
  cases htarget : target? d.document i.site with
  | none =>
    rw [Revision.Fails, run_perform_of_none hi htarget] at h
    split at h <;> cases h
    simp [Error.misplaced?, Instruction.misplaced]
  | some table =>
    obtain ⟨columns, cells, rfl⟩ := exists_of_fails hi htarget h
    simp [Error.misplaced?]

end DocTemplate
