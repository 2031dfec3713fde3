import DocTemplate.Proofs.Engine.Residue

/-!
# Recovery is conservative

A strict engine fails at the first expression without a value, and at the first comment that
is not understood. If it fills a document all the same, there was nothing to recover from,
and an engine that would recover makes the same document and the same report.

For settings about recovery are read only where a strict engine is about to fail:

* `Filler.replacement_withRecovery`: when a placeholder has no value;
* `Registry.interpret_withRecovery`: when a comment is not understood;
* `Call.instructions_withRecovery`: when an argument has no value;
* `Registry.isConservative_of_mem_builtin`: when an instruction is refused.

So each step does what it does under strict settings if it succeeds there, and the same
holds of the steps one after the other:

* `Filler.fillBlocks_withRecovery`, `Plan.ofDocument_withRecovery`,
  `Desks.dispatch_withRecovery`: blocks, plans and dispatches;
* `Engine.conservative_visit`: the visit;
* `Engine.fill_withRecovery`: all of it.
-/

namespace DocTemplate

/-- What becomes of expressions without a value, and of comments that are not understood. -/
structure Recovery where
  failOnUnresolved : Bool
  replaceUnresolved : Bool
  unresolvedText : String
  leaveEmptyOnError : Bool
  lenientDirectives : Bool

/-- The settings with another recovery. -/
def Settings.withRecovery (r : Recovery) (s : Settings) : Settings :=
  { s with
    failOnUnresolved := r.failOnUnresolved
    replaceUnresolved := r.replaceUnresolved
    unresolvedText := r.unresolvedText
    leaveEmptyOnError := r.leaveEmptyOnError
    lenientDirectives := r.lenientDirectives }

/-- The filler with another recovery. -/
def Filler.withRecovery (r : Recovery) (f : Filler) : Filler :=
  { f with settings := f.settings.withRecovery r }

/-- The engine with another recovery. -/
def Engine.withRecovery (r : Recovery) (e : Engine) : Engine :=
  { e with settings := e.settings.withRecovery r }

variable {r : Recovery}

/-! ## Placeholders -/

namespace Renderer

/-- The renderers do not depend on the recovery. -/
def Indifferent (r : Recovery) (settings : Settings) (renderers : List Renderer) : Prop :=
  ∀ renderer ∈ renderers, renderer.render (settings.withRecovery r) = renderer.render settings

theorem indifferent_builtin (settings : Settings) : Indifferent r settings builtin := by
  simp only [Indifferent, builtin, List.forall_mem_cons, List.not_mem_nil, false_imp_iff,
    implies_true, and_true]
  exact ⟨rfl, rfl, rfl, rfl⟩

theorem renderBy_withRecovery {settings : Settings} {renderers : List Renderer}
    (h : Indifferent r settings renderers) (placeholder : String) (v : Value) :
    renderBy renderers (settings.withRecovery r) placeholder v =
      renderBy renderers settings placeholder v := by
  rw [renderBy, renderBy]
  cases hfind : renderers.find? fun r => r.accepts v with
  | none => rfl
  | some renderer => exact congrFun (congrFun (h renderer (List.mem_of_find?_eq_some hfind)) _) _

end Renderer

namespace Filler

variable {f : Filler} {scope : Value}

/-- The filler fails at placeholders without a value, and renders the others whatever the
    recovery is. -/
structure IsStrict (f : Filler) (r : Recovery) : Prop where
  recovery? : f.recovery? = none
  indifferent : Renderer.Indifferent r f.settings f.renderers

/-- A placeholder that a strict filler replaces has a value. -/
theorem replacement_withRecovery (hf : f.IsStrict r) {text : String} {p : Placeholder}
    {outcome : Option Rendering × Tally} (h : f.replacement scope text p = .ok outcome) :
    (f.withRecovery r).replacement scope text p = .ok outcome := by
  have hrendering : (f.withRecovery r).renderingOf scope p = f.renderingOf scope p := by
    rw [renderingOf, renderingOf]
    exact bind_congr fun v => Renderer.renderBy_withRecovery hf.indifferent p.raw v
  rw [replacement] at h ⊢
  rw [hrendering]
  cases hvalue : f.renderingOf scope p with
  | ok rendering =>
    rw [hvalue] at h
    exact h
  | error error =>
    rw [hvalue] at h
    simp [hf.recovery?] at h

theorem fillParagraph_withRecovery (hf : f.IsStrict r) {p : Paragraph} {x : Paragraph × Tally}
    (h : f.fillParagraph scope p = .ok x) : (f.withRecovery r).fillParagraph scope p = .ok x := by
  obtain ⟨state, hstate, h⟩ := Except.bind_eq_ok.1 h
  refine Except.bind_eq_ok.2 ⟨state, ?_, h⟩
  refine Except.foldlM_eq_ok_of_steps (P := fun _ => True) (fun state ph state' _ hstep => ?_)
    trivial hstate
  obtain ⟨outcome, houtcome, hstep⟩ := Except.bind_eq_ok.1 hstep
  exact ⟨trivial, Except.bind_eq_ok.2 ⟨outcome, replacement_withRecovery hf houtcome, hstep⟩⟩

theorem fillBlocks_withRecovery (hf : f.IsStrict r) {blocks : List Block} {x : List Block × Tally}
    (h : f.fillBlocks scope blocks = .ok x) : (f.withRecovery r).fillBlocks scope blocks = .ok x := by
  let s := Simulation.conservative (ε := Error) fun _ : Tally => True
  have hvisit : ∀ around p, s.rel Eq (f.visit scope around p)
      ((f.withRecovery r).visit scope around p) := by
    intro around p
    refine s.bind (Simulation.conservative_liftM fun _ => fillParagraph_withRecovery hf) ?_
    rintro ⟨p, tally⟩ _ rfl
    exact s.bind (Simulation.conservative_modify fun _ _ => trivial) fun _ _ _ => s.pure rfl
  obtain ⟨-, blocks', hblocks', rfl⟩ := s.walkAll_self hvisit blocks {} _ _ trivial h
  exact hblocks'

end Filler

/-! ## Edits -/

namespace Revision

/-- Whenever the first revision succeeds, so does the second, with a related outcome, and
    leaves the same draft. -/
def conservative : Simulation Revision Revision where
  rel R x y := ∀ d a d', Yields x d a d' → ∃ b, Yields y d b d' ∧ R a b
  pure hab _ _ _ h := by
    obtain ⟨rfl, rfl⟩ := yields_pure.1 h
    exact ⟨_, yields_pure.2 ⟨rfl, rfl⟩, hab⟩
  bind hxy hfg d c d' h := by
    obtain ⟨a, d₁, ha, hc⟩ := yields_bind.1 h
    obtain ⟨b, hb, hab⟩ := hxy d a d₁ ha
    obtain ⟨b', hb', hcb⟩ := hfg a b hab d₁ c d' hc
    exact ⟨b', yields_bind.2 ⟨b, d₁, hb, hb'⟩, hcb⟩

theorem conservative_self {α : Type} (x : Revision α) : conservative.rel Eq x x :=
  fun _ a _ h => ⟨a, h, rfl⟩

theorem conservative_liftM {α : Type} {x y : Except Error α} (h : ∀ a, x = .ok a → y = .ok a) :
    conservative.rel Eq (liftM x : Revision α) (liftM y : Revision α) := by
  intro d a d' hrun
  obtain ⟨hx, rfl⟩ := yields_liftM.1 hrun
  exact ⟨a, yields_liftM.2 ⟨h a hx, rfl⟩, rfl⟩

end Revision

namespace Repetition

variable {f : Filler}

theorem conservative_copy (hf : f.IsStrict r) (template : List Block) (item : Value) :
    Revision.conservative.rel Eq (copy f template item) (copy (f.withRecovery r) template item) := by
  let s := Revision.conservative
  refine s.bind (Revision.conservative_self _) fun blocks _ h => ?_
  subst h
  refine s.bind (Revision.conservative_liftM fun _ => Filler.fillBlocks_withRecovery hf) ?_
  rintro ⟨blocks, tally⟩ _ rfl
  exact s.bind (Revision.conservative_self _) fun _ _ _ => s.pure rfl

theorem conservative_copies (hf : f.IsStrict r) (template : List Block)
    (layout : Option SectionLayout) (items : List Value) :
    Revision.conservative.rel Eq (copies f template layout items)
      (copies (f.withRecovery r) template layout items) := by
  let s := Revision.conservative
  fun_induction copies f template layout items with
  | case1 => exact s.pure rfl
  | case2 item => exact conservative_copy hf template item
  | case3 item items hitems ih =>
    rw [copies.eq_3 _ _ _ _ _ hitems]
    refine s.bind (conservative_copy hf template item) fun blocks _ h => ?_
    subst h
    refine s.bind ih fun rest _ h => ?_
    subst h
    exact s.pure rfl

theorem conservative_perform (hf : f.IsStrict r) (edit : Edit) :
    Revision.conservative.rel Eq (perform f edit) (perform (f.withRecovery r) edit) := by
  let s := Revision.conservative
  cases edit with
  | repeatBlocks i items =>
    refine s.bind (Revision.conservative_self _) fun doc _ h => ?_
    subst h
    refine s.bind (conservative_copies hf _ _ items) fun generated _ h => ?_
    subst h
    exact Revision.conservative_self _
  | _ => exact s.pure rfl

end Repetition

/-! ## Handlers -/

/-- The handler accepts and commits what it does under strict settings, whatever the recovery
    is. -/
structure Handler.IsConservative (r : Recovery) (settings : Settings) (f : Filler) (h : Handler) :
    Prop where
  accept {i : Instruction} {edit : Option Edit} (haccept : h.accept settings i = .ok edit) :
    h.accept (settings.withRecovery r) i = .ok edit
  commit (edits : List Edit) :
    Revision.conservative.rel Eq (h.commit f edits) (h.commit (f.withRecovery r) edits)

/-- Only word replacement reads a setting about recovery, for a comment that encloses no
    text. -/
theorem WordReplacement.accept_withRecovery {settings : Settings}
    (hlenient : settings.lenientDirectives = false) {i : Instruction} {edit : Option Edit}
    (h : accept settings i = .ok edit) : accept (settings.withRecovery r) i = .ok edit := by
  rw [accept] at h ⊢
  split at h
  · next henclosed =>
    rw [if_pos henclosed]
    exact h
  · simp [hlenient] at h

theorem Registry.isConservative_of_mem_builtin {settings : Settings} {f : Filler}
    (hlenient : settings.lenientDirectives = false) (hf : f.IsStrict r) {h : Handler}
    (hh : h ∈ builtin.handlers) : h.IsConservative r settings f := by
  rcases mem_builtin.1 hh with rfl | rfl | rfl | rfl
  · exact ⟨id, fun _ => Revision.conservative_self _⟩
  · exact ⟨id, fun edits => Revision.conservative.forM fun edit _ =>
      Repetition.conservative_perform hf edit⟩
  · exact ⟨WordReplacement.accept_withRecovery hlenient, fun _ => Revision.conservative_self _⟩
  · exact ⟨id, fun _ => Revision.conservative_self _⟩

/-! ## Comments -/

/-- A comment that is interpreted under strict settings is understood. -/
theorem Registry.interpret_withRecovery {registry : Registry} {settings : Settings}
    (hlenient : settings.lenientDirectives = false) {text : String} {calls : Option (List Call)}
    (h : registry.interpret settings text = .ok calls) :
    registry.interpret (settings.withRecovery r) text = .ok calls := by
  rw [interpret] at h ⊢
  cases hcalls : registry.calls text with
  | ok calls =>
    rw [hcalls] at h
    exact h
  | error error =>
    rw [hcalls] at h
    simp [hlenient] at h

theorem Plan.ofDocument_withRecovery {registry : Registry} {settings : Settings} {doc : Document}
    {plan : Plan} (hlenient : settings.lenientDirectives = false)
    (h : ofDocument registry settings doc = .ok plan) :
    ofDocument registry (settings.withRecovery r) doc = .ok plan := by
  refine Except.foldlM_eq_ok_of_steps (P := fun _ => True) (fun plan region plan' _ hstep => ?_)
    trivial h
  refine ⟨trivial, ?_⟩
  rw [step] at hstep ⊢
  split at hstep
  · next hinterprets =>
    rw [if_pos hinterprets]
    obtain ⟨calls, hcalls, rfl⟩ := Except.map_eq_ok.1 hstep
    exact Except.map_eq_ok.2 ⟨calls, Registry.interpret_withRecovery hlenient hcalls, rfl⟩
  · next hinterprets =>
    rw [if_neg hinterprets]
    exact hstep

/-- Calls that have instructions under strict settings have values for all their arguments. -/
theorem Call.instructions_withRecovery {env : Environment} {settings : Settings} {scope : Value}
    {site : Site} (hlenient : settings.lenientDirectives = false)
    (hrecovers : settings.recoversUnresolved = false) {calls : List Call}
    {is : Option (List Instruction)}
    (h : instructions env settings scope site calls = .ok is) :
    instructions env (settings.withRecovery r) scope site calls = .ok is := by
  induction calls generalizing is with
  | nil => exact h
  | cons call calls ih =>
    rw [instructions] at h ⊢
    cases hargs : call.evaluate env scope with
    | ok args =>
      rw [hargs] at h
      obtain ⟨rest, hrest, h⟩ := Except.bind_eq_ok.1 h
      exact Except.bind_eq_ok.2 ⟨rest, ih hrest, h⟩
    | error error =>
      rw [hargs] at h
      simp [hlenient, hrecovers] at h

namespace Desks

variable {settings : Settings} {f : Filler} {d d' : Desks}

theorem accept_withRecovery {i : Instruction}
    (hdesks : ∀ desk ∈ d.desks, desk.handler.IsConservative r settings f)
    (h : d.accept settings i = .ok d') : d.accept (settings.withRecovery r) i = .ok d' := by
  have hat : ∀ {name : String} {desks desks' : List Desk},
      (∀ desk ∈ desks, desk.handler.IsConservative r settings f) →
      acceptAt? settings i name desks = some (.ok desks') →
      acceptAt? (settings.withRecovery r) i name desks = some (.ok desks') := by
    intro name desks desks' hdesks h
    induction desks generalizing desks' with
    | nil => cases h
    | cons desk desks ih =>
      rw [acceptAt?] at h ⊢
      split at h
      · next hname =>
        rw [if_pos hname]
        obtain ⟨desk', hdesk, rfl⟩ := Except.map_eq_ok.1 (Option.some.inj h)
        obtain ⟨edit, hedit, hdesk⟩ := Except.bind_eq_ok.1 hdesk
        have hedit := (hdesks desk List.mem_cons_self).accept hedit
        exact congrArg some (Except.map_eq_ok.2 ⟨desk', Except.bind_eq_ok.2 ⟨edit, hedit, hdesk⟩, rfl⟩)
      · next hname =>
        rw [if_neg hname]
        obtain ⟨outcome, houtcome, h⟩ := Option.map_eq_some_iff.1 h
        obtain ⟨rest, rfl, rfl⟩ := Except.map_eq_ok.1 h
        rw [ih (fun desk hdesk => hdesks desk (List.mem_cons_of_mem _ hdesk)) houtcome]
        rfl
  rw [accept] at h ⊢
  split at h
  · next outcome houtcome =>
    obtain ⟨desks, rfl, rfl⟩ := Except.map_eq_ok.1 h
    rw [hat hdesks houtcome]
    rfl
  · cases h

variable {registry : Registry}

theorem dispatch_withRecovery {env : Environment} {scope : Value} {site : Site}
    {calls : List Call} {outcome : Option (Nat × Desks)}
    (hlenient : settings.lenientDirectives = false)
    (hrecovers : settings.recoversUnresolved = false)
    (hregistry : ∀ h ∈ registry.handlers, h.IsConservative r settings f)
    (hdesks : d.desks.map Desk.handler = registry.handlers)
    (h : d.dispatch env settings scope site calls = .ok outcome) :
    d.dispatch env (settings.withRecovery r) scope site calls = .ok outcome := by
  obtain ⟨is, his, h⟩ := Except.bind_eq_ok.1 h
  refine Except.bind_eq_ok.2 ⟨is, Call.instructions_withRecovery hlenient hrecovers his, ?_⟩
  cases is with
  | none => exact h
  | some is =>
    obtain ⟨d', hd', h⟩ := Except.bind_eq_ok.1 h
    refine Except.bind_eq_ok.2 ⟨d', ?_, h⟩
    refine Except.foldlM_eq_ok_of_steps
      (P := fun d : Desks => d.desks.map Desk.handler = registry.handlers)
      (fun d i d' hd hi => ⟨(map_handler_accept hi).trans hd, ?_⟩) hdesks hd'
    exact accept_withRecovery
      (fun desk hdesk => hregistry _ (hd ▸ List.mem_map_of_mem hdesk)) hi

end Desks

/-! ## Fillings -/

namespace Engine

variable {e : Engine} {f : Filler} {scope : Value} {plan : Plan} {doc doc' : Document}
  {report : Report}

theorem dispatch_withRecovery {site : Site} {calls : List Call} {v v' : Visit}
    (hlenient : e.settings.lenientDirectives = false)
    (hrecovers : e.settings.recoversUnresolved = false)
    (hregistry : ∀ h ∈ e.registry.handlers, h.IsConservative r e.settings f)
    (hv : v.desks.desks.map Desk.handler = e.registry.handlers)
    (h : e.dispatch scope site calls v = .ok v') :
    v'.desks.desks.map Desk.handler = e.registry.handlers ∧
      (e.withRecovery r).dispatch scope site calls v = .ok v' := by
  obtain ⟨outcome, houtcome, h⟩ := Except.bind_eq_ok.1 h
  refine ⟨?_, Except.bind_eq_ok.2
    ⟨outcome, Desks.dispatch_withRecovery hlenient hrecovers hregistry hv houtcome, h⟩⟩
  obtain ⟨is, -, houtcome⟩ := Except.bind_eq_ok.1 houtcome
  cases is with
  | none =>
    cases houtcome
    cases h
    exact hv
  | some is =>
    obtain ⟨d', hd', houtcome⟩ := Except.bind_eq_ok.1 houtcome
    cases houtcome
    cases h
    exact (Desks.map_handler_foldlM_accept hd').trans hv

/-- A visit that succeeds under strict settings does the same whatever the recovery is. -/
theorem conservative_visit (hlenient : e.settings.lenientDirectives = false)
    (hrecovers : e.settings.recoversUnresolved = false)
    (hregistry : ∀ h ∈ e.registry.handlers, h.IsConservative r e.settings f)
    (hf : f.IsStrict r) (around : List CellPosition) (p : Paragraph) :
    (Simulation.conservative fun v : Visit =>
        v.desks.desks.map Desk.handler = e.registry.handlers).rel Eq
      (e.visit f scope plan around p)
      ((e.withRecovery r).visit (f.withRecovery r) scope plan around p) := by
  let s := Simulation.conservative (ε := Error) fun v : Visit =>
    v.desks.desks.map Desk.handler = e.registry.handlers
  have hfill : s.rel Eq (fillParagraph f scope plan p)
      (fillParagraph (f.withRecovery r) scope plan p) := by
    rw [fillParagraph, fillParagraph]
    split
    · exact s.pure rfl
    · refine s.bind (Simulation.conservative_liftM fun _ => Filler.fillParagraph_withRecovery hf) ?_
      rintro ⟨p, tally⟩ _ rfl
      exact s.bind (Simulation.conservative_modify fun _ hv => hv) fun _ _ _ => s.pure rfl
  refine s.bind hfill fun p _ hp => ?_
  subst hp
  refine s.bind (s.forIn (fun entry _ _ => ?_) _) fun _ _ _ => s.pure rfl
  intro v u v' hv hrun
  obtain ⟨_, _, hget, hrun₁⟩ := StateT.run_bind_eq_ok.1 hrun
  obtain ⟨rfl, rfl⟩ := StateT.run_get_eq_ok.1 hget
  obtain ⟨v₁, _, hlift, hset⟩ := StateT.run_bind_eq_ok.1 hrun₁
  obtain ⟨hdispatch, rfl⟩ := StateT.run_liftM_eq_ok.1 hlift
  obtain ⟨hv₁, hdispatch'⟩ := dispatch_withRecovery hlenient hrecovers hregistry hv hdispatch
  obtain ⟨_, _, hset', hpure⟩ := StateT.run_bind_eq_ok.1 hset
  obtain rfl := StateT.run_set_eq_ok.1 hset'
  obtain ⟨rfl, rfl⟩ := StateT.run_pure_eq_ok.1 hpure
  refine ⟨hv₁, _, ?_, rfl⟩
  refine StateT.run_bind_eq_ok.2 ⟨_, _, hget, ?_⟩
  exact StateT.run_bind_eq_ok.2 ⟨_, _, StateT.run_liftM_eq_ok.2 ⟨hdispatch', rfl⟩, hset⟩

theorem commit_withRecovery (hregistry : ∀ h ∈ e.registry.handlers, h.IsConservative r e.settings f)
    {v : Visit} (hv : v.desks.desks.map Desk.handler = e.registry.handlers) {draft : Draft}
    (h : commit f v doc = .ok draft) : commit (f.withRecovery r) v doc = .ok draft := by
  have hcommit : Revision.conservative.rel Eq (v.desks.commit f)
      (v.desks.commit (f.withRecovery r)) :=
    Revision.conservative.forM fun desk hdesk =>
      (hregistry _ (hv ▸ List.mem_map_of_mem hdesk)).commit desk.edits
  obtain ⟨u, hu, hdraft⟩ := Except.map_eq_ok.1 h
  obtain ⟨u', hrun, -⟩ := hcommit ⟨doc, v.report⟩ u draft (Prod.ext hu hdraft)
  rw [Revision.Yields] at hrun
  rw [commit, hrun]
  rfl

theorem isStrict_filler (hrecovers : e.settings.recoversUnresolved = false)
    (hrenderers : Renderer.Indifferent r e.settings e.renderers) (hf : e.filler = .ok f) :
    f.IsStrict r where
  recovery? := Filler.recovery?_eq_none_iff.2 (by rw [settings_filler hf]; exact hrecovers)
  indifferent := by
    obtain ⟨delimiters, -, hf⟩ := Except.bind_eq_ok.1 hf
    cases hf
    intro renderer hrenderer
    exact (List.mem_append.1 hrenderer).elim (hrenderers renderer)
      (Renderer.indifferent_builtin _ renderer)

/-- If an engine with strict settings fills a document, an engine with any other recovery
    makes the same document and the same report. -/
theorem fill_withRecovery (hregistry : e.registry = .builtin)
    (hrenderers : Renderer.Indifferent r e.settings e.renderers)
    (hrecovers : e.settings.recoversUnresolved = false)
    (hlenient : e.settings.lenientDirectives = false)
    (h : e.fill scope doc = .ok (doc', report)) :
    (e.withRecovery r).fill scope doc = .ok (doc', report) := by
  obtain ⟨f, hf, h⟩ := Except.bind_eq_ok.1 h
  have hstrict : f.IsStrict r := isStrict_filler hrecovers hrenderers hf
  have hfiller : (e.withRecovery r).filler = .ok (f.withRecovery r) := by
    obtain ⟨delimiters, hdelimiters, hf⟩ := Except.bind_eq_ok.1 hf
    cases hf
    exact Except.bind_eq_ok.2 ⟨delimiters, hdelimiters, rfl⟩
  have hhandlers : ∀ h ∈ e.registry.handlers, h.IsConservative r e.settings f := by
    rw [hregistry]
    exact fun h hh => Registry.isConservative_of_mem_builtin hlenient hstrict hh
  -- The parts of the filling one by one: the plan, the visit, the edits and the end.
  obtain ⟨plan, hplan, h⟩ := Except.bind_eq_ok.1 h
  obtain ⟨⟨body, v⟩, hvisit, h⟩ := Except.bind_eq_ok.1 h
  obtain ⟨draft, hdraft, h⟩ := Except.bind_eq_ok.1 h
  obtain ⟨hv, _, hvisit', rfl⟩ := (Simulation.conservative _).walkAll_self
    (conservative_visit hlenient hrecovers hhandlers hstrict) _ _ _ _
    (by simp [Registry.desks, Function.comp_def]) hvisit
  refine Except.bind_eq_ok.2 ⟨_, hfiller, ?_⟩
  refine Except.bind_eq_ok.2 ⟨plan, Plan.ofDocument_withRecovery hlenient hplan, ?_⟩
  refine Except.bind_eq_ok.2 ⟨(body, v), hvisit', ?_⟩
  exact Except.bind_eq_ok.2 ⟨draft, commit_withRecovery hhandlers hv hdraft, h⟩

/-- The letter is filled in as well by an engine that makes up for all that it does not
    understand. -/
theorem fill_withRecovery_letter :
    filledLetter.1.paragraphs.map Paragraph.text =
        ["Dear Ann, Monday", "* tea", "* milk", "Price", "2"] ∧
      (({} : Engine).withRecovery ⟨false, true, "?", true, true⟩).fill letterData letter =
        .ok filledLetter :=
  ⟨by decide +kernel, fill_withRecovery rfl (fun _ h => absurd h List.not_mem_nil) rfl rfl
    (Except.eq_ok_get _)⟩

end Engine

end DocTemplate
