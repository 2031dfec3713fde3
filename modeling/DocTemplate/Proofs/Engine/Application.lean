import DocTemplate.Proofs.Directive.Count
import DocTemplate.Proofs.Engine.Comments
import DocTemplate.Proofs.Engine.Contiguity

/-!
# Directives are applied once

Every start of a comment in the body has its *turn* (`Stage.Turn`), in reading order. Nothing
happens if there is no such comment, if it is a reply, or if it starts in a paragraph that is
left to an earlier one. Else the comment is skipped, and none of its directives is applied; or
all of them are, each once and in the order in which they are written, with the values that
their arguments have before the first one is applied.

Plans are made of the starts of comments, and are looked up by paragraph. Both are in reading
order, so that nothing is left out or comes twice:

* `Plan.map_dispatches`: comments are dispatched in the order of the plan;
* `Engine.exists_of_foldlM_applyStep`: each dispatch applies all directives of a comment or none;
* `Stage.Turns`, `Plan.exists_turns`: the turns of the starts of comments;
* `Desks.Served`, `Desks.served_of_foldlM`: every directive goes to the handler of its name, and
  to no other;
* `Engine.applied_once`: a filling.
-/

namespace DocTemplate

/-! ## The order of dispatches -/

/-- Items in the order of their keys, key by key. -/
theorem flatMap_filter_eq {α : Type} (key : α → Nat) {ks : List Nat} {as : List α}
    (hks : ks.Pairwise (· < ·)) (has : as.Pairwise fun a b => key a ≤ key b)
    (hmem : ∀ a ∈ as, key a ∈ ks) :
    ks.flatMap (fun k => as.filter fun a => key a = k) = as := by
  induction as with
  | nil => simp
  | cons a as ih =>
    have ih := ih (List.pairwise_cons.1 has).2 fun b hb => hmem b (List.mem_cons_of_mem _ hb)
    obtain ⟨ks₁, ks₂, rfl⟩ := List.append_of_mem (hmem a List.mem_cons_self)
    have hks := List.pairwise_append.1 hks
    -- Lower keys have no items at all.
    have hnil : ks₁.flatMap (fun k => (a :: as).filter fun b => key b = k) = [] := by
      refine List.flatMap_eq_nil_iff.2 fun k hk => List.filter_eq_nil_iff.2 fun b hb => ?_
      have hlt := hks.2.2 k hk (key a) List.mem_cons_self
      rcases List.mem_cons.1 hb with rfl | hb
      · simp [hlt.ne']
      · simp [(Nat.lt_of_lt_of_le hlt ((List.pairwise_cons.1 has).1 b hb)).ne']
    have hnil' : ks₁.flatMap (fun k => as.filter fun b => key b = k) = [] := by
      refine List.flatMap_eq_nil_iff.2 fun k hk => ?_
      have := List.flatMap_eq_nil_iff.1 hnil k hk
      simp only [List.filter_eq_nil_iff] at this ⊢
      exact fun b hb => this b (List.mem_cons_of_mem _ hb)
    have hafter : ks₂.flatMap (fun k => (a :: as).filter fun b => key b = k) =
        ks₂.flatMap fun k => as.filter fun b => key b = k := by
      refine List.flatMap_congr fun k hk => List.filter_cons_of_neg ?_
      simp [((List.pairwise_cons.1 hks.2.1).1 k hk).ne]
    rw [List.flatMap_append, hnil', List.flatMap_cons, List.nil_append] at ih
    rw [List.flatMap_append, hnil, List.flatMap_cons, List.nil_append, hafter,
      List.filter_cons_of_pos (by simp), List.cons_append, ih]

/-- Comments are dispatched in the order of the plan, if the nodes have the numbers of those
    that it was made of. -/
theorem Plan.map_dispatches {registry : Registry} {settings : Settings} {doc : Document}
    {plan : Plan} (hplan : ofDocument registry settings doc = .ok plan) (horder : doc.InOrder)
    {R : List CellPosition → Paragraph → Paragraph → Prop} {nodes : List Placed}
    (hnodes : List.Forall₂ (Placed.Becomes R) doc.outline nodes) :
    (plan.dispatches nodes).map (fun d => (d.1.region, d.2)) = plan.entries := by
  have hflat : ∀ nodes : List Placed,
      (plan.dispatches nodes).map (fun d => (d.1.region, d.2)) =
        ((nodes.filterMap Placed.paragraph?).map Paragraph.id).flatMap plan.entriesAt ∧
      ((nodes.filterMap Placed.paragraph?).map Paragraph.id).Sublist (nodes.map Placed.id) := by
    intro nodes
    induction nodes with
    | nil => exact ⟨rfl, .slnil⟩
    | cons node nodes ih =>
      rw [dispatches, List.flatMap_cons, List.map_append]
      rcases node with ⟨p | id | id, around⟩
      · refine ⟨?_, ih.2.cons_cons _⟩
        have hat : (plan.dispatchesAt ⟨.paragraph p, around⟩).map (fun d => (d.1.region, d.2)) =
            plan.entriesAt p.id := by
          rw [dispatchesAt, List.map_map]
          exact List.map_id _
        rw [hat]
        exact congrArg _ ih.1
      · exact ⟨ih.1, ih.2.cons _⟩
      · exact ⟨ih.1, ih.2.cons _⟩
  obtain ⟨hmap, hsub⟩ := hflat nodes
  -- Nodes and entries are both in reading order, so none is left out or comes twice.
  have hkeys : ((nodes.filterMap Placed.paragraph?).map Paragraph.id).Pairwise (· < ·) := by
    refine List.Pairwise.sublist hsub ?_
    rw [Placed.Becomes.map_id_eq hnodes]
    exact horder.pairwise
  have hentries := List.pairwise_map.1 (horder.pairwise_regions.sublist (sublist_entries hplan))
  rw [hmap]
  refine flatMap_filter_eq (fun entry : Region × List Call => entry.1.start) hkeys hentries
    fun entry hentry => ?_
  obtain ⟨-, ⟨p, hp, -, hstart⟩, -⟩ :=
    Document.region_spec ((accounts_ofDocument hplan).entries entry hentry).1
  obtain ⟨around, hp⟩ := Document.mem_paragraphs_iff_outline.1 hp
  obtain ⟨x, hx, hbecomes⟩ := hnodes.exists_of_mem_left hp
  cases hbecomes with
  | @paragraph _ q _ hid _ =>
    rw [hstart, ← hid]
    exact List.mem_map_of_mem (List.mem_filterMap.2 ⟨_, hx, rfl⟩)

/-! ## Instructions -/

/-- The instruction is what a call is at a site, with the values of its arguments. -/
structure Call.Makes (env : Environment) (scope : Value) (site : Site) (call : Call)
    (i : Instruction) : Prop where
  name : i.name = call.name
  args : call.evaluate env scope = .ok i.args
  site : i.site = site

namespace Call

variable {env : Environment} {settings : Settings} {scope : Value} {site : Site}
  {calls : List Call} {is : List Instruction}

/-- Calls have instructions if all their arguments have values, one for each call. -/
theorem instructions_eq_some_iff :
    instructions env settings scope site calls = .ok (some is) ↔
      List.Forall₂ (Makes env scope site) calls is := by
  induction calls generalizing is with
  | nil =>
    rw [instructions, List.forall₂_nil_left_iff, Except.ok.injEq, Option.some.injEq]
    exact eq_comm
  | cons call calls ih =>
    rw [instructions, List.forall₂_cons_left_iff]
    constructor
    · intro h
      split at h
      · next args hargs =>
        obtain ⟨rest, hrest, h⟩ := Except.bind_eq_ok.1 h
        cases rest with
        | none => cases h
        | some rest =>
          cases h
          exact ⟨_, _, ⟨rfl, hargs, rfl⟩, ih.1 hrest, rfl⟩
      · split at h <;> cases h
    · rintro ⟨i, rest, ⟨hname, hargs, hsite⟩, hrest, rfl⟩
      rw [hargs]
      refine Except.bind_eq_ok.2 ⟨some rest, ih.2 hrest, ?_⟩
      rw [← hname, ← hsite]
      rfl

/-- Calls are skipped only if an argument has no value. -/
theorem exists_of_instructions_eq_none
    (h : instructions env settings scope site calls = .ok none) :
    ∃ call ∈ calls, ∃ error, call.evaluate env scope = .error error := by
  induction calls with
  | nil => cases h
  | cons call calls ih =>
    rw [instructions] at h
    split at h
    · obtain ⟨rest, hrest, h⟩ := Except.bind_eq_ok.1 h
      cases rest with
      | none =>
        obtain ⟨call', hcall', herror⟩ := ih hrest
        exact ⟨call', List.mem_cons_of_mem _ hcall', herror⟩
      | some rest => cases h
    · next error herror => exact ⟨call, List.mem_cons_self, error, herror⟩

end Call

/-! ## Dispatches -/

namespace Engine

variable {e : Engine} {scope : Value}

/-- The dispatch of a comment: the desks, the comments skipped and the number of directives
    applied. -/
def applyStep (e : Engine) (scope : Value) (state : Desks × List CommentId × UInt32)
    (d : Site × List Call) : Except Error (Desks × List CommentId × UInt32) := do
  match ← state.1.dispatch e.environment e.settings scope d.1 d.2 with
  | some (n, desks) => return (desks, state.2.1, state.2.2 + UInt32.ofNat n)
  | none => return (state.1, state.2.1.insert d.1.region.id, state.2.2)

theorem views_applyStep : e.Views scope
    (fun v => (v.desks, v.skipped, v.report.directivesApplied)) (e.applyStep scope) where
  filled _ _ _ := rfl
  dispatched h := by
    rw [dispatch] at h
    rw [applyStep]
    obtain ⟨outcome, houtcome, h⟩ := Except.bind_eq_ok.1 h
    refine Except.bind_eq_ok.2 ⟨outcome, houtcome, ?_⟩
    rcases outcome with _ | ⟨n, desks⟩ <;> cases h <;> rfl

/-- What the dispatch of a comment applies: nothing if the comment is skipped, as an argument
    has no value, and else every call. -/
inductive Applies (e : Engine) (scope : Value) (skipped : List CommentId) (d : Site × List Call) :
    List Instruction → Prop
  | skipped {call : Call} {error : Error} (hskipped : d.1.region.id ∈ skipped) (hcall : call ∈ d.2)
      (herror : call.evaluate e.environment scope = .error error) : Applies e scope skipped d []
  | all {is : List Instruction} (his : List.Forall₂ (Call.Makes e.environment scope d.1) d.2 is) :
      Applies e scope skipped d is

variable {state state' : Desks × List CommentId × UInt32} {d : Site × List Call}
  {ds : List (Site × List Call)}

theorem Applies.mono {skipped skipped' : List CommentId} {is : List Instruction}
    (h : e.Applies scope skipped d is) (hsub : skipped ⊆ skipped') :
    e.Applies scope skipped' d is := by
  cases h with
  | skipped hskipped hcall herror => exact .skipped (hsub hskipped) hcall herror
  | all his => exact .all his

theorem exists_of_applyStep (h : e.applyStep scope state d = .ok state') :
    state.2.1 ⊆ state'.2.1 ∧ ∃ is, e.Applies scope state'.2.1 d is ∧
      is.foldlM (Desks.accept e.settings) state.1 = .ok state'.1 ∧
        state'.2.2 = state.2.2 + UInt32.ofNat is.length := by
  obtain ⟨outcome, houtcome, h⟩ := Except.bind_eq_ok.1 h
  obtain ⟨is, his, houtcome⟩ := Except.bind_eq_ok.1 houtcome
  cases is with
  | none =>
    cases houtcome
    cases h
    obtain ⟨call, hcall, error, herror⟩ := Call.exists_of_instructions_eq_none his
    exact ⟨fun _ => List.mem_insert_of_mem, [], .skipped List.mem_insert_self hcall herror, rfl,
      (UInt32.add_zero _).symm⟩
  | some is =>
    obtain ⟨desks, hdesks, houtcome⟩ := Except.bind_eq_ok.1 houtcome
    cases houtcome
    cases h
    exact ⟨List.Subset.refl _, is, .all (Call.instructions_eq_some_iff.1 his), hdesks, rfl⟩

/-- What is applied in a sequence of dispatches, and its number. -/
theorem exists_of_foldlM_applyStep (h : ds.foldlM (e.applyStep scope) state = .ok state') :
    state.2.1 ⊆ state'.2.1 ∧ ∃ applied, List.Forall₂ (e.Applies scope state'.2.1) ds applied ∧
      applied.flatten.foldlM (Desks.accept e.settings) state.1 = .ok state'.1 ∧
        state'.2.2 = state.2.2 + UInt32.ofNat applied.flatten.length := by
  induction ds generalizing state with
  | nil =>
    cases h
    exact ⟨List.Subset.refl _, [], .nil, rfl, (UInt32.add_zero _).symm⟩
  | cons d ds ih =>
    rw [List.foldlM_cons] at h
    obtain ⟨next, hd, h⟩ := Except.bind_eq_ok.1 h
    obtain ⟨hsub, is, his, hdesks, hcount⟩ := exists_of_applyStep hd
    obtain ⟨hsub', applied, happlied, hdesks', hcount'⟩ := ih h
    refine ⟨List.Subset.trans hsub hsub', is :: applied, .cons (his.mono hsub') happlied, ?_, ?_⟩
    · rw [List.flatten_cons, List.foldlM_append]
      exact Except.bind_eq_ok.2 ⟨next.1, hdesks, hdesks'⟩
    · rw [List.flatten_cons, List.length_append, UInt32.ofNat_add, hcount', hcount, UInt32.add_assoc]

end Engine

/-! ## Turns -/

/-- The paragraphs that are left to edits once a comment has been planned. -/
def Plan.deferring (registry : Registry) (doc : Document) (deferred : List NodeId)
    (entry : Region × List Call) : List NodeId :=
  if defers registry entry then deferred ++ entry.1.paragraphIds doc else deferred

namespace Stage

/-- The turn of a start of a comment, when some paragraphs are left to edits already: the
    instructions that are applied there, and the paragraphs that are left to edits then. -/
inductive Turn (s : Stage) (e : Engine) (scope : Value) (doc : Document) (deferred : List NodeId)
    (start : CommentId × NodeId × Path) : List Instruction → List NodeId → Prop
  /-- There is no such comment, it is a reply, or it starts in a paragraph that is left to an
      edit. -/
  | passed (h : ∀ c, doc.comment? start.1 = some c → c.parent.isSome ∨ start.2.1 ∈ deferred) :
      Turn s e scope doc deferred start [] deferred
  /-- It is no sequence of directives, and is skipped. -/
  | misread {c : Comment} (hc : doc.comment? start.1 = some c) (hparent : c.parent = none)
      (hstart : start.2.1 ∉ deferred) (hcalls : e.registry.interpret e.settings c.text = .ok none)
      (hskipped : start.1 ∈ s.visit.skipped) : Turn s e scope doc deferred start [] deferred
  /-- An argument has no value, and it is skipped. -/
  | skipped {c : Comment} {calls : List Call} {r : Region} {call : Call} {error : Error}
      (hc : doc.comment? start.1 = some c) (hparent : c.parent = none)
      (hstart : start.2.1 ∉ deferred) (hcalls : e.registry.calls c.text = .ok calls)
      (hr : doc.regionAt? start = some r) (hcall : call ∈ calls)
      (herror : call.evaluate e.environment scope = .error error)
      (hskipped : start.1 ∈ s.visit.skipped) :
      Turn s e scope doc deferred start [] (Plan.deferring e.registry doc deferred (r, calls))
  /-- All its directives are applied where it starts, in the order in which they are written
      and with all arguments evaluated. -/
  | applied {c : Comment} {calls : List Call} {r : Region} {p : Paragraph}
      {around : List CellPosition} {is : List Instruction}
      (hc : doc.comment? start.1 = some c) (hparent : c.parent = none)
      (hstart : start.2.1 ∉ deferred) (hcalls : e.registry.calls c.text = .ok calls)
      (hr : doc.regionAt? start = some r)
      (hp : ⟨.paragraph p, around⟩ ∈ s.document.outline) (hid : p.id = start.2.1)
      (his : List.Forall₂ (Call.Makes e.environment scope ⟨r, p.id, p.text, around.head?⟩) calls
        is) :
      Turn s e scope doc deferred start is (Plan.deferring e.registry doc deferred (r, calls))

/-- The turns of some starts of comments, one after the other. -/
inductive Turns (s : Stage) (e : Engine) (scope : Value) (doc : Document) :
    List NodeId → List (CommentId × NodeId × Path) → List (List Instruction) → Prop
  | nil {deferred : List NodeId} : Turns s e scope doc deferred [] []
  | cons {deferred deferred' : List NodeId} {start : CommentId × NodeId × Path}
      {starts : List (CommentId × NodeId × Path)} {is : List Instruction}
      {applied : List (List Instruction)} (hturn : s.Turn e scope doc deferred start is deferred')
      (hturns : Turns s e scope doc deferred' starts applied) :
      Turns s e scope doc deferred (start :: starts) (is :: applied)

/-- What is applied for an entry of the plan, where its comment starts. -/
def AppliesEntry (s : Stage) (e : Engine) (scope : Value) (entry : Region × List Call)
    (is : List Instruction) : Prop :=
  ∃ p around, ⟨.paragraph p, around⟩ ∈ s.document.outline ∧ entry.1.start = p.id ∧
    e.Applies scope s.visit.skipped (⟨entry.1, p.id, p.text, around.head?⟩, entry.2) is

end Stage

theorem Registry.interpret_eq_some_iff {registry : Registry} {settings : Settings} {text : String}
    {calls : List Call} :
    registry.interpret settings text = .ok (some calls) ↔ registry.calls text = .ok calls := by
  rw [interpret]
  cases registry.calls text with
  | ok calls => simp
  | error e =>
    dsimp only
    split <;> simp

namespace Plan

variable {registry : Registry} {settings : Settings} {doc : Document} {plan plan' : Plan}

/-- A pass over comments adds entries and comments to skip to the plan. -/
theorem extends_foldlM {regions : List Region}
    (h : regions.foldlM (step registry settings doc) plan = .ok plan') :
    plan.entries <+: plan'.entries ∧ plan.skipped ⊆ plan'.skipped := by
  refine Except.foldlM_induction
    (P := fun plan' : Plan => plan.entries <+: plan'.entries ∧ plan.skipped ⊆ plan'.skipped)
    (fun between r next hbetween hstep => ?_)
    ⟨List.prefix_rfl, List.Subset.refl _⟩ h
  obtain ⟨hentries, hskipped⟩ := hbetween
  rcases step_cases hstep with ⟨-, rfl⟩ | ⟨-, calls, -, rfl⟩
  · exact ⟨hentries, hskipped⟩
  · cases calls with
    | none => exact ⟨hentries, fun id hid => List.mem_insert_of_mem (hskipped hid)⟩
    | some calls => exact ⟨hentries.trans (List.prefix_append _ _), hskipped⟩

variable {s : Stage} {e : Engine} {scope : Value}

/-- In a pass over comments, each has its turn. -/
theorem exists_turns {starts : List (CommentId × NodeId × Path)}
    (hstarts : ∀ start ∈ starts, start ∈ doc.rangeStarts)
    (hplan : (starts.filterMap doc.regionAt?).foldlM (step e.registry e.settings doc) plan =
      .ok plan')
    (hskipped : plan'.skipped ⊆ s.visit.skipped) {entries : List (Region × List Call)}
    (hentries : plan'.entries = plan.entries ++ entries) {applied : List (List Instruction)}
    (happlied : List.Forall₂ (s.AppliesEntry e scope) entries applied) :
    ∃ turns, s.Turns e scope doc plan.deferred starts turns ∧ turns.flatten = applied.flatten := by
  induction starts generalizing plan entries applied with
  | nil =>
    cases hplan
    obtain rfl : entries = [] := List.append_right_eq_self.1 hentries.symm
    rw [List.forall₂_nil_left_iff.1 happlied]
    exact ⟨[], .nil, rfl⟩
  | cons start starts ih =>
    have hrest : ∀ start ∈ starts, start ∈ doc.rangeStarts :=
      fun start hstart => hstarts start (List.mem_cons_of_mem _ hstart)
    have hmem := hstarts start List.mem_cons_self
    cases hr : doc.regionAt? start with
    | none =>
      rw [List.filterMap_cons_none hr] at hplan
      obtain ⟨turns, hturns, hflatten⟩ := ih hrest hplan hentries happlied
      refine ⟨[] :: turns, .cons (.passed fun c hc => ?_) hturns, hflatten⟩
      obtain ⟨r, hr', -⟩ := Document.exists_regionAt? hmem hc
      rw [hr] at hr'
      cases hr'
    | some r =>
      obtain ⟨c, hc, -⟩ := Option.bind_eq_some_iff.1 hr
      obtain ⟨r', hr', hid, htext, hparent, hstart⟩ := Document.exists_regionAt? hmem hc
      obtain rfl := Option.some.inj (hr.symm.trans hr')
      rw [List.filterMap_cons_some hr, List.foldlM_cons] at hplan
      obtain ⟨next, hnext, hlater⟩ := Except.bind_eq_ok.1 hplan
      rcases step_cases hnext with ⟨hpassed, rfl⟩ | ⟨hinterprets, calls, hcalls, rfl⟩
      · obtain ⟨turns, hturns, hflatten⟩ := ih hrest hlater hentries happlied
        refine ⟨[] :: turns, .cons (.passed fun c' hc' => ?_) hturns, hflatten⟩
        obtain rfl := Option.some.inj (hc.symm.trans hc')
        rw [interprets_iff, hparent, hstart, not_and_or, not_not] at hpassed
        exact hpassed.imp Option.isSome_iff_ne_none.2 id
      · rw [interprets_iff, hparent, hstart] at hinterprets
        rw [htext] at hcalls
        cases calls with
        | none =>
          obtain ⟨turns, hturns, hflatten⟩ := ih hrest hlater hentries happlied
          have hmem : start.1 ∈ s.visit.skipped :=
            hskipped ((extends_foldlM hlater).2 (hid ▸ List.mem_insert_self))
          exact ⟨[] :: turns, .cons (.misread hc hinterprets.1 hinterprets.2 hcalls hmem) hturns,
            hflatten⟩
        | some calls =>
          -- The entry of the comment is the next one.
          obtain ⟨more, hmore⟩ := (extends_foldlM hlater).1
          have hcalls := Registry.interpret_eq_some_iff.1 hcalls
          obtain rfl : entries = (r, calls) :: more := by
            have hsplit : plan.entries ++ ([(r, calls)] ++ more) = plan.entries ++ entries := by
              rw [← hentries, ← hmore, ← List.append_assoc]
              rfl
            exact (List.append_cancel_left hsplit).symm
          obtain ⟨is, rest, ⟨p, around, hp, hpid, his⟩, hrestApplied, rfl⟩ :=
            List.forall₂_cons_left_iff.1 happlied
          obtain ⟨turns, hturns, hflatten⟩ := ih hrest hlater hmore.symm hrestApplied
          refine ⟨is :: turns, .cons ?_ hturns, congrArg (is ++ ·) hflatten⟩
          cases his with
          | skipped hskipped hcall herror =>
            exact .skipped hc hinterprets.1 hinterprets.2 hcalls hr hcall herror (hid ▸ hskipped)
          | all his =>
            exact .applied hc hinterprets.1 hinterprets.2 hcalls hr hp (hpid.symm.trans hstart) his

end Plan

/-! ## Handlers -/

/-- The place of the handler that a directive belongs to. -/
def Registry.place? (registry : Registry) (name : String) : Option Nat :=
  registry.handlers.findIdx? fun h => h.names.contains name

namespace Desks

variable {settings : Settings} {registry : Registry} {given : List Instruction} {d d' : Desks}
  {i : Instruction}

/-- Every instruction given went to the handler that its directive belongs to, and to no other:
    on its desk are the edits that the handler makes of these instructions, in order. -/
structure Served (settings : Settings) (registry : Registry) (given : List Instruction) (d : Desks) :
    Prop where
  handlers : d.desks.map Desk.handler = registry.handlers
  place : ∀ i ∈ given, (registry.place? i.name.toString).isSome
  edits : ∀ k desk, d.desks[k]? = some desk → ∃ outcomes : List (Option Edit),
    List.Forall₂ (fun i outcome => desk.handler.accept settings i = .ok outcome)
      (given.filter fun i => registry.place? i.name.toString = some k) outcomes ∧
    desk.edits = outcomes.flatMap Option.toList

theorem served_desks (settings : Settings) (registry : Registry) :
    Served settings registry [] registry.desks where
  handlers := by simp [Registry.desks, Function.comp_def]
  place := by simp
  edits k desk hdesk := by
    obtain ⟨h, -, rfl⟩ := List.mem_map.1 (List.mem_of_getElem? hdesk)
    exact ⟨[], .nil, rfl⟩

/-- One more instruction. -/
theorem Served.accept (h : d.Served settings registry given) (hi : d.accept settings i = .ok d') :
    d'.Served settings registry (given ++ [i]) := by
  obtain ⟨before, desk, after, edit, hd, hbefore, hname, hedit, hd'⟩ := exists_of_accept hi
  have hplace : registry.place? i.name.toString = some before.length := by
    have hnone : before.findIdx? ((fun h => h.names.contains i.name.toString) ∘ Desk.handler) =
        none := List.findIdx?_eq_none_iff.2 hbefore
    rw [Registry.place?, ← h.handlers, hd, List.findIdx?_map, List.findIdx?_append, hnone,
      List.findIdx?_cons, Function.comp_apply, if_pos hname]
    simp
  refine ⟨(map_handler_accept hi).trans h.handlers, fun j hj => ?_, fun k desk' hdesk' => ?_⟩
  · rcases List.mem_append.1 hj with hj | hj
    · exact h.place j hj
    · rw [List.mem_singleton.1 hj, hplace]
      rfl
  · rw [List.filter_append]
    by_cases hk : k = before.length
    · subst hk
      obtain rfl : { desk with edits := desk.edits ++ edit.toList } = desk' := by
        simpa [hd'] using hdesk'
      obtain ⟨outcomes, houtcomes, hedits⟩ := h.edits before.length desk (by simp [hd])
      refine ⟨outcomes ++ [edit], List.rel_append houtcomes ?_, by simp [hedits]⟩
      simpa [hplace] using hedit
    · have hsame : d'.desks[k]? = d.desks[k]? := by
        rw [hd, hd', List.getElem?_append, List.getElem?_append]
        split
        · rfl
        · obtain ⟨n, hn⟩ : ∃ n, k - before.length = n + 1 := ⟨k - before.length - 1, by omega⟩
          rw [hn, List.getElem?_cons_succ, List.getElem?_cons_succ]
      obtain ⟨outcomes, houtcomes, hedits⟩ := h.edits k desk' (hsame ▸ hdesk')
      refine ⟨outcomes, ?_, hedits⟩
      rw [List.filter_cons_of_neg (by simp [hplace, Ne.symm hk]), List.filter_nil, List.append_nil]
      exact houtcomes

/-- Instructions one after the other. -/
theorem Served.foldlM_accept {is : List Instruction} (h : d.Served settings registry given)
    (his : is.foldlM (Desks.accept settings) d = .ok d') :
    d'.Served settings registry (given ++ is) := by
  induction is generalizing d given with
  | nil =>
    cases his
    rwa [List.append_nil]
  | cons i is ih =>
    rw [List.foldlM_cons] at his
    obtain ⟨next, hi, his⟩ := Except.bind_eq_ok.1 his
    rw [List.append_cons]
    exact ih (h.accept hi) his

/-- An edit on a desk was made of an instruction for its handler. -/
theorem Served.exists_of_mem_editsAt (h : d.Served settings registry given) {k : Nat}
    {edit : Edit} (hedit : edit ∈ d.editsAt k) : ∃ i ∈ given, ∃ handler,
      registry.handlers[k]? = some handler ∧ registry.place? i.name.toString = some k ∧
        handler.accept settings i = .ok (some edit) := by
  obtain ⟨desk, hdesk, hedit⟩ := mem_editsAt_iff.1 hedit
  obtain ⟨outcomes, houtcomes, hedits⟩ := h.edits k desk hdesk
  rw [hedits, List.mem_flatMap] at hedit
  obtain ⟨outcome, houtcome, hedit⟩ := hedit
  obtain ⟨i, hi, hi'⟩ := houtcomes.exists_of_mem_right houtcome
  obtain ⟨hgiven, hplace⟩ := List.mem_filter.1 hi
  obtain rfl := Option.mem_toList.1 hedit
  refine ⟨i, hgiven, desk.handler, ?_, of_decide_eq_true hplace, hi'⟩
  rw [← h.handlers, List.getElem?_map, hdesk]
  rfl

/-- What the handler of an instruction makes of it is on its desk. -/
theorem Served.exists_outcome (h : d.Served settings registry given) {i : Instruction}
    (hi : i ∈ given) {k : Nat} (hplace : registry.place? i.name.toString = some k)
    {handler : Handler} (hhandler : registry.handlers[k]? = some handler) :
    ∃ outcome, handler.accept settings i = .ok outcome ∧ ∀ edit ∈ outcome, edit ∈ d.editsAt k := by
  rw [← h.handlers, List.getElem?_map, Option.map_eq_some_iff] at hhandler
  obtain ⟨desk, hdesk, rfl⟩ := hhandler
  obtain ⟨outcomes, houtcomes, hedits⟩ := h.edits k desk hdesk
  obtain ⟨outcome, houtcome, haccept⟩ :=
    houtcomes.exists_of_mem_left (List.mem_filter.2 ⟨hi, decide_eq_true hplace⟩)
  refine ⟨outcome, haccept, fun edit hedit => ?_⟩
  rw [editsAt, hdesk, Option.elim_some, hedits]
  exact List.mem_flatMap.2 ⟨outcome, houtcome, Option.mem_toList.2 hedit⟩

end Desks

/-- The commitment of the handler does not touch the number of directives applied. -/
def Handler.KeepsApplied (h : Handler) : Prop :=
  ∀ (f : Filler) (edits : List Edit), (h.commit f edits).Keeps Report.directivesApplied

theorem Registry.keepsApplied_of_mem_builtin {h : Handler} (hh : h ∈ builtin.handlers) :
    h.KeepsApplied := by
  have hpass : ∀ pass : Pass, pass.CountsElsewhere Report.directivesApplied := by
    intro pass
    cases pass <;> simp [Pass.CountsElsewhere, Report.addExpressions]
  have hperform : ∀ (pass : Pass) (f : Filler) (edits : List Edit),
      (edits.forM (pass.perform f)).Keeps Report.directivesApplied := fun pass f edits =>
    .forM fun edit _ => Pass.keeps_perform (hpass pass) edit
  intro f edits
  rcases mem_builtin.1 hh with rfl | rfl | rfl | rfl
  · exact (hperform .paragraphs f edits).bind fun _ =>
      (hperform .rows f edits).bind fun _ => hperform .tables f edits
  · exact hperform .repetitions f edits
  · exact hperform .words f edits
  · exact hperform .fills f edits

/-! ## Fillings -/

/-- The comments dispatched at a node, with their sites. -/
theorem Plan.exists_of_mem_dispatches {plan : Plan} {nodes : List Placed} {d : Site × List Call}
    (h : d ∈ plan.dispatches nodes) : ∃ p around, ⟨.paragraph p, around⟩ ∈ nodes ∧
      d.1.region.start = p.id ∧ d.1 = ⟨d.1.region, p.id, p.text, around.head?⟩ := by
  obtain ⟨⟨p | id | id, around⟩, hp, hd⟩ := List.mem_flatMap.1 h
  · obtain ⟨entry, hentry, rfl⟩ := List.mem_map.1 hd
    exact ⟨p, around, hp, of_decide_eq_true (List.mem_filter.1 hentry).2, rfl⟩
  · cases hd
  · cases hd

namespace Engine

variable {e : Engine} {f : Filler} {scope : Value} {doc doc' : Document} {report : Report}
  {s : Stage}

/-- Up to the edits of a filling, all entries of the plan have been dispatched, in order. -/
theorem exists_applied (h : e.stage f scope doc = .ok s) :
    ∃ applied, List.Forall₂ (s.AppliesEntry e scope) s.plan.entries applied ∧
      applied.flatten.foldlM (Desks.accept e.settings) e.registry.desks = .ok s.visit.desks ∧
      s.visit.report.directivesApplied = UInt32.ofNat applied.flatten.length ∧
      s.plan.skipped ⊆ s.visit.skipped := by
  obtain ⟨hplan, body, hvisit, hdoc⟩ := exists_of_stage h
  obtain ⟨hvisited, start, hdesks, hskipped, hreport, hfold⟩ := visitAll_views views_applyStep hvisit
  rw [← hdoc] at hvisited hfold
  obtain ⟨hsub, applied, happlied, haccept, hnumber⟩ := exists_of_foldlM_applyStep hfold
  rw [hskipped] at hsub
  rw [hdesks] at haccept
  rw [hreport, UInt32.zero_add] at hnumber
  have hentries : (s.plan.dispatches s.document.outline).map (fun d => (d.1.region, d.2)) =
      s.plan.entries :=
    Plan.map_dispatches hplan inOrder_prepared (hvisited.imp fun _ _ => Placed.Visited.becomes)
  refine ⟨applied, ?_, haccept, hnumber, hsub⟩
  rw [← hentries, List.forall₂_map_left_iff]
  refine happlied.imp_of_mem fun d hd is his => ?_
  obtain ⟨p, around, hp, hstart, hsite⟩ := Plan.exists_of_mem_dispatches hd
  refine ⟨p, around, hp, hstart, ?_⟩
  rw [← hsite]
  exact his

/-- Up to the edits of a filling, every start of a comment has had its turn. -/
theorem exists_turns (h : e.stage f scope doc = .ok s) :
    ∃ turns, s.Turns e scope (e.prepared doc) [] (e.prepared doc).rangeStarts turns ∧
      turns.flatten.foldlM (Desks.accept e.settings) e.registry.desks = .ok s.visit.desks ∧
      s.visit.report.directivesApplied = UInt32.ofNat turns.flatten.length := by
  obtain ⟨hplan, -⟩ := exists_of_stage h
  obtain ⟨applied, happlied, haccept, hnumber, hsub⟩ := exists_applied h
  obtain ⟨turns, hturns, hflatten⟩ := Plan.exists_turns (fun _ hstart => hstart) hplan hsub
    (List.nil_append _).symm happlied
  rw [← hflatten] at haccept hnumber
  exact ⟨turns, hturns, haccept, hnumber⟩

/-- In a filling that succeeds, every start of a comment has its turn, in reading order. The
    instructions that are applied then, and no others, have gone to the handlers of their
    directives, one after the other, and the report has their number, if the handlers do not
    change it. -/
theorem applied_once (h : e.fill scope doc = .ok (doc', report)) :
    ∃ (f : Filler) (s : Stage) (turns : List (List Instruction)),
      e.filler = .ok f ∧ e.stage f scope doc = .ok s ∧
      s.Turns e scope (e.prepared doc) [] (e.prepared doc).rangeStarts turns ∧
      turns.flatten.foldlM (Desks.accept e.settings) e.registry.desks = .ok s.visit.desks ∧
      s.visit.desks.Served e.settings e.registry turns.flatten ∧
      ((∀ handler ∈ e.registry.handlers, handler.KeepsApplied) →
        report.directivesApplied = UInt32.ofNat turns.flatten.length) := by
  rw [fill_eq] at h
  obtain ⟨f, hf, h⟩ := Except.bind_eq_ok.1 h
  obtain ⟨s, hs, h⟩ := Except.bind_eq_ok.1 h
  obtain ⟨draft, hdraft, h⟩ := Except.bind_eq_ok.1 h
  cases h
  obtain ⟨turns, hturns, haccept, hcount⟩ := exists_turns hs
  have hserved : s.visit.desks.Served e.settings e.registry turns.flatten :=
    (Desks.served_desks e.settings e.registry).foldlM_accept haccept
  refine ⟨f, s, turns, hf, hs, hturns, haccept, hserved, fun hkeeps => ?_⟩
  have hcommit : (s.visit.desks.commit f).Keeps Report.directivesApplied :=
    Revision.Keeps.forM fun desk hdesk =>
      hkeeps _ (hserved.handlers ▸ List.mem_map_of_mem hdesk) f desk.edits
  obtain ⟨_, hrun, hdraft⟩ := Except.map_eq_ok.1 hdraft
  have hkept := hcommit ⟨s.document, s.visit.report⟩ () draft (Prod.ext hrun hdraft)
  exact hkept.trans hcount

/-- A letter with a comment around two paragraphs, one in which an argument has no value, and a
    list that is repeated, with a comment in it. -/
def annotated : Document where
  body := [.paragraph { content := [.rangeStart 1, .rangeStart 2, .run (.ofText "Dear all"),
      .rangeEnd 2] },
    .paragraph { content := [.rangeStart 1, .run (.ofText "in short"), .rangeEnd 1] },
    .paragraph { content := [.rangeStart 3, .rangeStart 4, .run (.ofText "* $\x7bid\x7d"),
      .rangeEnd 4, .rangeEnd 3] }]
  comments := [.ofText 1 "displayParagraphIf(true) displayParagraphIfPresent(items)",
    .ofText 2 "displayParagraphIf(missing.value)", .ofText 3 "repeatParagraph(items)",
    .ofText 4 "displayParagraphIf(false)"]

/-- What is filled in. -/
def annotatedData : Value :=
  .ofEntries [("items", .list [.ofEntries [("id", .int 1)], .ofEntries [("id", .int 2)]])]

/-- Comment 1 starts twice and applies two directives each time, comment 2 is skipped, comment 3
    applies one, and comment 4 starts in its region. -/
theorem applied_once_annotated : ∃ doc' report, ∃ turns : List (List Instruction),
    lenient.fill annotatedData annotated = .ok (doc', report) ∧
      doc'.paragraphs.map Paragraph.text = ["Dear all", "in short", "* 1", "* 2"] ∧
      report.directivesApplied = 5 ∧ report.directivesApplied = UInt32.ofNat turns.flatten.length ∧
      ∃ (f : Filler) (s : Stage), lenient.stage f annotatedData annotated = .ok s ∧
        s.Turns lenient annotatedData (lenient.prepared annotated) []
          (lenient.prepared annotated).rangeStarts turns := by
  obtain ⟨⟨doc', report⟩, hfill, htexts, hnumber⟩ : ∃ r, lenient.fill annotatedData annotated = .ok r ∧
      r.1.paragraphs.map Paragraph.text = ["Dear all", "in short", "* 1", "* 2"] ∧
        r.2.directivesApplied = 5 :=
    Except.exists_of_toOption (by decide +kernel)
  obtain ⟨f, s, turns, -, hs, hturns, -, -, hcount⟩ := applied_once hfill
  exact ⟨doc', report, turns, hfill, htexts, hnumber,
    hcount fun _ => Registry.keepsApplied_of_mem_builtin, f, s, hs, hturns⟩

end Engine

end DocTemplate
