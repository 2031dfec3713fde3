import DocTemplate.Engine.Fill
import DocTemplate.Proofs.Directive.Dispatch
import DocTemplate.Proofs.Placeholder.Blocks

/-!
# The visit

The visit to the paragraphs of a document does two things that do not depend on
each other: it fills the paragraphs that are not deferred, one by one, and it
dispatches comments, in the order of the paragraphs in which they start. What it
dispatches them with is the filled document (`Plan.dispatches`).

* `Engine.visitAll_spec`: node by node, what the visit makes of the document, and the
  dispatches, one after the other (`Engine.visitAll_views`, for any part of the state);
* `Engine.report_visitAll`: what the visit does not count;
* `Engine.visitAll_congr`: what the visit evaluates;
* `Engine.Dispatched`: what has become of a comment that was dispatched;
* `Engine.traces_foldlM_dispatchStep`: where the edits on the desks come from.
-/

namespace DocTemplate

/-- The node after a visit: a paragraph that is not deferred is filled. -/
def Placed.Visited (filler : Filler) (scope : Value) (deferred : List NodeId) (e e' : Placed) :
    Prop :=
  e'.around = e.around ∧
    match e.node, e'.node with
    | .paragraph p, .paragraph q =>
      if deferred.contains p.id then q = p else ∃ tally, filler.fillParagraph scope p = .ok (q, tally)
    | node, node' => node' = node

/-- A node that was visited has the same number, and is the same but for the runs. -/
theorem Placed.Visited.becomes {filler : Filler} {scope : Value} {deferred : List NodeId}
    {e e' : Placed} (h : e.Visited filler scope deferred e') :
    e.Becomes (fun _ => Paragraph.Refilled) e' := by
  rcases e with ⟨p | id | id, around⟩ <;> rcases e' with ⟨q | id' | id', around'⟩
  all_goals (obtain ⟨haround, hnode⟩ := h; obtain rfl := haround; dsimp only at hnode)
  · split at hnode
    · obtain rfl := hnode
      exact .paragraph rfl ⟨rfl, rfl, rfl⟩
    · obtain ⟨tally, hfill⟩ := hnode
      have hframe := Filler.fillParagraph_frame hfill
      exact .paragraph hframe.1 hframe
  · cases hnode
  · cases hnode
  · cases hnode
  · cases hnode
    exact .table
  · cases hnode
  · cases hnode
  · cases hnode
  · cases hnode
    exact .row

/-- The comments to be dispatched at a node, each with its site. -/
def Plan.dispatchesAt (plan : Plan) : Placed → List (Site × List Call)
  | ⟨.paragraph q, around⟩ => (plan.entriesAt q.id).map fun (region, calls) =>
      (⟨region, q.id, q.text, around.head?⟩, calls)
  | _ => []

/-- The comments to be dispatched at some nodes. -/
def Plan.dispatches (plan : Plan) (nodes : List Placed) : List (Site × List Call) :=
  nodes.flatMap plan.dispatchesAt

namespace Engine

variable (e : Engine) (scope : Value)

/-- The dispatch of a comment, reports aside: the desks and the comments skipped. -/
def dispatchStep (state : Desks × List CommentId) (d : Site × List Call) :
    Except Error (Desks × List CommentId) := do
  match ← state.1.dispatch e.environment e.settings scope d.1 d.2 with
  | some (_, desks) => return (desks, state.2)
  | none => return (state.1, state.2.insert d.1.region.id)

/-- A view of the visit does not see how paragraphs are filled, and each dispatch is a step
    for it. -/
structure Views {σ : Type} (view : Visit → σ) (step : σ → Site × List Call → Except Error σ) :
    Prop where
  filled (v : Visit) (resolved recovered : UInt32) :
    view { v with report := v.report.addExpressions resolved recovered } = view v
  dispatched {site : Site} {calls : List Call} {v v' : Visit}
    (h : e.dispatch scope site calls v = .ok v') : step (view v) (site, calls) = .ok (view v')

variable {e scope} {filler : Filler} {plan : Plan}

theorem dispatchStep_of_dispatch {site : Site} {calls : List Call} {v v' : Visit}
    (h : e.dispatch scope site calls v = .ok v') :
    e.dispatchStep scope (v.desks, v.skipped) (site, calls) = .ok (v'.desks, v'.skipped) := by
  rw [dispatch] at h
  rw [dispatchStep]
  obtain ⟨outcome, houtcome, h⟩ := Except.bind_eq_ok.1 h
  refine Except.bind_eq_ok.2 ⟨outcome, houtcome, ?_⟩
  rcases outcome with _ | ⟨n, desks⟩ <;> cases h <;> rfl

theorem views_dispatchStep :
    e.Views scope (fun v => (v.desks, v.skipped)) (e.dispatchStep scope) where
  filled _ _ _ := rfl
  dispatched := dispatchStep_of_dispatch

section Views

variable {σ : Type} {view : Visit → σ} {step : σ → Site × List Call → Except Error σ}

/-- The dispatches at a paragraph. -/
theorem dispatchAll_of_forIn (hview : e.Views scope view step) {q : Paragraph} {around : List CellPosition}
    {entries : List (Region × List Call)} {v v' : Visit} {u : PUnit}
    (h : StateT.run (forIn entries PUnit.unit fun (region, calls) _ => do
        let site : Site := ⟨region, q.id, q.text, around.head?⟩
        set (← liftM (e.dispatch scope site calls (← get)))
        pure (ForInStep.yield PUnit.unit) : StateT Visit (Except Error) PUnit) v = .ok (u, v')) :
    (entries.map fun (region, calls) =>
        ((⟨region, q.id, q.text, around.head?⟩ : Site), calls)).foldlM step (view v) =
      .ok (view v') := by
  induction entries generalizing v with
  | nil =>
    obtain ⟨-, rfl⟩ := StateT.run_pure_eq_ok.1 h
    rfl
  | cons entry entries ih =>
    rw [List.forIn_cons] at h
    obtain ⟨step, v₁, hstep, hrest⟩ := StateT.run_bind_eq_ok.1 h
    obtain ⟨_, _, hget, h₁⟩ := StateT.run_bind_eq_ok.1 hstep
    obtain ⟨rfl, rfl⟩ := StateT.run_get_eq_ok.1 hget
    obtain ⟨v₂, _, hlift, h₂⟩ := StateT.run_bind_eq_ok.1 h₁
    obtain ⟨hdispatch, rfl⟩ := StateT.run_liftM_eq_ok.1 hlift
    obtain ⟨_, _, hset, h₃⟩ := StateT.run_bind_eq_ok.1 h₂
    obtain rfl := StateT.run_set_eq_ok.1 hset
    obtain ⟨rfl, rfl⟩ := StateT.run_pure_eq_ok.1 h₃
    rw [List.map_cons, List.foldlM_cons]
    exact Except.bind_eq_ok.2 ⟨_, hview.dispatched hdispatch, ih hrest⟩

/-- The visit to a node: it fills the node, and then dispatches the comments there. -/
theorem run_visit (hview : e.Views scope view step) {node node' : Placed} {v v' : Visit}
    (h : (node.visit (e.visit filler scope plan)).run v = .ok (node', v')) :
    node.Visited filler scope plan.deferred node' ∧
      (plan.dispatchesAt node').foldlM step (view v) = .ok (view v') := by
  rcases node with ⟨p | id | id, around⟩
  · obtain ⟨q, v₁, hvisit, hpure⟩ := StateT.run_bind_eq_ok.1 h
    obtain ⟨rfl, rfl⟩ := StateT.run_pure_eq_ok.1 hpure
    obtain ⟨q', v₂, hfill, hrest⟩ := StateT.run_bind_eq_ok.1 hvisit
    obtain ⟨u, v₃, hfor, hpure'⟩ := StateT.run_bind_eq_ok.1 hrest
    obtain ⟨rfl, rfl⟩ := StateT.run_pure_eq_ok.1 hpure'
    have hdispatch := dispatchAll_of_forIn hview hfor
    rw [fillParagraph] at hfill
    by_cases hdeferred : plan.deferred.contains p.id
    · rw [if_pos hdeferred] at hfill
      obtain ⟨rfl, rfl⟩ := StateT.run_pure_eq_ok.1 hfill
      exact ⟨⟨rfl, by simp only [if_pos hdeferred]⟩, hdispatch⟩
    · rw [if_neg hdeferred] at hfill
      obtain ⟨⟨filled, tally⟩, _, hlift, h₁⟩ := StateT.run_bind_eq_ok.1 hfill
      obtain ⟨hfilled, rfl⟩ := StateT.run_liftM_eq_ok.1 hlift
      obtain ⟨_, _, hmodify, h₂⟩ := StateT.run_bind_eq_ok.1 h₁
      obtain rfl := StateT.run_modify_eq_ok.1 hmodify
      obtain ⟨rfl, rfl⟩ := StateT.run_pure_eq_ok.1 h₂
      rw [hview.filled] at hdispatch
      exact ⟨⟨rfl, by simp only [if_neg hdeferred]; exact ⟨tally, hfilled⟩⟩, hdispatch⟩
  · obtain ⟨rfl, rfl⟩ := StateT.run_pure_eq_ok.1 h
    exact ⟨⟨rfl, rfl⟩, rfl⟩
  · obtain ⟨rfl, rfl⟩ := StateT.run_pure_eq_ok.1 h
    exact ⟨⟨rfl, rfl⟩, rfl⟩

/-- The visits to some nodes, one after the other. -/
theorem run_mapM_visit (hview : e.Views scope view step) {nodes nodes' : List Placed} {v v' : Visit}
    (h : (nodes.mapM (Placed.visit (e.visit filler scope plan))).run v = .ok (nodes', v')) :
    List.Forall₂ (Placed.Visited filler scope plan.deferred) nodes nodes' ∧
      (plan.dispatches nodes').foldlM step (view v) = .ok (view v') := by
  induction nodes generalizing v nodes' with
  | nil =>
    obtain ⟨rfl, rfl⟩ := StateT.run_pure_eq_ok.1 h
    exact ⟨.nil, rfl⟩
  | cons node nodes ih =>
    obtain ⟨node', v₁, rest, hnode, hrest, rfl⟩ := StateT.run_mapM_cons_eq_ok.1 h
    obtain ⟨hvisited, hdispatch⟩ := run_visit hview hnode
    obtain ⟨hvisited', hdispatch'⟩ := ih hrest
    refine ⟨.cons hvisited hvisited', ?_⟩
    rw [Plan.dispatches, List.flatMap_cons, List.foldlM_append]
    exact Except.bind_eq_ok.2 ⟨_, hdispatch, hdispatch'⟩

/-- What the visit makes of a document, and its dispatches as steps for a view. -/
theorem visitAll_views (hview : e.Views scope view step) {doc : Document} {merged : Nat}
    {body : List Block} {v : Visit} (h : e.visitAll filler scope plan doc merged = .ok (body, v)) :
    List.Forall₂ (Placed.Visited filler scope plan.deferred) doc.outline
        ({ doc with body } : Document).outline ∧
      ∃ start : Visit, start.desks = e.registry.desks ∧ start.skipped = plan.skipped ∧
        start.report = { runsMerged := UInt32.ofNat merged,
                         directivesSkipped := UInt32.ofNat plan.skipped.length } ∧
          (plan.dispatches ({ doc with body } : Document).outline).foldlM step (view start) =
            .ok (view v) := by
  unfold visitAll at h
  dsimp only at h
  generalize hstart : ({ desks := e.registry.desks, skipped := plan.skipped, report := _ } : Visit) =
    start at h
  have hrun : (doc.outline.mapM (Placed.visit (e.visit filler scope plan))).run start =
      .ok (({ doc with body } : Document).outline, v) := by
    rw [Document.outline, ← Block.outlineOf_walkAll, StateT.run_map, h]
    rfl
  obtain ⟨hvisited, hdispatches⟩ := run_mapM_visit hview hrun
  subst hstart
  exact ⟨hvisited, _, rfl, rfl, rfl, hdispatches⟩

end Views

/-- What the visit makes of a document, and its dispatches. -/
theorem visitAll_spec {doc : Document} {merged : Nat} {body : List Block} {v : Visit}
    (h : e.visitAll filler scope plan doc merged = .ok (body, v)) :
    List.Forall₂ (Placed.Visited filler scope plan.deferred) doc.outline
        ({ doc with body } : Document).outline ∧
      (plan.dispatches ({ doc with body } : Document).outline).foldlM (e.dispatchStep scope)
        (e.registry.desks, plan.skipped) = .ok (v.desks, v.skipped) := by
  obtain ⟨hvisited, start, hdesks, hskipped, -, hdispatches⟩ :=
    visitAll_views views_dispatchStep h
  rw [hdesks, hskipped] at hdispatches
  exact ⟨hvisited, hdispatches⟩

/-- The visit counts expressions and comments, and no edits. -/
theorem report_visitAll {γ : Type} {part : Report → γ}
    (hexpressions : ∀ r resolved recovered, part (Report.addExpressions r resolved recovered) = part r)
    (happlied : ∀ (r : Report) n, part { r with directivesApplied := n } = part r)
    (hskipped : ∀ (r : Report) n, part { r with directivesSkipped := n } = part r)
    (hmerged : ∀ (r : Report) n, part { r with runsMerged := n } = part r)
    {doc : Document} {merged : Nat} {body : List Block} {v : Visit}
    (h : e.visitAll filler scope plan doc merged = .ok (body, v)) : part v.report = part {} := by
  have hview : e.Views scope (fun v => part v.report) fun counted _ => .ok counted :=
    { filled := fun v => hexpressions v.report
      dispatched := fun {site calls v v'} h => by
        obtain ⟨outcome, -, h⟩ := Except.bind_eq_ok.1 h
        cases outcome with
        | none =>
          cases h
          exact congrArg Except.ok (hskipped _ _).symm
        | some outcome =>
          cases h
          exact congrArg Except.ok (happlied _ _).symm }
  obtain ⟨-, start, -, -, hstart, hfold⟩ := visitAll_views hview h
  have hcounted : part v.report = part start.report :=
    Except.foldlM_induction (P := fun counted => counted = part start.report)
      (fun counted _ next hcounted hstep => (Except.ok.inj hstep).symm.trans hcounted) rfl hfold
  have hzero := hskipped { runsMerged := UInt32.ofNat merged } (UInt32.ofNat plan.skipped.length)
  rw [hcounted, hstart]
  exact hzero.trans (hmerged {} _)

/-- The visit depends on the filler by what it makes of the paragraphs that are not
    deferred. -/
theorem visitAll_congr {g : Filler} {doc : Document} {merged : Nat}
    (h : ∀ p ∈ doc.paragraphs, plan.deferred.contains p.id = false →
      g.fillParagraph scope p = filler.fillParagraph scope p) :
    e.visitAll g scope plan doc merged = e.visitAll filler scope plan doc merged := by
  have hwalk : Block.walkAll (e.visit g scope plan) doc.body =
      Block.walkAll (e.visit filler scope plan) doc.body := by
    refine Block.walkAll_congr fun around p hp => ?_
    have hfill : fillParagraph g scope plan p = fillParagraph filler scope plan p := by
      unfold fillParagraph
      cases hdeferred : plan.deferred.contains p.id with
      | true => rfl
      | false =>
        have hmem : p ∈ doc.paragraphs := by
          rw [Document.paragraphs_eq_outline]
          exact List.mem_filterMap.2 ⟨_, hp, rfl⟩
        rw [h p hmem hdeferred]
    rw [visit, visit, hfill]
  rw [visitAll, visitAll, hwalk]

/-! ## What a visit keeps -/

section Preserves

variable {P : Visit → Prop} {Q : Error → Prop}

/-- What filling a paragraph and dispatching a comment keep, the visit to a paragraph keeps. -/
theorem preserves_visit
    (hreport : ∀ v resolved recovered, P v →
      P { v with report := v.report.addExpressions resolved recovered })
    (hdispatch : ∀ site calls v v', P v → e.dispatch scope site calls v = .ok v' → P v')
    (hfails : ∀ p error, filler.fillParagraph scope p = .error error → Q error)
    (hdispatchFails : ∀ site calls v error, P v → e.dispatch scope site calls v = .error error →
      Q error)
    (around : List CellPosition) (p : Paragraph) :
    StateT.Preserves P Q (e.visit filler scope plan around p) := by
  have hfill : StateT.Preserves P Q (fillParagraph filler scope plan p) := by
    rw [fillParagraph]
    split
    · exact StateT.preserves_pure _
    · exact (StateT.preserves_liftM (hfails p)).bind fun (q, tally) =>
        (StateT.preserves_modify fun v hv => hreport v _ _ hv).bind fun _ => StateT.preserves_pure q
  -- After the filling, one dispatch for each entry; one that fails ends the visit.
  refine hfill.bind fun q => ?_
  refine (StateT.preserves_forIn (fun entry _ u => ⟨fun hv h => ?_, fun hv h => ?_⟩) _).bind
    fun _ => StateT.preserves_pure _
  · obtain ⟨_, _, hget, h₁⟩ := StateT.run_bind_eq_ok.1 h
    obtain ⟨rfl, rfl⟩ := StateT.run_get_eq_ok.1 hget
    obtain ⟨_, _, hlift, h₂⟩ := StateT.run_bind_eq_ok.1 h₁
    obtain ⟨hd, rfl⟩ := StateT.run_liftM_eq_ok.1 hlift
    obtain ⟨_, _, hset, h₃⟩ := StateT.run_bind_eq_ok.1 h₂
    obtain rfl := StateT.run_set_eq_ok.1 hset
    obtain ⟨-, rfl⟩ := StateT.run_pure_eq_ok.1 h₃
    exact hdispatch _ _ _ _ hv hd
  · rcases StateT.run_bind_eq_error.1 h with h₁ | ⟨_, _, hget, h₁⟩
    · cases h₁
    obtain ⟨rfl, rfl⟩ := StateT.run_get_eq_ok.1 hget
    rcases StateT.run_bind_eq_error.1 h₁ with h₂ | ⟨_, _, -, h₂⟩
    · exact hdispatchFails _ _ _ _ hv (StateT.run_liftM_eq_error.1 h₂)
    · cases h₂

/-- What the visits to paragraphs keep, a walk keeps. -/
theorem preserves_walkAll {σ : Type} {P : σ → Prop}
    {visit : List CellPosition → Paragraph → StateT σ (Except Error) Paragraph}
    (hvisit : ∀ around p, StateT.Preserves P Q (visit around p)) (blocks : List Block) :
    StateT.Preserves P Q (Block.walkAll visit blocks) := by
  have hvisits : StateT.Preserves P Q ((Block.outlineOf blocks []).mapM (Placed.visit visit)) := by
    refine StateT.preserves_mapM fun node _ => ?_
    rcases node with ⟨p | id | id, around⟩
    · exact (hvisit around p).bind fun _ => StateT.preserves_pure _
    · exact StateT.preserves_pure _
    · exact StateT.preserves_pure _
  rw [← Block.outlineOf_walkAll] at hvisits
  refine ⟨fun {s s' a} hs h => hvisits.ok (a := Block.outlineOf a []) hs ?_,
    fun hs h => hvisits.error hs ?_⟩
  · rw [StateT.run_map, h]
    rfl
  · rw [StateT.run_map, h]
    rfl

end Preserves

/-! ## What becomes of a comment -/

/-- A comment that was dispatched is skipped, or its calls have instructions at the
    site, all of which the desks have taken. -/
def Dispatched (e : Engine) (scope : Value) (d : Site × List Call)
    (state : Desks × List CommentId) : Prop :=
  (Call.instructions e.environment e.settings scope d.1 d.2 = .ok none ∧
      d.1.region.id ∈ state.2) ∨
    ∃ is, Call.instructions e.environment e.settings scope d.1 d.2 = .ok (some is) ∧
      ∀ i ∈ is, state.1.Holds e.settings i

variable {state state' : Desks × List CommentId} {d : Site × List Call}
  {ds : List (Site × List Call)}

/-- What is on the desks stays, and so do the comments skipped. -/
theorem dispatchStep_spec (h : e.dispatchStep scope state d = .ok state') :
    state.1.Extends state'.1 ∧ state.2 ⊆ state'.2 ∧ e.Dispatched scope d state' := by
  obtain ⟨outcome, houtcome, h⟩ := Except.bind_eq_ok.1 h
  obtain ⟨is, his, houtcome⟩ := Except.bind_eq_ok.1 houtcome
  cases is with
  | none =>
    cases houtcome
    cases h
    exact ⟨.refl _, fun _ => List.mem_insert_of_mem, .inl ⟨his, List.mem_insert_self⟩⟩
  | some is =>
    obtain ⟨desks, hdesks, houtcome⟩ := Except.bind_eq_ok.1 houtcome
    cases houtcome
    cases h
    obtain ⟨hext, hholds⟩ := Desks.holds_foldlM_accept hdesks
    exact ⟨hext, List.Subset.refl _, .inr ⟨is, his, hholds⟩⟩

theorem Dispatched.mono (h : e.Dispatched scope d state) (hext : state.1.Extends state'.1)
    (hsub : state.2 ⊆ state'.2) : e.Dispatched scope d state' := by
  rcases h with ⟨hnone, hmem⟩ | ⟨is, his, hholds⟩
  · exact .inl ⟨hnone, hsub hmem⟩
  · exact .inr ⟨is, his, fun i hi => (hholds i hi).mono hext⟩

/-- Every comment of a sequence of dispatches has been dispatched in the end. -/
theorem foldlM_dispatchStep_spec (h : ds.foldlM (e.dispatchStep scope) state = .ok state') :
    state.1.Extends state'.1 ∧ state.2 ⊆ state'.2 ∧ ∀ d ∈ ds, e.Dispatched scope d state' := by
  induction ds generalizing state with
  | nil =>
    cases h
    exact ⟨.refl _, List.Subset.refl _, by simp⟩
  | cons d ds ih =>
    rw [List.foldlM_cons] at h
    obtain ⟨next, hd, h⟩ := Except.bind_eq_ok.1 h
    obtain ⟨hext, hsub, hdispatched⟩ := dispatchStep_spec hd
    obtain ⟨hext', hsub', hdispatched'⟩ := ih h
    refine ⟨hext.trans hext', List.Subset.trans hsub hsub', fun d' hd' => ?_⟩
    rcases List.mem_cons.1 hd' with rfl | hd'
    · exact hdispatched.mono hext' hsub'
    · exact hdispatched' d' hd'

/-- All edits on the desks come from instructions of the comments dispatched. -/
theorem traces_foldlM_dispatchStep {handlers : List Handler} {given : Instruction → Prop}
    (hds : ∀ d ∈ ds, ∀ is, Call.instructions e.environment e.settings scope d.1 d.2 =
      .ok (some is) → ∀ i ∈ is, given i)
    (hstate : Desks.Traces e.settings handlers given state.1)
    (h : ds.foldlM (e.dispatchStep scope) state = .ok state') :
    Desks.Traces e.settings handlers given state'.1 := by
  induction ds generalizing state with
  | nil =>
    cases h
    exact hstate
  | cons d ds ih =>
    rw [List.foldlM_cons] at h
    obtain ⟨next, hd, h⟩ := Except.bind_eq_ok.1 h
    refine ih (fun d hd => hds d (List.mem_cons_of_mem _ hd)) ?_ h
    obtain ⟨outcome, houtcome, hd⟩ := Except.bind_eq_ok.1 hd
    obtain ⟨is, his, houtcome⟩ := Except.bind_eq_ok.1 houtcome
    cases is with
    | none =>
      cases houtcome
      cases hd
      exact hstate
    | some is =>
      obtain ⟨desks, hdesks, houtcome⟩ := Except.bind_eq_ok.1 houtcome
      cases houtcome
      cases hd
      exact hstate.foldlM_accept (hds d List.mem_cons_self is his) hdesks

end Engine

end DocTemplate
