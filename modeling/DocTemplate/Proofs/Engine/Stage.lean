import DocTemplate.Proofs.Comment.Region
import DocTemplate.Proofs.Comment.Removal
import DocTemplate.Proofs.Directive.Move
import DocTemplate.Proofs.Engine.Plan
import DocTemplate.Proofs.Engine.Visit

/-!
# Stages

A filling comes to a *stage* before its edits: there is a plan, the paragraphs have been
visited, and every edit that is going to be made has been accepted. From there on all is
a sequence of moves, the removal of comments and that of notes.

* `Engine.fill_eq`, `Engine.exists_stage`: a filling goes through its stage;
* `Stage.Of.nodup_originalIds`: the nodes of the document that is visited are numbered;
* `Stage.Of.given_of_mem_moves`: every move goes back to a comment of the plan;
* `Stage.descends_of_reaches`: what is left of the document at any move;
* `Stage.induction_repetition`: what is left of it at a repetition.
-/

namespace DocTemplate

/-- A filling before its edits. -/
structure Stage where
  plan : Plan
  /-- What came of the visit. -/
  visit : Visit
  /-- The document visited. -/
  document : Document

namespace Engine

variable (e : Engine) (filler : Filler) (scope : Value) (doc : Document)

/-- The document that is going to be visited. -/
def prepared : Document :=
  (doc.assignIds.prepare e.settings).1

/-- The filling up to its edits. -/
def stage : Except Error Stage := do
  let (doc, runsMerged) := doc.assignIds.prepare e.settings
  let plan ← Plan.ofDocument e.registry e.settings doc
  let (body, visit) ← e.visitAll filler scope plan doc runsMerged
  return ⟨plan, visit, { doc with body }⟩

/-- The filling by a filler that need not be that of the engine. -/
def fillWith : Except Error (Document × Report) := do
  let s ← e.stage filler scope doc
  let draft ← commit filler s.visit s.document
  let (doc, _) := draft.document.removeComments s.visit.skipped
  let (doc, notes) := doc.finish e.settings
  return (doc, { draft.report with notesRemoved := UInt32.ofNat notes })

variable {e filler scope doc}

/-- The texts of the paragraphs are as they were, before the visit. -/
theorem map_text_prepared :
    (e.prepared doc).paragraphs.map Paragraph.text = doc.paragraphs.map Paragraph.text := by
  have htext : Paragraph.text = Paragraph.text ∘ Paragraph.unnumbered := rfl
  rw [prepared, (doc.assignIds.tidied_prepare e.settings).map_paragraphs fun _ _ h => h.text, htext,
    ← List.map_map, ← List.map_map, Document.paragraphs_assignIds]

/-- The numbers of the document that is visited are those from 1 to the last one. -/
theorem map_id_prepared :
    (e.prepared doc).outline.map Placed.id = List.range' 1 (e.prepared doc).lastId := by
  have htidied := doc.assignIds.tidied_prepare e.settings
  have hlastId : (e.prepared doc).lastId = doc.assignIds.lastId := htidied.lastId
  rw [hlastId, ← Document.map_id_outline_assignIds]
  exact htidied.map_id_outline

/-! ### Fillers -/

section Filler

variable {f : Filler} (h : e.filler = .ok f)

include h

/-- The filler of an engine is made of what the engine has, with the built-in renderers last. -/
theorem exists_delimiters_of_filler : ∃ delimiters,
    Delimiters.make e.settings.opening e.settings.closing = .ok delimiters ∧
      f = { delimiters, evaluate := e.environment.evaluate,
            renderers := e.renderers ++ Renderer.builtin, settings := e.settings } := by
  obtain ⟨delimiters, hdelimiters, hf⟩ := Except.bind_eq_ok.1 h
  exact ⟨delimiters, hdelimiters, (Except.ok.inj hf).symm⟩

theorem delimiters_filler :
    Delimiters.make e.settings.opening e.settings.closing = .ok f.delimiters := by
  obtain ⟨delimiters, hdelimiters, rfl⟩ := exists_delimiters_of_filler h
  exact hdelimiters

theorem evaluate_filler : f.evaluate = e.environment.evaluate := by
  obtain ⟨delimiters, -, rfl⟩ := exists_delimiters_of_filler h
  rfl

theorem settings_filler : f.settings = e.settings := by
  obtain ⟨delimiters, -, rfl⟩ := exists_delimiters_of_filler h
  rfl

/-- An engine without renderers of its own has the built-in ones. -/
theorem renderers_filler (hrenderers : e.renderers = []) : f.renderers = Renderer.builtin := by
  obtain ⟨delimiters, -, rfl⟩ := exists_delimiters_of_filler h
  simp [hrenderers]

end Filler

/-- A filling is one by the filler of the engine. -/
theorem fill_eq : e.fill scope doc = e.filler >>= fun f => e.fillWith f scope doc := by
  unfold fill fillWith stage
  simp only [bind_assoc, pure_bind]

end Engine

namespace Stage

variable (s : Stage) (f : Filler)

/-- The draft that the edits start with. -/
def start : Draft :=
  ⟨s.document, s.visit.report⟩

/-- The moves to be made. -/
def moves : List Move :=
  s.visit.desks.moves

/-- The move is made at a draft, after those before it. -/
def Reaches (m : Move) (d : Draft) : Prop :=
  Revision.Reaches (Move.perform f) s.moves s.start m d

/-- A table is filled at some move. -/
def Fills (table : NodeId) : Prop :=
  ∃ i data d, s.Reaches f ⟨.fills, .fillTable i data⟩ d ∧
    TableFill.target? d.document i.site = some table

/-- The instruction is of a comment that has an entry in the plan. -/
structure Gives (i : Instruction) : Prop where
  entry : ∃ calls, (i.site.region, calls) ∈ s.plan.entries ∧ i.name ∈ calls.map Call.name
  paragraph : ∃ p around, ⟨.paragraph p, around⟩ ∈ s.document.outline ∧
    i.site.region.start = p.id ∧ i.site.paragraph = p.id ∧ i.site.cell = around.head?

/-! ## What edits leave of the document -/

variable {s f} {m : Move} {d d' : Draft}

/-- A move is a step of descent for the nodes of the document that was visited. -/
theorem descends_perform (hm : s.Reaches f m d)
    (hd : s.document.Descends (Paragraph.Edited (s.Fills f)) s.document.lastId d.document)
    (h : (m.perform f).Yields d () d') :
    s.document.Descends (Paragraph.Edited (s.Fills f)) s.document.lastId d'.document := by
  refine hd.trans Paragraph.Edited.trans (Move.descends hd.lastId_le ?_ h)
  rintro i data rfl table htable
  exact ⟨i, data, d, hm, htable⟩

/-- What is left of the document at any move. -/
theorem descends_of_reaches (h : s.Reaches f m d) :
    s.document.Descends (Paragraph.Edited (s.Fills f)) s.document.lastId d.document :=
  h.induction (fun _ _ _ hm hd hy => descends_perform hm hd hy) (.refl Paragraph.Edited.refl _)

/-- What is left of the document after all moves. -/
theorem descends_of_yields (h : (s.moves.forM (Move.perform f)).Yields s.start () d) :
    s.document.Descends (Paragraph.Edited (s.Fills f)) s.document.lastId d.document :=
  Revision.forM_induction (fun _ _ _ hm hd hy => descends_perform hm hd hy)
    (.refl Paragraph.Edited.refl _) h

/-- What is left of the document at a repetition is as it was; and what the moves before it
    keep, all of them in passes before the last two, holds there. -/
theorem induction_repetition {P : Draft → Prop} (h : s.Reaches f m d)
    (hm : m.pass = .repetitions)
    (hstep : ∀ m d d', m ∈ s.moves → m.pass ≠ .words → m.pass ≠ .fills →
      s.document.Descends (fun _ p q => q = p) s.document.lastId d.document → P d →
        (m.perform f).Yields d () d' → P d')
    (hstart : P s.start) :
    s.document.Descends (fun _ p q => q = p) s.document.lastId d.document ∧ P d := by
  obtain ⟨before, after, hmoves, hbefore⟩ := h
  refine Revision.forM_induction
    (P := fun d => s.document.Descends (fun _ p q => q = p) s.document.lastId d.document ∧ P d)
    (fun m' d₁ d₂ hm' hd hy => ?_) ⟨.refl (R := fun _ p q => q = p) (fun _ _ => rfl) _, hstart⟩
    hbefore
  obtain ⟨hwords, hfills⟩ := Desks.pass_of_append hmoves hm m' hm'.mem
  have hmem : m' ∈ s.moves := by
    rw [hmoves]
    exact List.mem_append_left _ hm'.mem
  exact ⟨hd.1.trans (fun _ p q r hpq hqr => hqr.trans hpq)
    (Move.descends_unchanged hwords hfills hd.1.lastId_le hy),
    hstep m' d₁ d₂ hmem hwords hfills hd.1 hd.2 hy⟩

/-- At a repetition, the paragraphs that are left are as they were. -/
theorem descends_of_reaches_repetition (h : s.Reaches f m d) (hm : m.pass = .repetitions) :
    s.document.Descends (fun _ p q => q = p) s.document.lastId d.document :=
  (induction_repetition (P := fun _ => True) h hm (fun _ _ _ _ _ _ _ _ _ => trivial) trivial).1

/-- A move is reached if those before it succeed. -/
theorem reaches_get (k : Fin s.moves.length) {pass : Pass} (hpass : (s.moves.get k).pass = pass)
    (h : (((s.moves.take k).forM (Move.perform f)).run s.start).1.toOption = some ()) :
    s.Reaches f ⟨pass, (s.moves.get k).edit⟩
      (((s.moves.take k).forM (Move.perform f)).run s.start).2 := by
  subst hpass
  refine ⟨s.moves.take k, s.moves.drop (k + 1), ?_, Prod.ext (Except.eq_ok_of_toOption h) rfl⟩
  exact (List.take_append_drop k s.moves).symm.trans
    (congrArg _ (List.drop_eq_getElem_cons k.isLt))

/-- The draft that a move is made at is what the moves before it make. -/
theorem exists_get (h : s.Reaches f m d) : ∃ k : Fin s.moves.length, s.moves.get k = m ∧
    d = (((s.moves.take k).forM (Move.perform f)).run s.start).2 := by
  obtain ⟨before, after, hmoves, hbefore⟩ := h
  have hlt : before.length < s.moves.length := by simp [hmoves]
  refine ⟨⟨before.length, hlt⟩, by simp [hmoves], ?_⟩
  have htake : s.moves.take before.length = before := by simp [hmoves]
  rw [Revision.Yields] at hbefore
  simp only [htake, hbefore]

end Stage

/-- A stage is come to by a plan and a visit. -/
theorem Engine.exists_of_stage {e : Engine} {f : Filler} {scope : Value} {doc : Document}
    {s : Stage} (h : e.stage f scope doc = .ok s) :
    Plan.ofDocument e.registry e.settings (e.prepared doc) = .ok s.plan ∧
      ∃ body, e.visitAll f scope s.plan (e.prepared doc) (doc.assignIds.prepare e.settings).2 =
          .ok (body, s.visit) ∧
        s.document = { e.prepared doc with body } := by
  obtain ⟨plan, hplan, hrest⟩ := Except.bind_eq_ok.1 h
  obtain ⟨⟨body, visit⟩, hvisit, hs⟩ := Except.bind_eq_ok.1 hrest
  cases hs
  exact ⟨hplan, body, hvisit, rfl⟩

namespace Stage

variable {s : Stage} {f : Filler}

/-! ## Stages of fillings -/

/-- The stage of a filling by an engine with the built-in directives. -/
structure Of (s : Stage) (e : Engine) (f : Filler) (scope : Value) (doc : Document) : Prop where
  stage : e.stage f scope doc = .ok s
  registry : e.registry = .builtin

namespace Of

variable {e : Engine} {scope : Value} {doc : Document} (h : s.Of e f scope doc)

include h

theorem exists_visitAll : Plan.ofDocument .builtin e.settings (e.prepared doc) = .ok s.plan ∧
    ∃ body, e.visitAll f scope s.plan (e.prepared doc) (doc.assignIds.prepare e.settings).2 =
        .ok (body, s.visit) ∧
      s.document = { e.prepared doc with body } := by
  rw [← h.registry]
  exact Engine.exists_of_stage h.stage

theorem accounts :
    s.plan.Accounts .builtin e.settings (e.prepared doc) (e.prepared doc).regions :=
  Plan.accounts_ofDocument h.exists_visitAll.1

theorem visited : List.Forall₂ (Placed.Visited f scope s.plan.deferred)
    (e.prepared doc).outline s.document.outline := by
  obtain ⟨-, body, hvisit, hdoc⟩ := h.exists_visitAll
  rw [hdoc]
  exact (Engine.visitAll_spec hvisit).1

theorem dispatches : (s.plan.dispatches s.document.outline).foldlM (e.dispatchStep scope)
    (e.registry.desks, s.plan.skipped) = .ok (s.visit.desks, s.visit.skipped) := by
  obtain ⟨-, body, hvisit, hdoc⟩ := h.exists_visitAll
  rw [hdoc]
  exact (Engine.visitAll_spec hvisit).2

/-! ### Nodes -/

theorem comments : s.document.comments = doc.comments := by
  obtain ⟨-, body, -, hdoc⟩ := h.exists_visitAll
  rw [hdoc]
  exact (doc.assignIds.tidied_prepare e.settings).comments

theorem lastId : s.document.lastId = (e.prepared doc).lastId := by
  obtain ⟨-, body, -, hdoc⟩ := h.exists_visitAll
  rw [hdoc]

/-- Node by node, what the visit makes of the document. -/
theorem becomes : List.Forall₂ (Placed.Becomes fun _ => Paragraph.Refilled)
    (e.prepared doc).outline s.document.outline :=
  h.visited.imp fun _ _ => Placed.Visited.becomes

/-- A paragraph that was visited, before and after the visit. -/
theorem exists_visited {q : Paragraph} {around : List CellPosition}
    (hq : ⟨.paragraph q, around⟩ ∈ s.document.outline) : ∃ p,
      ⟨.paragraph p, around⟩ ∈ (e.prepared doc).outline ∧ p.id = q.id ∧
        Placed.Visited f scope s.plan.deferred ⟨.paragraph p, around⟩ ⟨.paragraph q, around⟩ := by
  obtain ⟨⟨node, around'⟩, hp, hvisited⟩ := h.visited.exists_of_mem_right hq
  obtain rfl : around = around' := hvisited.1
  cases node with
  | paragraph p => exact ⟨p, hp, hvisited.becomes.id_eq.symm, hvisited⟩
  | _ => cases hvisited.2

theorem map_id_prepared :
    (e.prepared doc).outline.map Placed.id = List.range' 1 s.document.lastId := by
  rw [h.lastId]
  exact Engine.map_id_prepared

theorem map_id_outline : s.document.outline.map Placed.id = List.range' 1 s.document.lastId :=
  (Placed.Becomes.map_id_eq h.becomes).trans h.map_id_prepared

/-- Every node of the document is an original one. -/
theorem isOriginal {x : Placed} (hx : x ∈ s.document.outline) :
    x.isOriginal s.document.lastId := by
  have hmem : x.id ∈ List.range' 1 s.document.lastId := by
    rw [← h.map_id_outline]
    exact List.mem_map_of_mem hx
  rw [List.mem_range'_1, Nat.add_comm] at hmem
  simp [Placed.isOriginal, Nat.lt_of_succ_le hmem.1, Nat.le_of_lt_succ hmem.2]

/-- No number is there twice. -/
theorem nodup_originalIds : (Placed.originalIds s.document.lastId s.document.outline).Nodup := by
  refine List.Sublist.nodup (List.filter_sublist.map _) ?_
  rw [h.map_id_outline]
  exact List.nodup_range'

/-- The number of a node that was there before the visit. -/
theorem id_prepared {x : Placed} (hx : x ∈ (e.prepared doc).outline) :
    0 < x.id ∧ x.id ≤ s.document.lastId := by
  have hmem : x.id ∈ List.range' 1 s.document.lastId := by
    rw [← h.map_id_prepared]
    exact List.mem_map_of_mem hx
  rw [List.mem_range'_1, Nat.add_comm] at hmem
  exact ⟨Nat.lt_of_succ_le hmem.1, Nat.le_of_lt_succ hmem.2⟩

theorem nodup_prepared :
    (Placed.originalIds s.document.lastId (e.prepared doc).outline).Nodup := by
  refine List.Sublist.nodup (List.filter_sublist.map _) ?_
  rw [h.map_id_prepared]
  exact List.nodup_range'

/-- The blocks of the regions in the plan are nodes of the document. -/
theorem blocks {entry : Region × List Call} (hentry : entry ∈ s.plan.entries) :
    ∀ id ∈ entry.1.blocks, 0 < id ∧ id ≤ s.document.lastId := by
  intro id hid
  obtain ⟨-, -, hblocks⟩ := Document.region_spec (h.accounts.entries entry hentry).1
  obtain ⟨x, hx, -, rfl⟩ := hblocks id hid
  exact h.id_prepared hx

/-! ### Dispatches -/

/-- Every entry of the plan is dispatched, at the paragraph where its comment starts. -/
theorem exists_dispatch {entry : Region × List Call} (hentry : entry ∈ s.plan.entries) :
    ∃ p around, ⟨.paragraph p, around⟩ ∈ s.document.outline ∧ entry.1.start = p.id ∧
      e.Dispatched scope (⟨entry.1, p.id, p.text, around.head?⟩, entry.2)
        (s.visit.desks, s.visit.skipped) := by
  obtain ⟨-, ⟨q, hq, -, hstart⟩, -⟩ :=
    Document.region_spec (h.accounts.entries entry hentry).1
  obtain ⟨around, hq⟩ := Document.mem_paragraphs_iff_outline.1 hq
  obtain ⟨x, hx, hbecomes⟩ := h.becomes.exists_of_mem_left hq
  cases hbecomes with
  | @paragraph _ p _ hid _ =>
    refine ⟨p, around, hx, hstart.trans hid.symm, ?_⟩
    refine (Engine.foldlM_dispatchStep_spec h.dispatches).2.2 _ (List.mem_flatMap.2 ⟨_, hx, ?_⟩)
    refine List.mem_map.2 ⟨entry, List.mem_filter.2 ⟨hentry, ?_⟩, rfl⟩
    exact decide_eq_true (hstart.trans hid.symm)

/-- Every edit on a desk comes from an instruction that a comment of the plan has. -/
theorem traces_instructions : s.visit.desks.Traces e.settings Registry.builtin.handlers fun i =>
    s.Gives i ∧ ∃ calls is, (i.site.region, calls) ∈ s.plan.entries ∧
      Call.instructions e.environment e.settings scope i.site calls = .ok (some is) ∧ i ∈ is := by
  refine Engine.traces_foldlM_dispatchStep (fun d hd is his i hi => ?_) ?_ h.dispatches
  · obtain ⟨⟨p | id | id, around⟩, hp, hd⟩ := List.mem_flatMap.1 hd
    · obtain ⟨entry, hentry, rfl⟩ := List.mem_map.1 hd
      obtain ⟨hentry, hstart⟩ := List.mem_filter.1 hentry
      obtain ⟨hnames, hsites⟩ := Call.map_instructions his
      have hsite := hsites i hi
      have hcalls : (i.site.region, entry.2) ∈ s.plan.entries := by
        rw [hsite]
        exact hentry
      refine ⟨⟨⟨entry.2, hcalls, ?_⟩, p, around, hp, ?_, ?_, ?_⟩, entry.2, is, hcalls, ?_, hi⟩
      · rw [← hnames]
        exact List.mem_map_of_mem hi
      · rw [hsite]
        exact of_decide_eq_true hstart
      · rw [hsite]
      · rw [hsite]
      · rw [hsite]
        exact his
    · cases hd
    · cases hd
  · rw [h.registry]
    exact Desks.traces_desks _ _

/-- Every edit on a desk comes from a comment of the plan. -/
theorem traces : s.visit.desks.Traces e.settings Registry.builtin.handlers s.Gives :=
  h.traces_instructions.imp fun _ => And.left

/-- Every move goes back to a comment of the plan, and a repetition to one that leaves
    placeholders to the edits. -/
theorem given_of_mem_moves {m : Move} (hm : m ∈ s.moves) {i : Instruction}
    (hi : m.edit.instruction? = some i) :
    s.Gives i ∧ ∀ j items, m.edit = .repeatBlocks j items →
      Registry.builtin.defers i.name.toString :=
  h.traces.given_of_mem_moves hm hi

/-- A repetition goes back to a comment of the plan that leaves placeholders to the edits. -/
theorem exists_entry {i : Instruction} {items : List Value}
    (hm : ⟨.repetitions, .repeatBlocks i items⟩ ∈ s.moves) :
    ∃ calls, (i.site.region, calls) ∈ s.plan.entries ∧
      Plan.defers .builtin (i.site.region, calls) := by
  obtain ⟨hgives, hdefers⟩ := h.given_of_mem_moves hm (i := i) rfl
  obtain ⟨calls, hentry, hname⟩ := hgives.entry
  obtain ⟨call, hcall, hname⟩ := List.mem_map.1 hname
  refine ⟨calls, hentry, List.any_eq_true.2 ⟨call, hcall, ?_⟩⟩
  rw [hname]
  exact hdefers i items rfl

/-- An entry that leaves placeholders to the edits and has been dispatched is one of a
    repetition. -/
theorem exists_repetition {entry : Region × List Call} (hdefers : Plan.defers .builtin entry)
    {site : Site} (hsite : site.region = entry.1) {is : List Instruction}
    (his : Call.instructions e.environment e.settings scope site entry.2 = .ok (some is))
    (hholds : ∀ i ∈ is, s.visit.desks.Holds e.settings i) :
    ∃ i items, i.site.region = entry.1 ∧ ⟨.repetitions, .repeatBlocks i items⟩ ∈ s.moves := by
  obtain ⟨call, hcall, hdefers⟩ := List.any_eq_true.1 hdefers
  obtain ⟨hnames, hsites⟩ := Call.map_instructions his
  obtain ⟨i, hi, hname⟩ := List.mem_map.1 (hnames ▸ List.mem_map_of_mem hcall)
  rw [← hname] at hdefers
  obtain ⟨items, hm⟩ := Desks.mem_moves_of_holds h.traces.handlers (hholds i hi) hdefers
  exact ⟨i, items, (congrArg Site.region (hsites i hi)).trans hsite, hm⟩

/-- What the plan skips stays skipped. -/
theorem skipped_subset : s.plan.skipped ⊆ s.visit.skipped :=
  (Engine.foldlM_dispatchStep_spec h.dispatches).2.1

/-- The commitment is the sequence of the moves. -/
theorem commit_eq : Engine.commit f s.visit s.document =
    ((s.moves.forM (Move.perform f)).run s.start).1.map fun _ =>
      ((s.moves.forM (Move.perform f)).run s.start).2 := by
  rw [Engine.commit, Desks.commit_eq_forM h.traces.handlers]
  rfl

theorem commit_eq_error {error : Error} :
    Engine.commit f s.visit s.document = .error error ↔
      (s.moves.forM (Move.perform f)).Fails s.start error := by
  rw [h.commit_eq, Except.map_eq_error]
  rfl

theorem commit_eq_ok {d : Draft} :
    Engine.commit f s.visit s.document = .ok d ↔
      (s.moves.forM (Move.perform f)).Yields s.start () d := by
  rw [h.commit_eq, Revision.Yields]
  rcases (s.moves.forM (Move.perform f)).run s.start with ⟨error | _, d'⟩
  · exact iff_of_false (fun h => by cases h) (fun h => by cases h)
  · rw [Except.map_eq_ok, Prod.mk.injEq]
    constructor
    · rintro ⟨-, -, hd⟩
      exact ⟨rfl, hd⟩
    · rintro ⟨-, hd⟩
      exact ⟨(), rfl, hd⟩

end Of

end Stage

namespace Engine

variable {e : Engine} {f : Filler} {scope : Value} {doc doc' : Document} {report : Report}

/-- What a filling that succeeds goes through, with the notes that it counts at the end. -/
theorem exists_stage_finish (hregistry : e.registry = .builtin)
    (h : e.fillWith f scope doc = .ok (doc', report)) :
    ∃ s : Stage, s.Of e f scope doc ∧
      ∃ d : Draft, (s.moves.forM (Move.perform f)).Yields s.start () d ∧
        doc' = d.document.close e.settings s.visit.skipped ∧
          report = { d.report with
            notesRemoved := UInt32.ofNat
              ((d.document.removeComments s.visit.skipped).1.finish e.settings).2 } := by
  obtain ⟨s, hs, hrest⟩ := Except.bind_eq_ok.1 h
  obtain ⟨d, hd, hrest⟩ := Except.bind_eq_ok.1 hrest
  cases hrest
  have hof : s.Of e f scope doc := ⟨hs, hregistry⟩
  exact ⟨s, hof, d, hof.commit_eq_ok.1 hd, rfl, rfl⟩

/-- What a filling that succeeds goes through. -/
theorem exists_stage (hregistry : e.registry = .builtin)
    (h : e.fillWith f scope doc = .ok (doc', report)) :
    ∃ s : Stage, s.Of e f scope doc ∧
      ∃ d : Draft, (s.moves.forM (Move.perform f)).Yields s.start () d ∧
        doc' = d.document.close e.settings s.visit.skipped ∧
          ∃ notes, report = { d.report with notesRemoved := notes } := by
  obtain ⟨s, hs, d, hd, hdoc, hreport⟩ := exists_stage_finish hregistry h
  exact ⟨s, hs, d, hd, hdoc, _, hreport⟩

end Engine

end DocTemplate
