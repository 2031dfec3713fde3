import DocTemplate.Proofs.Directive.Parallel
import DocTemplate.Proofs.Document.Preparation
import DocTemplate.Proofs.Engine.Contiguity
import DocTemplate.Proofs.Engine.Residue

/-!
# Cleaning up does not matter

Two engines that differ only in whether they drop language tags and whether they merge runs
before a filling fill alike: they fail with the same error, or they give two documents of one
shape with the same characters, items and anchors in the same styles, languages aside, and
count the same but for the runs merged. This takes anchors that are not inside placeholders,
and no literal for line breaks. For a placeholder with an anchor inside is one piece of text
in one run or two in two, and a text with such a literal is split where runs are.

The two fillings go side by side. What they prepare has interchangeable paragraphs, and each
step keeps that:

* `Document.Related.prepare`: before the plan, which is the same;
* `Engine.lockstep_visit`: the visit to a paragraph;
* `Engine.agree_commit`: the edits;
* `Document.Related.finish`: the notes;
* `Engine.agree_fill_withCleanup`: all of it.
-/

namespace DocTemplate

theorem Report.Alike.withNotes {r r' : Report} (h : r.Alike r') {n n' : UInt32} (hn : n' = n) :
    Alike { r with notesRemoved := n } { r' with notesRemoved := n' } := by
  obtain ⟨merged, rfl⟩ := h
  exact ⟨merged, by rw [hn]⟩

/-! ## Cleaning up -/

namespace Note

variable {notes notes' : List Note}

/-- What depends on neither languages nor marks chooses the same notes. -/
theorem map_stripLanguage_filter (keep : Note → Bool)
    (hkeep : ∀ n : Note, keep n.stripLanguage = keep n)
    (h : notes'.map stripLanguage = notes.map stripLanguage) :
    (notes'.filter keep).map stripLanguage = (notes.filter keep).map stripLanguage := by
  have hswap : ∀ notes : List Note, (notes.filter keep).map stripLanguage =
      (notes.map stripLanguage).filter keep := by
    intro notes
    rw [List.filter_map]
    exact congrArg _ (List.filter_congr fun n _ => (hkeep n).symm)
  rw [hswap, hswap, h]

theorem length_eq (h : notes'.map stripLanguage = notes.map stripLanguage) :
    notes'.length = notes.length := by
  simpa using congrArg List.length h

end Note

/-- What has the same shape has it the other way round. -/
theorem Block.Related.symm {b b' : Block} (h : b.Related Eq Paragraph.Interchangeable b') :
    b'.Related Eq Paragraph.Interchangeable b := by
  have hswap := h.swap
  rw [show flip (Eq : NodeId → NodeId → Prop) = Eq from funext₂ fun _ _ => propext eq_comm]
    at hswap
  exact hswap.imp fun _ _ hpq => Paragraph.Interchangeable.symm hpq

namespace Document.Related

variable {doc doc' : Document}

theorem refl (doc : Document) : doc.Related Paragraph.Interchangeable doc where
  body := List.forall₂_same.2 fun b _ => .refl (fun _ => rfl) Paragraph.Interchangeable.refl b
  comments := rfl
  footnotes := rfl
  endnotes := rfl
  finalSection := rfl
  lastId := rfl

/-- Interchangeable paragraphs may be replaced by others, on either side. -/
theorem mapInterchangeable (h : doc.Related Paragraph.Interchangeable doc')
    {f g : Paragraph → Paragraph} (hf : ∀ p : Paragraph, p.Interchangeable (f p))
    (hg : ∀ p : Paragraph, p.Interchangeable (g p)) :
    (doc.mapParagraphs f).Related Paragraph.Interchangeable (doc'.mapParagraphs g) :=
  h.mapParagraphs fun p q hpq => ((hf p).symm.trans hpq).trans (hg q)

theorem stripLanguage_right (h : doc.Related Paragraph.Interchangeable doc') :
    doc.Related Paragraph.Interchangeable doc'.stripLanguage := by
  have hnotes : ∀ notes : List Note,
      (notes.map Note.stripLanguage).map Note.stripLanguage = notes.map Note.stripLanguage := by
    intro notes
    rw [List.map_map]
    exact List.map_congr_left fun n _ => n.stripLanguage_stripLanguage
  have hbody := h.mapInterchangeable Paragraph.Interchangeable.refl
    Paragraph.interchangeable_stripLanguage
  rw [doc.mapParagraphs_id] at hbody
  exact { hbody with
    footnotes := (hnotes _).trans h.footnotes
    endnotes := (hnotes _).trans h.endnotes }

theorem mergeRuns_right (h : doc.Related Paragraph.Interchangeable doc') :
    doc.Related Paragraph.Interchangeable doc'.mergeRuns.1 := by
  have hbody := h.mapInterchangeable Paragraph.Interchangeable.refl
    Paragraph.interchangeable_mergeRuns
  rwa [doc.mapParagraphs_id] at hbody

theorem prepare_right (h : doc.Related Paragraph.Interchangeable doc') (settings : Settings) :
    doc.Related Paragraph.Interchangeable (doc'.prepare settings).1 := by
  have hstrip : doc.Related Paragraph.Interchangeable
      (if settings.stripLanguage then doc'.stripLanguage else doc') := by
    split
    · exact h.stripLanguage_right
    · exact h
  unfold prepare
  dsimp only
  split
  · exact hstrip.mergeRuns_right
  · exact hstrip

theorem symm (h : doc.Related Paragraph.Interchangeable doc') :
    doc'.Related Paragraph.Interchangeable doc where
  body := (h.body.imp fun _ _ hb => hb.symm).flip
  comments := h.comments.symm
  footnotes := h.footnotes.symm
  endnotes := h.endnotes.symm
  finalSection := h.finalSection.symm
  lastId := h.lastId.symm

/-- What is cleaned up before a filling makes no difference. -/
theorem prepare (h : doc.Related Paragraph.Interchangeable doc') (settings settings' : Settings) :
    (doc.prepare settings).1.Related Paragraph.Interchangeable (doc'.prepare settings').1 :=
  ((h.prepare_right settings').symm.prepare_right settings).symm

theorem imp {R R' : Paragraph → Paragraph → Prop} (h : doc.Related R doc')
    (hR : ∀ p q, R p q → R' p q) : doc.Related R' doc' :=
  { h with body := h.body.imp fun _ _ hb => hb.imp hR }

theorem contains_runItems (h : doc.Related Paragraph.Interchangeable doc') {i : RunItem}
    (hi : i.isText = false) : doc'.runItems.contains i = doc.runItems.contains i := by
  rw [Bool.eq_iff_iff, List.contains_iff_mem, List.contains_iff_mem, Document.runItems,
    Document.runItems, List.mem_flatMap, List.mem_flatMap]
  constructor
  · rintro ⟨q, hq, hmem⟩
    obtain ⟨p, hp, hpq⟩ := h.paragraphs.exists_of_mem_right hq
    exact ⟨p, hp, (hpq.mem_runItems_iff hi).1 hmem⟩
  · rintro ⟨p, hp, hmem⟩
    obtain ⟨q, hq, hpq⟩ := h.paragraphs.exists_of_mem_left hp
    exact ⟨q, hq, (hpq.mem_runItems_iff hi).2 hmem⟩

/-- The same notes are without reference. -/
theorem removeOrphanNotes (h : doc.Related Paragraph.Interchangeable doc') :
    doc.removeOrphanNotes.1.Related Paragraph.Interchangeable doc'.removeOrphanNotes.1 ∧
      doc'.removeOrphanNotes.2 = doc.removeOrphanNotes.2 := by
  have hfootnotes := Note.map_stripLanguage_filter
    (fun n => n.kind ≠ .normal || doc.runItems.contains (.footnote n.id)) (fun _ => rfl) h.footnotes
  have hendnotes := Note.map_stripLanguage_filter
    (fun n => n.kind ≠ .normal || doc.runItems.contains (.endnote n.id)) (fun _ => rfl) h.endnotes
  have hfootnote : ∀ id, doc'.runItems.contains (.footnote id) =
      doc.runItems.contains (.footnote id) := fun _ => h.contains_runItems rfl
  have hendnote : ∀ id, doc'.runItems.contains (.endnote id) =
      doc.runItems.contains (.endnote id) := fun _ => h.contains_runItems rfl
  simp only [Document.removeOrphanNotes, hfootnote, hendnote]
  refine ⟨⟨h.body, h.comments, hfootnotes, hendnotes, h.finalSection, h.lastId⟩, ?_⟩
  rw [Note.length_eq h.footnotes, Note.length_eq h.endnotes, Note.length_eq hfootnotes,
    Note.length_eq hendnotes]

theorem finish (h : doc.Related Paragraph.Interchangeable doc') {settings settings' : Settings}
    (hsettings : settings'.removeOrphanNotes = settings.removeOrphanNotes) :
    (doc.finish settings).1.Related Paragraph.Interchangeable (doc'.finish settings').1 ∧
      (doc'.finish settings').2 = (doc.finish settings).2 := by
  rw [Document.finish, Document.finish, hsettings]
  split
  · exact h.removeOrphanNotes
  · exact ⟨h, rfl⟩

end Document.Related

/-! ## Plans -/

namespace Plan

variable {registry : Registry} {settings : Settings} {doc doc' : Document}
  {mergeRuns stripLanguage : Bool}

theorem step_withCleanup (h : doc.Related Paragraph.Interchangeable doc') (plan : Plan)
    (region : Region) :
    step registry (settings.withCleanup mergeRuns stripLanguage) doc' plan region =
      step registry settings doc plan region := by
  have hadd : plan.add registry doc' region = plan.add registry doc region := by
    funext calls
    cases calls with
    | none => rfl
    | some calls => rw [add, add, h.paragraphIds_eq fun _ _ hpq => hpq.id]
  rw [step, step, hadd]
  rfl

theorem ofDocument_withCleanup (h : doc.Related Paragraph.Interchangeable doc') :
    ofDocument registry (settings.withCleanup mergeRuns stripLanguage) doc' =
      ofDocument registry settings doc := by
  have hstep : step registry (settings.withCleanup mergeRuns stripLanguage) doc' =
      step registry settings doc := funext₂ (step_withCleanup h)
  rw [ofDocument, ofDocument, h.regions_eq, hstep]

end Plan

/-! ## The visit -/

namespace Desks

variable {settings : Settings} {mergeRuns stripLanguage : Bool} {d : Desks}

theorem acceptAt?_withCleanup {i : Instruction} {name : String} {desks : List Desk}
    (h : ∀ desk ∈ desks, desk.handler ∈ Registry.builtin.handlers) :
    acceptAt? (settings.withCleanup mergeRuns stripLanguage) i name desks =
      acceptAt? settings i name desks := by
  induction desks with
  | nil => rfl
  | cons desk desks ih =>
    have haccept : desk.accept (settings.withCleanup mergeRuns stripLanguage) i =
        desk.accept settings i := by
      have hdesk := h desk List.mem_cons_self
      simp only [Registry.builtin, List.mem_cons, List.not_mem_nil, or_false] at hdesk
      rw [Desk.accept, Desk.accept]
      rcases hdesk with hdesk | hdesk | hdesk | hdesk <;> rw [hdesk] <;> rfl
    rw [acceptAt?, acceptAt?, haccept, ih fun desk hdesk => h desk (List.mem_cons_of_mem _ hdesk)]

theorem accept_withCleanup (h : d.desks.map Desk.handler = Registry.builtin.handlers)
    (i : Instruction) :
    d.accept (settings.withCleanup mergeRuns stripLanguage) i = d.accept settings i := by
  have hdesks : ∀ desk ∈ d.desks, desk.handler ∈ Registry.builtin.handlers := fun desk hdesk =>
    h ▸ List.mem_map_of_mem hdesk
  rw [accept, accept, acceptAt?_withCleanup hdesks]

theorem foldlM_accept_withCleanup (h : d.desks.map Desk.handler = Registry.builtin.handlers)
    (is : List Instruction) :
    is.foldlM (accept (settings.withCleanup mergeRuns stripLanguage)) d =
      is.foldlM (accept settings) d := by
  induction is generalizing d with
  | nil => rfl
  | cons i is ih =>
    rw [List.foldlM_cons, List.foldlM_cons, accept_withCleanup h]
    cases hd : d.accept settings i with
    | error e => rfl
    | ok d' => exact ih ((map_handler_accept hd).trans h)

theorem dispatch_withCleanup (h : d.desks.map Desk.handler = Registry.builtin.handlers)
    (env : Environment) (scope : Value) (site : Site) (calls : List Call) :
    d.dispatch env (settings.withCleanup mergeRuns stripLanguage) scope site calls =
      d.dispatch env settings scope site calls := by
  have hinstructions : ∀ calls : List Call,
      Call.instructions env (settings.withCleanup mergeRuns stripLanguage) scope site calls =
        Call.instructions env settings scope site calls := by
    intro calls
    induction calls with
    | nil => rfl
    | cons call calls ih => rw [Call.instructions, Call.instructions, ih]; rfl
  rw [dispatch, dispatch, hinstructions]
  refine bind_congr fun outcome => ?_
  cases outcome with
  | none => rfl
  | some is => exact congrArg (· >>= _) (foldlM_accept_withCleanup h is)

end Desks

/-- The visits have accepted and skipped the same, and count the same but for the runs
    merged. -/
structure Visit.Alike (v v' : Visit) : Prop where
  isBuiltin : v.IsBuiltin
  desks : v'.desks = v.desks
  skipped : v'.skipped = v.skipped
  report : v.report.Alike v'.report

/-- The engine with other settings about language tags and runs. -/
def Engine.withCleanup (mergeRuns stripLanguage : Bool) (e : Engine) : Engine :=
  { e with settings := e.settings.withCleanup mergeRuns stripLanguage }

namespace Engine

variable {e : Engine} {f : Filler} {scope : Value} {plan : Plan} {doc doc' : Document}
  {mergeRuns stripLanguage : Bool}

theorem agree_dispatch {v v' : Visit} (h : v.Alike v') (site : Site) (calls : List Call) :
    Except.Agree Visit.Alike (e.dispatch scope site calls v)
      ((e.withCleanup mergeRuns stripLanguage).dispatch scope site calls v') := by
  obtain ⟨hbuiltin, hdesks, hskipped, n, hreport⟩ := h
  have hdispatch : v'.desks.dispatch (e.withCleanup mergeRuns stripLanguage).environment
      (e.withCleanup mergeRuns stripLanguage).settings scope site calls =
        v.desks.dispatch e.environment e.settings scope site calls := by
    rw [hdesks]
    exact Desks.dispatch_withCleanup hbuiltin _ _ _ _
  cases hv : e.dispatch scope site calls v with
  | error error =>
    rw [dispatch] at hv ⊢
    rw [hdispatch]
    rcases Except.bind_eq_error.1 hv with hv | ⟨outcome, -, hv⟩
    · rw [hv]
      exact .error error
    · cases outcome <;> cases hv
  | ok v₁ =>
    have hbuiltin₁ := isBuiltin_of_dispatch hbuiltin hv
    rw [dispatch] at hv ⊢
    rw [hdispatch]
    obtain ⟨outcome, houtcome, hv⟩ := Except.bind_eq_ok.1 hv
    rw [houtcome]
    cases outcome with
    | none =>
      cases hv
      refine .ok ⟨hbuiltin₁, hdesks, ?_, n, ?_⟩
      · exact congrArg (List.insert site.region.id) hskipped
      · rw [hreport]
    | some outcome =>
      cases hv
      refine .ok ⟨hbuiltin₁, rfl, hskipped, n, ?_⟩
      rw [hreport]

theorem lockstep_fillParagraph (hf : f.renderers = Renderer.builtin)
    (hl : ∀ l ∈ f.settings.lineBreak, l = "") {p q : Paragraph} (hp : p.Undivided f.delimiters)
    (h : p.Interchangeable q) :
    (Simulation.lockstep Visit.Alike).rel Paragraph.Interchangeable
      (fillParagraph f scope plan p)
      (fillParagraph (f.withCleanup mergeRuns stripLanguage) scope plan q) := by
  let s := Simulation.lockstep (ε := Error) Visit.Alike
  rw [fillParagraph, fillParagraph, h.id]
  split
  · exact s.pure h
  · refine s.bind (Simulation.lockstep_liftM
      (Filler.agree_fillParagraph_of_interchangeable hf hl hp h)) fun x y hxy => ?_
    obtain ⟨filled, tally⟩ := x
    obtain ⟨filled', tally'⟩ := y
    obtain ⟨hfilled, rfl⟩ := hxy
    refine s.bind (Simulation.lockstep_modify fun v v' hv => ?_) fun _ _ _ => s.pure hfilled
    obtain ⟨hbuiltin, hdesks, hskipped, n, hreport⟩ := hv
    refine ⟨hbuiltin, hdesks, hskipped, n, ?_⟩
    rw [hreport]
    rfl

/-- Visits to interchangeable paragraphs do the same. -/
theorem lockstep_visit (hf : f.renderers = Renderer.builtin)
    (hl : ∀ l ∈ f.settings.lineBreak, l = "") {p q : Paragraph} (hp : p.Undivided f.delimiters)
    (h : p.Interchangeable q) (around : List CellPosition) :
    (Simulation.lockstep Visit.Alike).rel Paragraph.Interchangeable
      (e.visit f scope plan around p)
      ((e.withCleanup mergeRuns stripLanguage).visit (f.withCleanup mergeRuns stripLanguage) scope
        plan around q) := by
  let s := Simulation.lockstep (ε := Error) Visit.Alike
  refine s.bind (lockstep_fillParagraph hf hl hp h) fun p q hpq => ?_
  rw [hpq.id, hpq.text]
  refine s.bind (s.forIn (fun entry _ _ => ?_) _) fun _ _ _ => s.pure hpq
  refine s.bind Simulation.lockstep_get fun v v' hv => ?_
  refine s.bind (Simulation.lockstep_liftM (agree_dispatch hv _ _)) fun v v' hv => ?_
  exact s.bind (Simulation.lockstep_set hv) fun _ _ _ => s.pure rfl

theorem agree_visitAll (hregistry : e.registry = .builtin) (hf : f.renderers = Renderer.builtin)
    (hl : ∀ l ∈ f.settings.lineBreak, l = "")
    (hundivided : ∀ p ∈ doc.paragraphs, p.Undivided f.delimiters)
    (h : doc.Related Paragraph.Interchangeable doc') (merged merged' : Nat) :
    Except.Agree (fun x y => List.Forall₂ (Block.Related Eq Paragraph.Interchangeable) x.1 y.1 ∧
        x.2.Alike y.2)
      (e.visitAll f scope plan doc merged)
      ((e.withCleanup mergeRuns stripLanguage).visitAll (f.withCleanup mergeRuns stripLanguage)
        scope plan doc' merged') := by
  have hbody : List.Forall₂ (Block.Related Eq fun p q => p.Undivided f.delimiters ∧
      p.Interchangeable q) doc.body doc'.body :=
    h.body.imp_of_mem fun b hb b' hbb' => hbb'.imp_of_mem fun p hp q hpq =>
      ⟨hundivided p (List.mem_flatMap.2 ⟨b, hb, hp⟩), hpq⟩
  refine (Simulation.lockstep Visit.Alike).walkAll (fun around around' p q haround hpq => ?_) hbody
    _ _ ⟨?_, rfl, rfl, _, rfl⟩
  · obtain rfl : around = around' := List.forall₂_eq_eq_eq ▸ haround.imp fun _ _ h => h.eq
    exact lockstep_visit hf hl hpq.1 hpq.2 around
  · rw [hregistry]
    rfl

/-! ## The edits -/

/-- The same edits are made, or fail. -/
theorem agree_commit (hf : f.renderers = Renderer.builtin)
    (hl : ∀ l ∈ f.settings.lineBreak, l = "") {v v' : Visit} (hv : v.Alike v')
    (h : doc.Related Paragraph.Interchangeable doc') :
    Except.Agree (Draft.Related Paragraph.Interchangeable) (commit f v doc)
      (commit (f.withCleanup mergeRuns stripLanguage) v' doc') := by
  have hmoves : (Revision.lockstep Paragraph.Interchangeable).rel Eq
      (v.desks.moves.forM (Move.perform f))
      (v'.desks.moves.forM (Move.perform (f.withCleanup mergeRuns stripLanguage))) := by
    rw [hv.desks]
    exact (Revision.lockstep _).forM fun m _ => m.lockstep_perform hf hl
  rw [commit, commit, Desks.commit_eq_forM hv.isBuiltin,
    Desks.commit_eq_forM (by rw [hv.desks]; exact hv.isBuiltin)]
  obtain ⟨houtcome, hdraft⟩ := hmoves ⟨doc, v.report⟩ ⟨doc', v'.report⟩ ⟨h, hv.report⟩
  exact houtcome.map fun _ _ _ => hdraft

/-! ## Fillings -/

theorem agree_filler (hrenderers : e.renderers = []) (mergeRuns stripLanguage : Bool) :
    Except.Agree (fun f g => g = f.withCleanup mergeRuns stripLanguage ∧
        f.renderers = Renderer.builtin ∧ f.settings = e.settings ∧
          Delimiters.make e.settings.opening e.settings.closing = .ok f.delimiters)
      e.filler (e.withCleanup mergeRuns stripLanguage).filler := by
  have hmake : Delimiters.make (e.withCleanup mergeRuns stripLanguage).settings.opening
      (e.withCleanup mergeRuns stripLanguage).settings.closing =
        Delimiters.make e.settings.opening e.settings.closing := rfl
  rw [filler, filler, hmake]
  cases Delimiters.make e.settings.opening e.settings.closing with
  | error error => exact .error error
  | ok d => exact .ok ⟨rfl, by rw [hrenderers]; rfl, rfl, rfl⟩

/-- What is done before the visit divides no placeholder. -/
theorem undivided_prepared {d : Delimiters} (h : ∀ p ∈ doc.paragraphs, p.Undivided d) :
    ∀ p ∈ (e.prepared doc).paragraphs, p.Undivided d := by
  intro p hp
  have hprepared := (Document.Related.refl doc.assignIds).prepare_right e.settings
  obtain ⟨q, hq, hqp⟩ := hprepared.paragraphs.exists_of_mem_right hp
  refine hqp.undivided ?_
  have hunnumbered : q.unnumbered ∈ doc.paragraphs.map Paragraph.unnumbered := by
    rw [← Document.paragraphs_assignIds]
    exact List.mem_map_of_mem hq
  obtain ⟨r, hr, heq⟩ := List.mem_map.1 hunnumbered
  have hundivided : r.unnumbered.Undivided d := h r hr
  rw [heq] at hundivided
  exact hundivided

/-- Whether language tags are dropped and runs merged makes no difference to a filling: the
    same error, or documents that look alike and the same report but for the runs merged. -/
theorem agree_fill_withCleanup (hregistry : e.registry = .builtin) (hrenderers : e.renderers = [])
    (hl : ∀ l ∈ e.settings.lineBreak, l = "")
    (hundivided : ∀ d, Delimiters.make e.settings.opening e.settings.closing = .ok d →
      ∀ p ∈ doc.paragraphs, p.Undivided d) (mergeRuns stripLanguage : Bool) :
    Except.Agree (fun x y => x.1.Related Paragraph.Alike y.1 ∧ x.2.Alike y.2) (e.fill scope doc)
      ((e.withCleanup mergeRuns stripLanguage).fill scope doc) := by
  refine (agree_filler hrenderers mergeRuns stripLanguage).bind ?_
  rintro f _ ⟨rfl, hf, hsettings, hdelimiters⟩
  rw [← hsettings] at hl
  have hprepared : (e.prepared doc).Related Paragraph.Interchangeable
      ((e.withCleanup mergeRuns stripLanguage).prepared doc) :=
    (Document.Related.refl doc.assignIds).prepare _ _
  have hplan : Except.Agree Eq (Plan.ofDocument e.registry e.settings (e.prepared doc))
      (Plan.ofDocument e.registry (e.withCleanup mergeRuns stripLanguage).settings
        ((e.withCleanup mergeRuns stripLanguage).prepared doc)) := by
    rw [show (e.withCleanup mergeRuns stripLanguage).settings =
      e.settings.withCleanup mergeRuns stripLanguage from rfl, Plan.ofDocument_withCleanup hprepared]
    exact Except.agree_refl (fun _ => rfl) _
  -- The parts of the two fillings one by one: the plan, the visit, the moves and the end.
  refine hplan.bind ?_
  rintro plan _ rfl
  refine (agree_visitAll hregistry hf hl (undivided_prepared (hundivided _ hdelimiters)) hprepared
    _ _).bind ?_
  rintro ⟨body, v⟩ ⟨body', v'⟩ ⟨hbody, hv⟩
  refine (agree_commit hf hl hv (hprepared.with_body hbody)).bind fun draft draft' hdraft => ?_
  have hremoved : (draft.document.removeComments v.skipped).1.Related Paragraph.Interchangeable
      (draft'.document.removeComments v'.skipped).1 := by
    rw [hv.skipped]
    exact hdraft.document.removeComments v.skipped
  have hsame : (e.withCleanup mergeRuns stripLanguage).settings.removeOrphanNotes =
      e.settings.removeOrphanNotes := rfl
  obtain ⟨hfinished, hnotes⟩ := hremoved.finish hsame
  exact .ok ⟨hfinished.imp fun _ _ hpq => hpq.alike,
    hdraft.report.withNotes (congrArg UInt32.ofNat hnotes)⟩

/-- A letter that has been proofread: placeholders are spread over runs in several languages,
    with marks among them. -/
def proofread : Document where
  body := [
    .paragraph { content := [.run (.ofText "Dear $" { lang := some "en-GB" }), .proof .spellStart,
      .run (.ofText "\x7bna" { lang := some "en-US" }), .run (.ofText "me\x7d, " {}), .proof .spellEnd,
      .rangeStart 1, .run (.ofText "to"), .run ⟨[.text "day", .lineBreak], { lang := some "nl" }⟩,
      .rangeEnd 1] },
    .paragraph { content := [.rangeStart 2, .run (.ofText "* $\x7bit" { bold := true }),
      .run (.ofText "em\x7d" { bold := true, lang := some "nl" }), .rangeEnd 2] }]
  comments := [.ofText 1 "replaceWordWith(day)", .ofText 2 "repeatParagraph(list)"]

theorem agree_fill_withCleanup_proofread : ∃ doc doc' report report',
    ({} : Engine).fill letterData proofread = .ok (doc, report) ∧
    (({} : Engine).withCleanup false false).fill letterData proofread = .ok (doc', report') ∧
    doc.paragraphs.map Paragraph.text = ["Dear Ann, Monday", "* tea", "* milk"] ∧
    report.runsMerged = 4 ∧ report'.runsMerged = 0 ∧
    doc.Related Paragraph.Alike doc' ∧ report.Alike report' := by
  have hfill : ({} : Engine).fill letterData proofread = .ok _ :=
    Except.eq_ok_get (by decide +kernel)
  have hfill' : (({} : Engine).withCleanup false false).fill letterData proofread = .ok _ :=
    Except.eq_ok_get (by decide +kernel)
  have hundivided : ∀ d, Delimiters.make ({} : Settings).opening ({} : Settings).closing = .ok d →
      ∀ p ∈ proofread.paragraphs, p.Undivided d := by
    intro d hd
    obtain rfl : Delimiters.standard = d := Except.ok.inj hd
    decide +kernel
  have hagree : Except.Agree _ (({} : Engine).fill letterData proofread)
      ((({} : Engine).withCleanup false false).fill letterData proofread) :=
    agree_fill_withCleanup rfl rfl (fun _ hl => by cases hl) hundivided false false
  rw [hfill, hfill'] at hagree
  obtain ⟨hlook, hreport⟩ := hagree.of_ok
  exact ⟨_, _, _, _, hfill, hfill', by decide +kernel, by decide +kernel, by decide +kernel, hlook,
    hreport⟩

end Engine

end DocTemplate
