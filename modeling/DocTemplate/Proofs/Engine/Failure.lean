import DocTemplate.Proofs.Engine.Application
import DocTemplate.Proofs.Engine.Relevance
import DocTemplate.Proofs.Engine.Residue
import DocTemplate.Proofs.Placeholder.Failure

/-!
# Fillings without comments

A document without comments has no directives: the visit fills its paragraphs one after the
other, and nothing else in it can fail. With settings that make up for expressions without a
value, and without functions and further renderers, that leaves tabular data, which nothing
can take in place of a placeholder.

There is one thing more that happens in a filling of any document. All handlers commit in the
end, those too that have nothing to commit. The built-in ones then do nothing
(`Handler.IsIdle`), but one that somebody has added may fail all the same.

* `Engine.failsAs_visitAll`: how the visit fails without comments;
* `Engine.fill_eq_error_iff`: when a filling fails without comments.
-/

namespace DocTemplate

/-! ## Placeholders -/

/-- The placeholders of a paragraph, each with the text of the paragraph. -/
def Paragraph.placeholders (d : Delimiters) (p : Paragraph) : List (String × Placeholder) :=
  (d.scan p.text).map fun ph => (p.text, ph)

/-- The placeholders of the body in reading order, each with the text of its paragraph. -/
def Document.placeholders (d : Delimiters) (doc : Document) : List (String × Placeholder) :=
  doc.paragraphs.flatMap (Paragraph.placeholders d)

/-- The placeholders of a node. -/
def Placed.placeholders (d : Delimiters) (e : Placed) : List (String × Placeholder) :=
  e.paragraph?.toList.flatMap (Paragraph.placeholders d)

theorem Document.placeholders_eq_outline (d : Delimiters) (doc : Document) :
    doc.placeholders d = doc.outline.flatMap (Placed.placeholders d) := by
  rw [placeholders, paragraphs_eq_outline, List.filterMap_eq_flatMap_toList, List.flatMap_assoc]
  rfl

/-- The placeholders are found in the texts of the paragraphs. -/
theorem Document.placeholders_congr {d : Delimiters} {doc doc' : Document}
    (h : doc'.paragraphs.map Paragraph.text = doc.paragraphs.map Paragraph.text) :
    doc'.placeholders d = doc.placeholders d := by
  have htext : ∀ doc : Document, doc.placeholders d =
      (doc.paragraphs.map Paragraph.text).flatMap fun text =>
        (d.scan text).map fun ph => (text, ph) := fun doc => by
    rw [List.flatMap_map]
    rfl
  rw [htext, htext, h]

/-! ## Documents without comments -/

namespace Document

theorem regions_eq_nil {doc : Document} (h : doc.comments = []) : doc.regions = [] := by
  refine List.filterMap_eq_nil_iff.2 fun start _ => ?_
  simp [comment?, h]

end Document

/-- A document without comments has an empty plan. -/
theorem Plan.ofDocument_of_comments {registry : Registry} {settings : Settings} {doc : Document}
    (h : doc.comments = []) : ofDocument registry settings doc = .ok {} := by
  rw [ofDocument, Document.regions_eq_nil h]
  rfl

/-! ## Handlers with nothing to do -/

/-- The handler does not fail to commit no edits. -/
def Handler.IsIdle (h : Handler) : Prop :=
  ∀ (f : Filler) (d : Draft) (error : Error), ¬ (h.commit f []).Fails d error

theorem Registry.isIdle_of_mem_builtin {h : Handler} (hh : h ∈ builtin.handlers) : h.IsIdle := by
  intro f d error hfails
  rcases mem_builtin.1 hh with rfl | rfl | rfl | rfl <;> cases hfails

/-- Handlers that have accepted nothing commit without failure. -/
theorem Registry.not_fails_commit {registry : Registry} (h : ∀ h ∈ registry.handlers, h.IsIdle)
    (f : Filler) (d : Draft) (error : Error) : ¬ (registry.desks.commit f).Fails d error := by
  rw [desks, Desks.commit]
  generalize registry.handlers = handlers at h
  induction handlers generalizing d with
  | nil => exact Revision.not_fails_pure
  | cons handler handlers ih =>
    exact Revision.not_fails_bind (h handler List.mem_cons_self f d error) fun _ d₁ =>
      ih d₁ fun h' hh' => h h' (List.mem_cons_of_mem _ hh')

namespace Engine

variable {e : Engine} {f : Filler} {scope : Value} {doc : Document}

/-! ## The visit -/

/-- With an empty plan, the visit to a paragraph only fills it. -/
theorem run_visit_nil (around : List CellPosition) (p : Paragraph) (v : Visit) :
    (e.visit f scope {} around p).run v = (f.fillParagraph scope p).map fun (q, tally) =>
      (q, { v with report := v.report.addExpressions tally.resolved tally.recovered }) := by
  rw [visit, fillParagraph, if_neg (by simp)]
  cases f.fillParagraph scope p <;> rfl

/-- The visit to a node with an empty plan fails over the first of its placeholders that
    fails. -/
theorem failsAs_visit (node : Placed) (v : Visit) :
    ((node.visit (e.visit f scope {})).run v).FailsAs
      ((node.placeholders f.delimiters).findSome? fun x => f.fault? scope x.1 x.2) := by
  rcases node with ⟨p | id | id, around⟩
  · have hplaceholders : (Placed.placeholders f.delimiters ⟨.paragraph p, around⟩).findSome?
        (fun x => f.fault? scope x.1 x.2) =
          (f.delimiters.scan p.text).findSome? (f.fault? scope p.text) := by
      simp only [Placed.placeholders, Placed.paragraph?, Node.paragraph?, Option.toList_some,
        List.flatMap_cons, List.flatMap_nil, List.append_nil, Paragraph.placeholders,
        List.findSome?_map]
      rfl
    have hvisit : ((e.visit f scope {} around p).run v).FailsAs
        ((f.delimiters.scan p.text).findSome? (f.fault? scope p.text)) := by
      rw [run_visit_nil]
      exact fun error => Except.map_eq_error.trans (Filler.failsAs_fillParagraph p error)
    rw [hplaceholders, Placed.visit, StateT.run_bind]
    exact hvisit.bind_none fun _ _ => Except.failsAs_ok _
  · exact Except.failsAs_ok _
  · exact Except.failsAs_ok _

/-- The visit with an empty plan fails over the first placeholder in the document that fails. -/
theorem failsAs_visitAll (merged : Nat) :
    (e.visitAll f scope {} doc merged).FailsAs
      ((doc.placeholders f.delimiters).findSome? fun x => f.fault? scope x.1 x.2) := by
  rw [Document.placeholders_eq_outline, Except.findSome?_flatMap, visitAll]
  generalize ({ desks := e.registry.desks, skipped := _, report := _ } : Visit) = start
  intro error
  -- The visit is a walk, and the walk goes through the nodes in order.
  have hwalk : (doc.outline.mapM (Placed.visit (e.visit f scope {}))).run start = .error error ↔ _ :=
    StateT.failsAs_run_mapM failsAs_visit doc.outline start error
  rw [Document.outline, ← Block.outlineOf_walkAll, StateT.run_map] at hwalk
  exact Except.map_eq_error.symm.trans hwalk

/-! ## Fillings -/

theorem ofDocument_prepared (hcomments : doc.comments = []) :
    Plan.ofDocument e.registry e.settings (e.prepared doc) = .ok {} :=
  Plan.ofDocument_of_comments ((doc.assignIds.tidied_prepare e.settings).comments.trans hcomments)

theorem stage_eq : e.stage f scope doc =
    Plan.ofDocument e.registry e.settings (e.prepared doc) >>= fun plan =>
      e.visitAll f scope plan (e.prepared doc) (doc.assignIds.prepare e.settings).2 >>= fun r =>
        .ok ⟨plan, r.2, { e.prepared doc with body := r.1 }⟩ :=
  rfl

/-- Without comments, a filling comes to its stage unless a placeholder fails. -/
theorem failsAs_stage (hcomments : doc.comments = []) :
    (e.stage f scope doc).FailsAs
      ((doc.placeholders f.delimiters).findSome? fun x => f.fault? scope x.1 x.2) := by
  rw [← Document.placeholders_congr (map_text_prepared (e := e)), stage_eq,
    ofDocument_prepared hcomments]
  exact (failsAs_visitAll _).bind_none fun _ _ => Except.failsAs_ok _

/-- Without comments, nothing is dispatched in a filling. -/
theorem desks_of_stage (hcomments : doc.comments = []) {s : Stage}
    (h : e.stage f scope doc = .ok s) : s.visit.desks = e.registry.desks := by
  obtain ⟨hplan, body, hvisit, -⟩ := exists_of_stage h
  rw [ofDocument_prepared hcomments] at hplan
  rw [← Except.ok.inj hplan] at hvisit
  obtain ⟨-, hdispatches⟩ := visitAll_spec hvisit
  have hnone : ∀ nodes : List Placed, Plan.dispatches {} nodes = [] := fun nodes =>
    List.flatMap_eq_nil_iff.2 fun node _ => by
      rcases node with ⟨p | id | id, around⟩ <;> rfl
  rw [hnone] at hdispatches
  exact (Prod.mk.inj (Except.ok.inj hdispatches)).1.symm

/-- Without comments, and with handlers that do not mind having nothing to do, a filling fails
    over the first placeholder that fails, and over nothing else. -/
theorem failsAs_fillWith (hcomments : doc.comments = [])
    (hidle : ∀ h ∈ e.registry.handlers, h.IsIdle) :
    (e.fillWith f scope doc).FailsAs
      ((doc.placeholders f.delimiters).findSome? fun x => f.fault? scope x.1 x.2) := by
  refine (failsAs_stage hcomments).bind_none fun s hs => ?_
  have hcommit : (commit f s.visit s.document).FailsAs none := by
    intro error
    rw [commit, desks_of_stage hcomments hs]
    exact iff_of_false (fun h => Registry.not_fails_commit hidle f _ error (Except.map_eq_error.1 h))
      (fun h => by cases h)
  exact hcommit.bind_none fun _ _ => Except.failsAs_ok _

/-- Delimiters that are not empty can be used. -/
theorem exists_filler (hopening : e.settings.opening ≠ "") (hclosing : e.settings.closing ≠ "") :
    ∃ f, e.filler = .ok f ∧
      f.delimiters = ⟨e.settings.opening, e.settings.closing, hopening, hclosing⟩ := by
  rw [filler, Delimiters.make, dif_pos ⟨hopening, hclosing⟩]
  exact ⟨_, rfl, rfl⟩

/-- The placeholder is for tabular data. -/
def isTabular (e : Engine) (scope : Value) (p : Placeholder) : Bool :=
  (e.environment.evaluate scope p.inner).toOption.any fun v => v.kind = .table

/-- Nothing takes the place of the first placeholder for tabular data, if functions and
    further renderers are not there to help. -/
theorem findSome?_fault? (hf : e.filler = .ok f) (hrecovers : e.settings.recoversUnresolved)
    (hfunctions : e.environment.functions = []) (hrenderers : e.renderers = [])
    (placeholders : List (String × Placeholder)) :
    (placeholders.findSome? fun x => f.fault? scope x.1 x.2) =
      (placeholders.find? fun x => e.isTabular scope x.2).map fun x =>
        .unresolved x.2.raw x.1 (.noRenderer x.2.raw .table) := by
  have hfault : ∀ x : String × Placeholder, f.fault? scope x.1 x.2 =
      (Option.guard (fun x => e.isTabular scope x.2) x).map fun x =>
        .unresolved x.2.raw x.1 (.noRenderer x.2.raw .table) := by
    intro x
    have hevaluate : Recoverable (f.evaluate scope x.2.inner) := by
      rw [evaluate_filler hf]
      exact Environment.recoverable_evaluate hfunctions x.2.inner
    have hrecovers : f.settings.recoversUnresolved := by
      rw [settings_filler hf]
      exact hrecovers
    rw [Filler.fault?_eq (renderers_filler hf hrenderers) hrecovers hevaluate, evaluate_filler hf,
      ← isTabular, Option.guard]
    split <;> rfl
  rw [← List.findSome?_guard, List.map_findSome?]
  exact congrArg (List.findSome? · placeholders) (funext hfault)

/-- A document without comments, filled with settings that make up for expressions without a
    value, and without functions and further renderers: the filling fails if and only if a
    placeholder is for tabular data, and the error is about the first of these. -/
theorem fill_eq_error_iff (hopening : e.settings.opening ≠ "") (hclosing : e.settings.closing ≠ "")
    (hrecovers : e.settings.recoversUnresolved) (hfunctions : e.environment.functions = [])
    (hrenderers : e.renderers = []) (hidle : ∀ h ∈ e.registry.handlers, h.IsIdle)
    (hcomments : doc.comments = []) (error : Error) :
    e.fill scope doc = .error error ↔ ∃ text p,
      (doc.placeholders ⟨e.settings.opening, e.settings.closing, hopening, hclosing⟩).find?
          (fun x => e.isTabular scope x.2) = some (text, p) ∧
        error = .unresolved p.raw text (.noRenderer p.raw .table) := by
  obtain ⟨f, hf, hdelimiters⟩ := exists_filler hopening hclosing
  have hfill : e.fillWith f scope doc = .error error ↔ _ := failsAs_fillWith hcomments hidle error
  rw [findSome?_fault? hf hrecovers hfunctions hrenderers, Option.map_eq_some_iff, Prod.exists]
    at hfill
  rw [fill_eq, hf, ← hdelimiters]
  refine Iff.trans hfill ?_
  simp only [eq_comm]

/-- An engine that leaves placeholders without a value as they are. -/
def tolerant : Engine where
  settings := { failOnUnresolved := false }

/-- A sheet with prices: the first placeholder has no value, the last two have prices. -/
def priceSheet : Document where
  body := [.paragraph { content := [.run (.ofText "Rebate: $\x7b1 / 0\x7d")] },
    .table { rows := [⟨0, [.ofParagraph { content := [.run (.ofText "Now $\x7bprices\x7d")] }]⟩] },
    .paragraph { content := [.run (.ofText "Later $\x7bprices\x7d")] }]

/-- The prices as tabular data. -/
def sheetPrices : Value :=
  .ofEntries [("prices", .table ⟨["Price"], [["2"]]⟩)]

theorem fill_eq_error_iff_priceSheet :
    tolerant.settings.recoversUnresolved ∧ priceSheet.comments = [] ∧
      (∀ error, tolerant.fill sheetPrices priceSheet = .error error ↔
        error = .unresolved "$\x7bprices\x7d" "Now $\x7bprices\x7d"
          (.noRenderer "$\x7bprices\x7d" .table)) ∧
      ∀ error, tolerant.fill .null priceSheet ≠ .error error := by
  have hiff := fun scope => @fill_eq_error_iff tolerant scope priceSheet (by decide) (by decide)
    rfl rfl rfl (fun _ => Registry.isIdle_of_mem_builtin) rfl
  refine ⟨rfl, rfl, fun error => ?_, fun error h => ?_⟩
  · have hfind : ((priceSheet.placeholders .standard).find? fun x => tolerant.isTabular sheetPrices x.2) =
        some ("Now $\x7bprices\x7d", ⟨"$\x7bprices\x7d", "prices", 4, 13⟩) := by decide +kernel
    rw [hiff]
    constructor
    · rintro ⟨text, p, h, rfl⟩
      obtain ⟨rfl, rfl⟩ := Prod.mk.inj (Option.some.inj (hfind.symm.trans h))
      rfl
    · rintro rfl
      exact ⟨_, _, hfind, rfl⟩
  · obtain ⟨text, p, h, -⟩ := (hiff .null error).1 h
    have hfind : ((priceSheet.placeholders .standard).find? fun x => tolerant.isTabular .null x.2) =
        none := by decide +kernel
    cases hfind.symm.trans h

/-- A handler that refuses to commit, whether it has anything to commit or not. -/
def refusal : Handler where
  signatures := [("review", 1)]
  accept _ _ := .ok none
  commit _ _ := throw (.evaluation "review" (.other "refused"))

/-- The engine with this handler, beside the built-in ones. -/
def refusing : Engine :=
  { tolerant with registry := ⟨Registry.builtin.handlers ++ [refusal]⟩ }

/-- With a handler that refuses to commit nothing, a filling fails also without tabular data. -/
theorem fill_eq_error_refusing :
    tolerant.addHandler refusal = .ok refusing ∧ priceSheet.comments = [] ∧
      refusing.settings.recoversUnresolved ∧ refusing.environment.functions = [] ∧
      refusing.renderers = [] ∧
      (∀ x ∈ priceSheet.placeholders .standard, refusing.isTabular .null x.2 = false) ∧
      refusing.fill .null priceSheet = .error (.evaluation "review" (.other "refused")) := by
  refine ⟨?_, rfl, rfl, rfl, rfl, by decide +kernel, ?_⟩
  · have hconflict : Registry.builtin.conflict? refusal = none := by decide +kernel
    rw [addHandler, Registry.register, tolerant, hconflict]
    rfl
  · have herror : ((refusing.fill .null priceSheet).map fun _ => ()) =
        .error (.evaluation "review" (.other "refused")) := by decide +kernel
    exact Except.map_eq_error.1 herror

end Engine

end DocTemplate
