import DocTemplate.Proofs.Engine.Application
import DocTemplate.Proofs.Expr.Relevance

/-!
# What fillings depend on

A filling evaluates expressions in the scope it is given at two places, both in the visit: the
placeholders of the paragraphs, and the arguments of the comments. All of them can be read
off the document before it is filled (`Engine.expressions`). What comes after the visit has
its scopes from there: a repetition fills its copies in the scope of items, and these were
values of arguments.

So of the scope only what these expressions name goes into the document and the report, and
into the error if there is one.

* `Filler.fillParagraph_scope_congr`: the filling of a paragraph;
* `Desks.dispatch_scope_congr`: the dispatch of a comment;
* `Engine.visitAll_scope_congr`: the visit;
* `Engine.fill_scope_congr`: all of it.
-/

namespace DocTemplate

/-! ## The expressions in a document -/

/-- The expressions of the placeholders in a text, of those that have one. -/
def Delimiters.expressions (d : Delimiters) (text : String) : List Expr :=
  (d.scan text).filterMap fun p => Expr.parse? p.inner

/-- The expressions of a comment, if it is a sequence of them. -/
def Comment.expressions (c : Comment) : List Expr :=
  (Expr.parseSequence? c.text).getD []

/-- The expressions in the placeholders of the body and in the comments of a document. -/
def Engine.expressions (e : Engine) (doc : Document) : List Expr :=
  let delimiters := Delimiters.make e.settings.opening e.settings.closing
  (delimiters.toOption.toList.flatMap fun d => doc.paragraphs.flatMap fun p =>
    d.expressions p.text) ++ doc.comments.flatMap Comment.expressions

/-! ## Placeholders -/

namespace Filler

variable {f : Filler} {scope scope' : Value}

/-- A paragraph is filled alike in two scopes that give its placeholders the same values. -/
theorem fillParagraph_scope_congr {p : Paragraph}
    (h : ∀ ph ∈ f.delimiters.scan p.text, f.evaluate scope' ph.inner = f.evaluate scope ph.inner) :
    f.fillParagraph scope' p = f.fillParagraph scope p := by
  -- The other scope may as well be in the filler, which evaluates nothing else.
  let g : Filler := { f with evaluate := fun _ => f.evaluate scope' }
  have hg : f.Alike g fun s text => s = scope ∧ text = p.text :=
    { delimiters := rfl
      settings := rfl
      renderingOf := by
        rintro s text ⟨rfl, rfl⟩ ph hph
        simp only [renderingOf, g, h ph hph] }
  exact fillParagraph_congr (g := g) hg ⟨rfl, rfl⟩

end Filler

/-! ## Comments -/

section Comments

variable {env : Environment} {settings : Settings} {scope scope' : Value} {site : Site}
  {calls : List Call}

/-- The instructions of calls are the same in two scopes that give their arguments the same
    values. -/
theorem Call.instructions_scope_congr
    (h : ∀ call ∈ calls, call.evaluate env scope' = call.evaluate env scope) :
    instructions env settings scope' site calls = instructions env settings scope site calls := by
  induction calls with
  | nil => rfl
  | cons call calls ih =>
    rw [instructions, instructions, h call List.mem_cons_self,
      ih fun call hcall => h call (List.mem_cons_of_mem _ hcall)]

theorem Desks.dispatch_scope_congr
    (h : ∀ call ∈ calls, call.evaluate env scope' = call.evaluate env scope) (d : Desks) :
    d.dispatch env settings scope' site calls = d.dispatch env settings scope site calls := by
  rw [dispatch, dispatch, Call.instructions_scope_congr h]

/-- The arguments of the calls that a comment makes are in its expressions. -/
theorem Registry.argLeaves_subset_of_calls {registry : Registry} {c : Comment}
    (h : registry.calls c.text = .ok calls) {call : Call} (hcall : call ∈ calls) :
    ∃ x ∈ c.expressions, Expr.argLeaves call.args = x.leaves := by
  obtain ⟨parsed, hparsed, h⟩ := Except.bind_eq_ok.1 h
  split at h
  · cases h
  obtain rfl := Except.ok.inj h
  rw [Call.parseAll] at hparsed
  split at hparsed
  · cases hparsed
    cases hcall
  · split at hparsed
    · cases hparsed
    · next exprs hexprs =>
      obtain ⟨x, hx, hcall⟩ := (Except.mapM_eq_ok_iff.1 hparsed).exists_of_mem_right hcall
      refine ⟨x, by simpa [Comment.expressions, hexprs] using hx, ?_⟩
      -- An expression that is a call has the arguments of the call.
      cases x <;> cases hcall
      rfl

end Comments

/-! ## Fillings -/

namespace Engine

variable {e : Engine} {f : Filler} {scope scope' : Value} {plan : Plan} {doc : Document}

theorem dispatch_scope_congr {site : Site} {calls : List Call}
    (h : ∀ call ∈ calls, call.evaluate e.environment scope' = call.evaluate e.environment scope)
    (v : Visit) : e.dispatch scope' site calls v = e.dispatch scope site calls v := by
  rw [dispatch, dispatch, Desks.dispatch_scope_congr h]

/-- The visit is the same in two scopes that give the same values to the placeholders and to
    the arguments of the comments in the plan. -/
theorem visitAll_scope_congr {merged : Nat}
    (hplaceholders : ∀ p ∈ doc.paragraphs, ∀ ph ∈ f.delimiters.scan p.text,
      f.evaluate scope' ph.inner = f.evaluate scope ph.inner)
    (harguments : ∀ entry ∈ plan.entries, ∀ call ∈ entry.2,
      call.evaluate e.environment scope' = call.evaluate e.environment scope) :
    e.visitAll f scope' plan doc merged = e.visitAll f scope plan doc merged := by
  have hwalk : Block.walkAll (e.visit f scope' plan) doc.body =
      Block.walkAll (e.visit f scope plan) doc.body := by
    refine Block.walkAll_congr fun around p hp => ?_
    have hmem : p ∈ doc.paragraphs := Document.mem_paragraphs_iff_outline.2 ⟨around, hp⟩
    have hfill : fillParagraph f scope' plan p = fillParagraph f scope plan p := by
      rw [fillParagraph, fillParagraph,
        Filler.fillParagraph_scope_congr (hplaceholders p hmem)]
    rw [visit, visit, hfill]
    congr 1
    funext q
    congr 1
    refine forIn_congr_of_mem fun entry hentry => ?_
    -- A comment that is dispatched here has an entry in the plan.
    have hcalls := harguments entry (List.mem_filter.1 hentry).1
    funext _
    simp only [dispatch_scope_congr hcalls]
  rw [visitAll, visitAll, hwalk]

/-- The expressions of a placeholder of the body are among those of the document. -/
theorem mem_expressions_of_placeholder (hf : e.filler = .ok f) {p : Paragraph}
    (hp : p ∈ doc.paragraphs) {ph : Placeholder} (hph : ph ∈ f.delimiters.scan p.text) {x : Expr}
    (hx : Expr.parse? ph.inner = some x) : x ∈ e.expressions doc := by
  refine List.mem_append_left _
    (List.mem_flatMap.2 ⟨f.delimiters, ?_, List.mem_flatMap.2 ⟨p, hp, ?_⟩⟩)
  · simp [delimiters_filler hf, Except.toOption]
  · exact List.mem_filterMap.2 ⟨ph, hph, hx⟩

/-- The arguments of the comments in a plan are in expressions of the document. -/
theorem exists_of_mem_entries
    (hplan : Plan.ofDocument e.registry e.settings (e.prepared doc) = .ok plan)
    {entry : Region × List Call} (hentry : entry ∈ plan.entries) {call : Call}
    (hcall : call ∈ entry.2) :
    ∃ x ∈ e.expressions doc, Expr.argLeaves call.args = x.leaves := by
  obtain ⟨hregion, -, hcalls⟩ := (Plan.accounts_ofDocument hplan).entries entry hentry
  obtain ⟨⟨c, hc, htext, -⟩, -⟩ := Document.region_spec hregion
  rw [Registry.interpret_eq_some_iff, htext] at hcalls
  obtain ⟨x, hx, hleaves⟩ := Registry.argLeaves_subset_of_calls hcalls hcall
  have hcomments : (e.prepared doc).comments = doc.comments :=
    (doc.assignIds.tidied_prepare e.settings).comments
  have hmem : c ∈ doc.comments := by
    rw [← hcomments]
    exact List.mem_of_find?_eq_some hc
  exact ⟨x, List.mem_append_right _ (List.mem_flatMap.2 ⟨c, hmem, hx⟩), hleaves⟩

section Scopes

variable {entries entries' : List (String × Value)}
  (haccessors : e.environment.accessors = [])
  (hsame : ∀ x ∈ e.expressions doc, Expr.SameIn entries entries' x.leaves)

include haccessors hsame

/-- The placeholders of the document that is visited have the same values. -/
theorem evaluate_scope_congr (hf : e.filler = .ok f) {p : Paragraph}
    (hp : p ∈ (e.prepared doc).paragraphs) {ph : Placeholder}
    (hph : ph ∈ f.delimiters.scan p.text) :
    f.evaluate (.map entries') ph.inner = f.evaluate (.map entries) ph.inner := by
  -- The texts are those of the document that was given.
  have htext : p.text ∈ doc.paragraphs.map Paragraph.text := by
    rw [← map_text_prepared]
    exact List.mem_map_of_mem hp
  obtain ⟨q, hq, htext⟩ := List.mem_map.1 htext
  rw [← htext] at hph
  rw [evaluate_filler hf]
  exact Environment.evaluate_congr haccessors fun x hx =>
    hsame x (mem_expressions_of_placeholder hf hq hph hx)

/-- And so have the arguments of the comments in a plan. -/
theorem evaluate_args_scope_congr
    (hplan : Plan.ofDocument e.registry e.settings (e.prepared doc) = .ok plan)
    {entry : Region × List Call} (hentry : entry ∈ plan.entries) {call : Call}
    (hcall : call ∈ entry.2) :
    call.evaluate e.environment (.map entries') = call.evaluate e.environment (.map entries) := by
  obtain ⟨x, hx, hleaves⟩ := exists_of_mem_entries hplan hentry hcall
  refine Expr.evalAll_congr haccessors call.args ?_
  rw [hleaves]
  exact hsame x hx

/-- The filling is the same up to its edits, which do not look at the scope. -/
theorem stage_scope_congr (hf : e.filler = .ok f) :
    e.stage f (.map entries') doc = e.stage f (.map entries) doc := by
  have hvisit : ∀ plan, Plan.ofDocument e.registry e.settings (e.prepared doc) = .ok plan →
      ∀ merged, e.visitAll f (.map entries') plan (e.prepared doc) merged =
        e.visitAll f (.map entries) plan (e.prepared doc) merged :=
    fun plan hplan merged => visitAll_scope_congr
      (fun p hp ph hph => evaluate_scope_congr haccessors hsame hf hp hph)
      fun entry hentry call hcall =>
        evaluate_args_scope_congr haccessors hsame hplan hentry hcall
  rw [prepared] at hvisit
  rw [stage, stage]
  generalize doc.assignIds.prepare e.settings = outcome at hvisit ⊢
  obtain ⟨visited, merged⟩ := outcome
  dsimp only at hvisit ⊢
  cases hplan : Plan.ofDocument e.registry e.settings visited with
  | error error => simp only [bind, Except.bind]
  | ok plan => simp only [bind, Except.bind, hvisit plan hplan merged]

end Scopes

/-- A filling in the scope of a map depends on the properties that occur in the expressions of
    the document, if the scope as a whole does not occur there and there are no accessors. -/
theorem fill_scope_congr (haccessors : e.environment.accessors = [])
    {entries entries' : List (String × Value)}
    (hscope : ∀ x ∈ e.expressions doc, x.readsScope = false)
    (hnames : ∀ x ∈ e.expressions doc, ∀ name ∈ x.names,
      entries'.lookup name = entries.lookup name) :
    e.fill (.map entries') doc = e.fill (.map entries) doc := by
  have hsame : ∀ x ∈ e.expressions doc, Expr.SameIn entries entries' x.leaves := by
    refine fun x hx => ⟨fun y hy => ?_, hnames x hx⟩
    exact Bool.eq_false_iff.2 fun hy' => List.any_eq_false.1 (hscope x hx) y hy hy'
  rw [fill_eq, fill_eq]
  cases hf : e.filler with
  | error error => simp only [bind, Except.bind]
  | ok f =>
    have hstage := stage_scope_congr haccessors hsame hf
    simp only [bind, Except.bind, fillWith, hstage]

/-- A memo with a name and a list to be filled in. -/
def memo : Document where
  body := [.paragraph { content := [.run (.ofText "Dear $\x7bname\x7d,")] },
    .paragraph { content := [.rangeStart 1, .run (.ofText "* $\x7bitem\x7d"), .rangeEnd 1] }]
  comments := [.ofText 1 "repeatParagraph(tasks)"]

/-- What is filled in, and a number that is nobody's business. -/
def memoData (salary : Int64) : List (String × Value) :=
  [("name", .string "Ann"), ("salary", .int salary),
    ("tasks", .list [.ofEntries [("item", .string "call")], .ofEntries [("item", .string "write")]])]

theorem fill_scope_congr_memo :
    (memoData 1).lookup "salary" ≠ (memoData 2).lookup "salary" ∧
      (({} : Engine).fill (.map (memoData 1)) memo).toOption.map (fun r => r.1.text) =
        some "Dear Ann,\n* call\n* write" ∧
      ({} : Engine).fill (.map (memoData 2)) memo = ({} : Engine).fill (.map (memoData 1)) memo := by
  have hnames : (({} : Engine).expressions memo).flatMap Expr.names = ["name", "item", "tasks"] := by
    decide +kernel
  have hdiffer : some (Value.int 1) ≠ some (.int 2) := by simp
  refine ⟨hdiffer, by decide +kernel,
    fill_scope_congr rfl (by decide +kernel) fun x hx name hname => ?_⟩
  have hmem : name ∈ ["name", "item", "tasks"] := by
    rw [← hnames]
    exact List.mem_flatMap.2 ⟨x, hx, hname⟩
  simp only [List.mem_cons, List.not_mem_nil, or_false] at hmem
  -- Each of the three is the same in both, and one is missing in both.
  rcases hmem with rfl | rfl | rfl <;> rfl

end Engine

end DocTemplate
