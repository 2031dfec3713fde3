import DocTemplate.Proofs.Directive.Count
import DocTemplate.Proofs.Directive.Display
import DocTemplate.Proofs.Engine.Expansion

/-!
# Documents that hide parts

What becomes of a document whose comments only say under which conditions parts of it are
displayed. All of its paragraphs are filled, and then the parts that are hidden are taken out
at once: paragraphs in which comments start, and the rows and tables directly around them
(`Call.Hides`). It does not matter that one such part may be in another, that several comments
may hide the same one, and in which order they do.

* `Call.Makes.part?_eq_some_iff`: what an instruction hides, in terms of the tree;
* `Stage.Of.exists_fillBlocks`: the visit fills all paragraphs;
* `Stage.Of.mem_parts_iff`: the parts that are removed;
* `Stage.Of.paragraphsRemoved`: the number of paragraphs among them;
* `Engine.display_law`: the document after a filling.
-/

namespace DocTemplate

/-! ## What a comment hides -/

/-- A directive hides a part of some blocks; its comment starts in the paragraph `start`. -/
inductive Call.Hides (env : Environment) (scope : Value) (blocks : List Block) (start : NodeId)
    (call : Call) : Part → Prop
  /-- The paragraph, if a condition is false or null. -/
  | paragraph {v : Value} (hname : call.name = .displayParagraphIf)
      (hv : call.evaluate env scope = .ok [v]) (hfalsy : v.isFalsy) :
      Hides env scope blocks start call (.block start)
  /-- The paragraph, if a value is null. -/
  | absent {v : Value} (hname : call.name = .displayParagraphIfPresent)
      (hv : call.evaluate env scope = .ok [v]) (hnull : v.isNull) :
      Hides env scope blocks start call (.block start)
  /-- The row that has the paragraph in one of its cells. -/
  | row {v : Value} {t : Table Block} {row : Row Block} {p : Paragraph}
      (hname : call.name = .displayTableRowIf) (hv : call.evaluate env scope = .ok [v])
      (hfalsy : v.isFalsy) (ht : .table t ∈ blocks.flatMap Block.subblocks) (hrow : row ∈ t.rows)
      (hp : .paragraph p ∈ row.items) (hid : p.id = start) :
      Hides env scope blocks start call (.row row.id)
  /-- The table that has the paragraph in one of its cells. -/
  | table {v : Value} {t : Table Block} {p : Paragraph} (hname : call.name = .displayTableIf)
      (hv : call.evaluate env scope = .ok [v]) (hfalsy : v.isFalsy)
      (ht : .table t ∈ blocks.flatMap Block.subblocks) (hp : .paragraph p ∈ t.items)
      (hid : p.id = start) : Hides env scope blocks start call (.block t.id)

/-- A comment hides a part: all its arguments have values, and one of its directives hides
    the part. -/
structure Engine.Hides (e : Engine) (scope : Value) (blocks : List Block)
    (entry : Region × List Call) (part : Part) : Prop where
  values : ∀ call ∈ entry.2, ∃ args, call.evaluate e.environment scope = .ok args
  directive : ∃ call ∈ entry.2, call.Hides e.environment scope blocks entry.1.start part

/-- The comments of the plan have no other directives than those of conditional display. -/
def Plan.DisplaysOnly (plan : Plan) : Prop :=
  ∀ entry ∈ plan.entries, ∀ call ∈ entry.2, call.name.toString ∈ Handler.display.names

instance (plan : Plan) : Decidable plan.DisplaysOnly :=
  inferInstanceAs (Decidable (∀ entry ∈ plan.entries, ∀ call ∈ entry.2, _ ∈ _))

namespace Block

variable {blocks : List Block} {p : Paragraph} {around : List CellPosition}

/-- The innermost cell around a paragraph is the one that has it. -/
theorem exists_of_head?_around (hp : ⟨.paragraph p, around⟩ ∈ outlineOf blocks [])
    {position : CellPosition} (hposition : around.head? = some position) :
    ∃ t, .table t ∈ blocks.flatMap subblocks ∧ t.id = position.table ∧
      ∃ row ∈ t.rows, row.id = position.row ∧ .paragraph p ∈ row.items := by
  obtain ⟨b, hb, hp⟩ := List.mem_flatMap.1 hp
  cases around with
  | nil => cases hposition
  | cons position' rest =>
    obtain rfl := Option.some.inj hposition
    rcases exists_cell_of_mem_outline hp with ⟨-, hnil⟩ |
      ⟨-, t, ht, htid, row, hrow, hrid, cell, hcell, hmem⟩
    · cases hnil
    · exact ⟨t, List.mem_flatMap.2 ⟨b, hb, ht⟩, htid, row, hrow, hrid,
        List.mem_flatMap.2 ⟨cell, List.mem_of_getElem? hcell, hmem⟩⟩

/-- Where no number is given twice, a cell that has a paragraph is the innermost one around
    it. -/
theorem head?_around_of_mem_items (hnodup : ((outlineOf blocks []).map Placed.id).Nodup)
    (hp : ⟨.paragraph p, around⟩ ∈ outlineOf blocks []) {t : Table Block} {row : Row Block}
    {q : Paragraph} (ht : .table t ∈ blocks.flatMap subblocks) (hrow : row ∈ t.rows)
    (hq : .paragraph q ∈ row.items) (hid : q.id = p.id) :
    ∃ c, around.head? = some ⟨t.id, row.id, c⟩ := by
  obtain ⟨b, hb, ht⟩ := List.mem_flatMap.1 ht
  obtain ⟨a, ha⟩ := exists_outline_subset ht []
  obtain ⟨cell, hcell, hq⟩ := List.mem_flatMap.1 hq
  obtain ⟨c, hc⟩ := List.mem_iff_getElem?.1 hcell
  have hmem : (⟨.paragraph q, ⟨t.id, row.id, c⟩ :: a⟩ : Placed) ∈ outlineOf blocks [] := by
    refine List.mem_flatMap.2 ⟨b, hb, ha ?_⟩
    rw [outline_table]
    exact Table.mem_outline.2 (.inr ⟨row, hrow, Row.mem_outline.2 (.inr
      ⟨cell, c, .paragraph q, hc, hq, by simp⟩)⟩)
  have heq := List.inj_on_of_nodup_map hnodup hmem hp hid
  cases heq
  exact ⟨c, rfl⟩

end Block

/-- What an instruction hides is what its call hides. -/
theorem Call.Makes.part?_eq_some_iff {env : Environment} {scope : Value} {blocks : List Block}
    {call : Call} {i : Instruction} {r : Region} {p : Paragraph} {text : String}
    {around : List CellPosition} {part : Part}
    (h : call.Makes env scope ⟨r, p.id, text, around.head?⟩ i) (hargs : i.args.length = 1)
    (hnodup : ((Block.outlineOf blocks []).map Placed.id).Nodup)
    (hp : ⟨.paragraph p, around⟩ ∈ Block.outlineOf blocks []) :
    Display.part? i = some part ↔ call.Hides env scope blocks p.id part := by
  obtain ⟨v, hv⟩ := List.length_eq_one_iff.1 hargs
  have harg : i.arg = v := by rw [Instruction.arg, hv]; rfl
  have heval : call.evaluate env scope = .ok [v] := hv ▸ h.args
  constructor
  · -- The row and the table are those of the innermost cell around the paragraph.
    intro hpart
    rw [Display.part?, harg, h.site] at hpart
    split at hpart
    · next hname =>
      obtain ⟨hfalsy, hpart⟩ := Option.ite_none_right_eq_some.1 hpart
      obtain rfl := Option.some.inj hpart
      exact .paragraph (h.name.symm.trans hname) heval hfalsy
    · next hname =>
      obtain ⟨hnull, hpart⟩ := Option.ite_none_right_eq_some.1 hpart
      obtain rfl := Option.some.inj hpart
      exact .absent (h.name.symm.trans hname) heval hnull
    · next hname =>
      obtain ⟨hfalsy, hpart⟩ := Option.ite_none_right_eq_some.1 hpart
      obtain ⟨position, hposition, rfl⟩ := Option.map_eq_some_iff.1 hpart
      obtain ⟨t, ht, -, row, hrow, hrid, hitem⟩ := Block.exists_of_head?_around hp hposition
      rw [← hrid]
      exact .row (h.name.symm.trans hname) heval hfalsy ht hrow hitem rfl
    · next hname =>
      obtain ⟨hfalsy, hpart⟩ := Option.ite_none_right_eq_some.1 hpart
      obtain ⟨position, hposition, rfl⟩ := Option.map_eq_some_iff.1 hpart
      obtain ⟨t, ht, htid, row, hrow, -, hitem⟩ := Block.exists_of_head?_around hp hposition
      rw [← htid]
      exact .table (h.name.symm.trans hname) heval hfalsy ht
        (List.mem_flatMap.2 ⟨row, hrow, hitem⟩) rfl
    · cases hpart
  · intro hhides
    have hvalue : ∀ {w : Value}, call.evaluate env scope = .ok [w] → w = v := fun hw =>
      (List.cons.inj (Except.ok.inj (hw.symm.trans heval))).1
    cases hhides with
    | paragraph hname hw hfalsy =>
      obtain rfl := hvalue hw
      simp only [Display.part?, h.name, hname, harg, hfalsy, h.site, if_true]
    | absent hname hw hnull =>
      obtain rfl := hvalue hw
      simp only [Display.part?, h.name, hname, harg, hnull, h.site, if_true]
    | row hname hw hfalsy ht hrow hq hid =>
      obtain rfl := hvalue hw
      obtain ⟨c, hc⟩ := Block.head?_around_of_mem_items hnodup hp ht hrow hq hid
      simp only [Display.part?, h.name, hname, harg, hfalsy, h.site, hc, if_true, Option.map_some]
    | table hname hw hfalsy ht hq hid =>
      obtain rfl := hvalue hw
      obtain ⟨row, hrow, hq⟩ := List.mem_flatMap.1 hq
      obtain ⟨c, hc⟩ := Block.head?_around_of_mem_items hnodup hp ht hrow hq hid
      simp only [Display.part?, h.name, hname, harg, hfalsy, h.site, hc, if_true, Option.map_some]

/-! ## Directives of conditional display -/

namespace Registry

variable {name : String}

/-- The directives of conditional display go to the first handler. -/
theorem place?_of_mem_display (h : name ∈ Handler.display.names) : builtin.place? name = some 0 := by
  simp [place?, builtin, List.findIdx?_cons, h]

/-- They have one argument. -/
theorem arity?_of_mem_display (h : name ∈ Handler.display.names) : builtin.arity? name = some 1 := by
  simp only [Handler.names, Handler.display, List.map_cons, List.map_nil, List.mem_cons,
    List.not_mem_nil, or_false] at h
  rcases h with rfl | rfl | rfl | rfl <;> rfl

theorem not_defers_of_mem_display (h : name ∈ Handler.display.names) : ¬ builtin.defers name := by
  rw [defers_builtin_iff]
  rintro rfl
  revert h
  decide

/-- The calls that a comment makes have as many arguments as their directives. -/
theorem length_args_of_calls {registry : Registry} {text : String} {calls : List Call}
    (h : registry.calls text = .ok calls) {call : Call} (hcall : call ∈ calls) :
    registry.arity? call.name.toString = some call.args.length := by
  obtain ⟨parsed, -, h⟩ := Except.bind_eq_ok.1 h
  split at h
  · cases h
  · next hnone =>
    obtain rfl := Except.ok.inj h
    have hfault := List.findSome?_eq_none_iff.1 hnone call hcall
    rw [fault?] at hfault
    split at hfault
    · cases hfault
    · next arity harity =>
      split at hfault
      · next hlength => rw [harity, hlength]
      · cases hfault

end Registry

theorem Expr.length_evalAll {env : Environment} {scope : Value} {es : List Expr} {vs : List Value}
    (h : evalAll env scope es = .ok vs) : vs.length = es.length := by
  induction es generalizing vs with
  | nil =>
    cases h
    rfl
  | cons e es ih =>
    rw [evalAll] at h
    obtain ⟨v, -, h⟩ := Except.bind_eq_ok.1 h
    obtain ⟨rest, hrest, h⟩ := Except.bind_eq_ok.1 h
    cases h
    rw [List.length_cons, List.length_cons, ih hrest]

/-- The parts that the moves of a stage take out. -/
def Stage.parts (s : Stage) : List Part :=
  s.moves.filterMap Move.part?

namespace Stage.Of

variable {s : Stage} {e : Engine} {f : Filler} {scope : Value} {doc : Document}
  (h : s.Of e f scope doc)
include h

/-- The visit fills all paragraphs if none is left to an edit. -/
theorem exists_fillBlocks (hdeferred : s.plan.deferred = []) :
    ∃ tally, f.fillBlocks scope (e.prepared doc).body = .ok (s.document.body, tally) := by
  obtain ⟨-, body, hrun, hdoc⟩ := h.exists_visitAll
  have hvisits : (Simulation.stateful (ε := Error)).rel Eq
      (Block.walkAll (f.visit scope) (e.prepared doc).body)
      (Block.walkAll (e.visit f scope s.plan) (e.prepared doc).body) := by
    refine Simulation.stateful.walkAll_self (fun around p v q v' hq tally => ?_) _
    have hnode : (Placed.visit (e.visit f scope s.plan) ⟨.paragraph p, around⟩).run v =
        .ok (⟨.paragraph q, around⟩, v') :=
      StateT.run_bind_eq_ok.2 ⟨q, v', hq, StateT.run_pure_eq_ok.2 ⟨rfl, rfl⟩⟩
    have hfilled := (Engine.run_visit Engine.views_dispatchStep hnode).1.2
    dsimp only at hfilled
    rw [hdeferred, if_neg (by simp)] at hfilled
    obtain ⟨counted, hfill⟩ := hfilled
    refine ⟨q, tally.add counted, ?_, rfl⟩
    rw [Filler.run_visit, hfill]
    rfl
  obtain ⟨filled, tally, hfill, rfl⟩ := hvisits _ _ _ hrun {}
  exact ⟨tally, by rw [hdoc]; exact hfill⟩

/-- No number is there twice. -/
theorem nodup_outline : (s.document.outline.map Placed.id).Nodup := by
  rw [h.map_id_outline]
  exact List.nodup_range'

theorem id_ne_of_mem_outline {p : Paragraph} (hp : p ∈ s.document.paragraphs) {id : NodeId}
    {a : List CellPosition} (ht : ⟨.table id, a⟩ ∈ s.document.outline) : p.id ≠ id := by
  intro hid
  obtain ⟨around, hp⟩ := Document.mem_paragraphs_iff_outline.1 hp
  cases List.inj_on_of_nodup_map h.nodup_outline hp ht hid

section Displays

variable (hdisplays : s.plan.DisplaysOnly)
include hdisplays

/-- Comments that only display parts leave no placeholders to edits. -/
theorem deferred_eq_nil : s.plan.deferred = [] := by
  refine List.eq_nil_iff_forall_not_mem.2 fun id hid => ?_
  obtain ⟨entry, hentry, hdefers, -⟩ := (h.accounts.deferred id).1 hid
  obtain ⟨call, hcall, hdefers⟩ := List.any_eq_true.1 hdefers
  exact Registry.not_defers_of_mem_display (hdisplays entry hentry call hcall) hdefers

/-- Every directive has one value, if its argument has any. -/
theorem length_values {entry : Region × List Call} (hentry : entry ∈ s.plan.entries) {call : Call}
    (hcall : call ∈ entry.2) {vs : List Value} (hvs : call.evaluate e.environment scope = .ok vs) :
    vs.length = 1 := by
  have hcalls := Registry.interpret_eq_some_iff.1 (h.accounts.entries entry hentry).2.2
  have harity := Registry.length_args_of_calls hcalls hcall
  rw [Registry.arity?_of_mem_display (hdisplays entry hentry call hcall), Option.some.injEq] at harity
  rw [Expr.length_evalAll hvs, harity]

/-- The instructions given: each comes from a directive of a comment in whose arguments all have
    values, and every such directive gives one. -/
theorem exists_given : ∃ given : List Instruction,
    s.visit.desks.Served e.settings .builtin given ∧
      (∀ i ∈ given, i.name.toString ∈ Handler.display.names ∧ ∃ p around,
        ⟨.paragraph p, around⟩ ∈ s.document.outline ∧ i.site.paragraph = p.id ∧
          i.site.cell = around.head?) ∧
      ∀ part, (∃ i ∈ given, Display.part? i = some part) ↔
        ∃ entry ∈ s.plan.entries, e.Hides scope s.document.body entry part := by
  obtain ⟨applied, happlied, haccept, -⟩ := Engine.exists_applied h.stage
  have hserved := (Desks.served_desks e.settings e.registry).foldlM_accept haccept
  rw [List.nil_append, h.registry] at hserved
  refine ⟨applied.flatten, hserved, fun i hi => ?_, fun part => ⟨?_, ?_⟩⟩
  · obtain ⟨is, his, hi⟩ := List.mem_flatten.1 hi
    obtain ⟨entry, hentry, p, around, hp, -, hentryApplied⟩ := happlied.exists_of_mem_right his
    cases hentryApplied with
    | skipped => cases hi
    | all hmakes =>
      obtain ⟨call, hcall, hmakes⟩ := hmakes.exists_of_mem_right hi
      refine ⟨?_, p, around, hp, by rw [hmakes.site], by rw [hmakes.site]⟩
      rw [hmakes.name]
      exact hdisplays entry hentry call hcall
  · rintro ⟨i, hi, hpart⟩
    obtain ⟨is, his, hi⟩ := List.mem_flatten.1 hi
    obtain ⟨entry, hentry, p, around, hp, hstart, hentryApplied⟩ :=
      happlied.exists_of_mem_right his
    cases hentryApplied with
    | skipped => cases hi
    | all hall =>
      obtain ⟨call, hcall, hmakes⟩ := hall.exists_of_mem_right hi
      have hlength := h.length_values hdisplays hentry hcall hmakes.args
      refine ⟨entry, hentry, fun call hcall => ?_, call, hcall, ?_⟩
      · obtain ⟨i, -, hmakes⟩ := hall.exists_of_mem_left hcall
        exact ⟨i.args, hmakes.args⟩
      · rw [hstart]
        exact (hmakes.part?_eq_some_iff hlength h.nodup_outline hp).1 hpart
  · rintro ⟨entry, hentry, hvalues, call, hcall, hhides⟩
    obtain ⟨is, his, p, around, hp, hstart, hentryApplied⟩ := happlied.exists_of_mem_left hentry
    cases hentryApplied with
    | skipped hskipped hcall herror =>
      -- Not all of its arguments have values.
      obtain ⟨args, hargs⟩ := hvalues _ hcall
      rw [herror] at hargs
      cases hargs
    | all hall =>
      obtain ⟨i, hi, hmakes⟩ := hall.exists_of_mem_left hcall
      have hlength := h.length_values hdisplays hentry hcall hmakes.args
      rw [hstart] at hhides
      exact ⟨i, List.mem_flatten.2 ⟨is, his, hi⟩,
        (hmakes.part?_eq_some_iff hlength h.nodup_outline hp).2 hhides⟩

/-- All moves are removals. -/
theorem desk_of_mem_moves {m : Move} (hm : m ∈ s.moves) : m.pass.desk = 0 := by
  obtain ⟨given, hserved, hgiven, -⟩ := h.exists_given hdisplays
  obtain ⟨i, hi, -, -, hplace, -⟩ := hserved.exists_of_mem_editsAt (Desks.mem_moves_iff.1 hm)
  rw [Registry.place?_of_mem_display (hgiven i hi).1] at hplace
  exact (Option.some.inj hplace).symm

/-- Every edit for display is of an instruction where a comment starts. -/
theorem exists_of_mem_editsAt {edit : Edit} (hedit : edit ∈ s.visit.desks.editsAt 0) :
    ∃ p around, ⟨.paragraph p, around⟩ ∈ s.document.outline ∧
      (edit = .removeParagraph p.id ∨ ∃ position, around.head? = some position ∧
        (edit = .removeRow position.row ∨ edit = .removeTable position.table)) := by
  obtain ⟨given, hserved, hgiven, -⟩ := h.exists_given hdisplays
  obtain ⟨i, hi, handler, hhandler, -, haccept⟩ := hserved.exists_of_mem_editsAt hedit
  obtain rfl := Option.some.inj hhandler
  obtain ⟨-, p, around, hp, hparagraph, hcell⟩ := hgiven i hi
  refine ⟨p, around, hp, ?_⟩
  rw [← hparagraph, ← hcell]
  exact Display.cases_of_accept (show Display.accept e.settings i = _ from haccept)

/-- The parts that are removed are those that comments hide. -/
theorem mem_parts_iff {part : Part} : part ∈ s.parts ↔
    ∃ entry ∈ s.plan.entries, e.Hides scope s.document.body entry part := by
  obtain ⟨given, hserved, hgiven, hhides⟩ := h.exists_given hdisplays
  rw [← hhides, Stage.parts, List.mem_filterMap]
  constructor
  · rintro ⟨m, hm, hpart⟩
    have hdesk := h.desk_of_mem_moves hdisplays hm
    have hedit := Desks.mem_moves_iff.1 hm
    rw [hdesk] at hedit
    obtain ⟨i, hi, handler, hhandler, -, haccept⟩ := hserved.exists_of_mem_editsAt hedit
    obtain rfl := Option.some.inj hhandler
    refine ⟨i, hi, ?_⟩
    rw [← Display.part?_of_accept (show Display.accept e.settings i = _ from haccept)]
    exact Move.exists_part?_iff.1 ⟨m.pass, hdesk, hpart⟩
  · rintro ⟨i, hi, hpart⟩
    obtain ⟨outcome, haccept, houtcome⟩ := hserved.exists_outcome hi
      (Registry.place?_of_mem_display (hgiven i hi).1)
      (show Registry.builtin.handlers[0]? = some Handler.display from rfl)
    rw [← Display.part?_of_accept (show Display.accept e.settings i = _ from haccept)] at hpart
    obtain ⟨edit, rfl, hpart⟩ := Option.bind_eq_some_iff.1 hpart
    obtain ⟨pass, hdesk, hpart⟩ := Move.exists_part?_iff.2 hpart
    refine ⟨⟨pass, edit⟩, Desks.mem_moves_iff.2 ?_, hpart⟩
    dsimp only
    rw [hdesk]
    exact houtcome edit rfl

/-- Whatever the order in which the removals are made, and however often, the same is left. -/
theorem exists_yields_of_mem_iff {moves : List Move} (hmoves : ∀ m, m ∈ moves ↔ m ∈ s.moves) :
    ∃ report, (moves.forM (Move.perform f)).Yields s.start () ⟨s.document.prune s.parts, report⟩ := by
  have hdesk : ∀ m ∈ moves, m.pass.desk = 0 := fun m hm =>
    h.desk_of_mem_moves hdisplays ((hmoves m).1 hm)
  obtain ⟨report, hyields⟩ := Move.exists_yields_forM_prune (f := f) (d := s.start) hdesk
    (Document.nodup_ids h.nodup_outline)
  have hparts : ∀ part, part ∈ moves.filterMap Move.part? ↔ part ∈ s.parts := fun part => by
    simp only [Stage.parts, List.mem_filterMap, hmoves]
  rw [show s.start.document = s.document from rfl, Document.prune_congr hparts] at hyields
  exact ⟨report, hyields⟩

/-- The first pass removes paragraphs that are there. -/
theorem exists_paragraph_of_mem_editsAt {id : NodeId}
    (hid : .removeParagraph id ∈ s.visit.desks.editsAt 0) :
    ∃ p ∈ s.document.paragraphs, p.id = id := by
  obtain ⟨p, around, hp, hedit | ⟨position, -, hedit | hedit⟩⟩ :=
    h.exists_of_mem_editsAt hdisplays hid
  · cases hedit
    exact ⟨p, Document.mem_paragraphs_iff_outline.2 ⟨around, hp⟩, rfl⟩
  · cases hedit
  · cases hedit

/-- A paragraph that is removed, as long as it is there, is removed by the first pass. -/
theorem mem_parts_paragraph_iff {p : Paragraph} (hp : p ∈ s.document.paragraphs) :
    .block p.id ∈ s.parts ↔ .removeParagraph p.id ∈ s.visit.desks.editsAt 0 := by
  constructor
  · intro hpart
    obtain ⟨⟨pass, edit⟩, hm, hpart⟩ := List.mem_filterMap.1 hpart
    have hdesk := h.desk_of_mem_moves hdisplays hm
    have hedit := Desks.mem_moves_iff.1 hm
    dsimp only at hdesk hedit
    rw [hdesk] at hedit
    have hpart := Move.exists_part?_iff.1 ⟨pass, hdesk, hpart⟩
    obtain ⟨q, around, hq, rfl | ⟨position, hposition, rfl | rfl⟩⟩ :=
      h.exists_of_mem_editsAt hdisplays hedit
    · have hid : q.id = p.id := Part.block.inj (Option.some.inj hpart)
      exact hid ▸ hedit
    · cases hpart
    · -- The table around another paragraph has another number.
      obtain ⟨a, ha⟩ := Document.exists_table_of_around hq (List.mem_of_mem_head? hposition)
      exact absurd (Part.block.inj (Option.some.inj hpart)).symm (h.id_ne_of_mem_outline hp ha)
  · intro hedit
    exact List.mem_filterMap.2 ⟨⟨.paragraphs, .removeParagraph p.id⟩, Desks.mem_moves_iff.2 hedit, rfl⟩

/-- The moves, those that remove paragraphs first. -/
theorem exists_moves_eq : ∃ rest,
    s.moves = (s.visit.desks.editsAt 0).map (Move.mk .paragraphs) ++ rest ∧
      ∀ m ∈ rest, m.pass = .rows ∨ m.pass = .tables := by
  refine ⟨[Pass.rows, .tables, .repetitions, .words, .fills].flatMap fun pass =>
    (s.visit.desks.editsAt pass.desk).map (Move.mk pass), rfl, fun m hm => ?_⟩
  have hdesk : m.pass.desk = 0 := h.desk_of_mem_moves hdisplays (List.mem_append_right _ hm)
  obtain ⟨pass, hpass, hm⟩ := List.mem_flatMap.1 hm
  obtain ⟨edit, -, rfl⟩ := List.mem_map.1 hm
  cases pass with
  | rows => exact .inl rfl
  | tables => exact .inr rfl
  | paragraphs => simp at hpass
  | _ => cases hdesk

/-- What is left after the first pass. -/
theorem paragraphs_of_yields_paragraphs {d : Draft}
    (hd : (((s.visit.desks.editsAt 0).map (Move.mk .paragraphs)).forM (Move.perform f)).Yields
      s.start () d) :
    d.document.paragraphs = s.document.paragraphs.filter fun p => .block p.id ∉ s.parts := by
  generalize hedits : s.visit.desks.editsAt 0 = edits at hd
  have hdesk : ∀ m ∈ edits.map (Move.mk .paragraphs), m.pass.desk = 0 := by simp [Pass.desk]
  obtain ⟨report, hyields⟩ := Move.exists_yields_forM_prune (f := f) (d := s.start) hdesk
    (Document.nodup_ids h.nodup_outline)
  obtain rfl : d = _ := (Prod.mk.inj (hd.symm.trans hyields)).2
  refine (Document.paragraphs_prune (fun t ht hpart => ?_) fun id hpart => ?_).trans ?_
  · obtain ⟨id, hid, hedit⟩ := Move.mem_parts_paragraphs_iff.1 hpart
    obtain ⟨p, hp, rfl⟩ := h.exists_paragraph_of_mem_editsAt hdisplays (hedits ▸ hedit)
    obtain ⟨b, hb, ht⟩ := List.mem_flatMap.1 ht
    obtain ⟨a, ha⟩ := Block.exists_node_mem_outline ht []
    exact h.id_ne_of_mem_outline hp (List.mem_flatMap.2 ⟨b, hb, ha⟩) (Part.block.inj hid).symm
  · obtain ⟨id', hid', -⟩ := Move.mem_parts_paragraphs_iff.1 hpart
    cases hid'
  · refine List.filter_congr fun p hp => ?_
    rw [decide_eq_decide, h.mem_parts_paragraph_iff hdisplays hp, Move.mem_parts_paragraphs_iff,
      hedits]
    simp

/-- The paragraphs counted are those among the parts that are removed. -/
theorem paragraphsRemoved {d : Draft} (hd : (s.moves.forM (Move.perform f)).Yields s.start () d) :
    d.report.paragraphsRemoved =
      UInt32.ofNat (s.document.paragraphs.filter fun p => .block p.id ∈ s.parts).length := by
  obtain ⟨rest, hmoves, hrest⟩ := h.exists_moves_eq hdisplays
  rw [hmoves] at hd
  obtain ⟨d₁, hfirst, hlater⟩ := Revision.yields_forM_append.1 hd
  have hkept : d.report.paragraphsRemoved = d₁.report.paragraphsRemoved := by
    refine Revision.Keeps.forM (fun m hm => Move.keeps ?_) _ _ _ hlater
    rcases hrest m hm with hpass | hpass <;>
      · rw [hpass]
        exact fun _ _ => rfl
  have hleft := h.paragraphs_of_yields_paragraphs hdisplays hfirst
  rw [List.forM_eq_forM, List.forM_map] at hfirst
  have hcount := Display.paragraphsRemoved_forM (fun id hid x hx _ hxid => ?_) hfirst
  · have hnone : s.visit.report.paragraphsRemoved = 0 := by
      obtain ⟨-, body, hvisit, -⟩ := h.exists_visitAll
      exact Engine.report_visitAll (fun _ _ _ => rfl) (fun _ _ => rfl) (fun _ _ => rfl)
        (fun _ _ => rfl) hvisit
    have hsplit : s.document.paragraphs.length =
        (s.document.paragraphs.filter fun p => decide (.block p.id ∈ s.parts)).length +
          (s.document.paragraphs.filter fun p => !decide (.block p.id ∈ s.parts)).length :=
      List.length_eq_length_filter_add _
    rw [hleft, show s.start.report = s.visit.report from rfl, hnone, UInt32.zero_add,
      show s.start.document = s.document from rfl, hsplit, UInt32.ofNat_add] at hcount
    simp only [decide_not] at hcount
    rw [hkept]
    exact (UInt32.add_left_inj _).1 hcount
  · obtain ⟨p, hp, rfl⟩ := h.exists_paragraph_of_mem_editsAt hdisplays hid
    obtain ⟨around, hp⟩ := Document.mem_paragraphs_iff_outline.1 hp
    rw [List.inj_on_of_nodup_map h.nodup_outline hx hp hxid]
    exact ⟨p, rfl⟩

end Displays

end Stage.Of

namespace Engine

variable {e : Engine} {scope : Value} {doc doc' : Document} {report : Report} {plan : Plan}

/-- In a document whose comments only display parts, the filling has all paragraphs filled, and
    then is without the parts that comments hide. The same is left if the removals are made in
    another order or more often. The report has the number of paragraphs that are hidden. -/
theorem display_law (hregistry : e.registry = .builtin)
    (hplan : Plan.ofDocument .builtin e.settings (e.prepared doc) = .ok plan)
    (hdisplays : plan.DisplaysOnly) (h : e.fill scope doc = .ok (doc', report)) :
    ∃ f filled tally hidden, e.filler = .ok f ∧
      f.fillBlocks scope (e.prepared doc).body = .ok (filled, tally) ∧
      (∀ part, part ∈ hidden ↔ ∃ entry ∈ plan.entries, e.Hides scope filled entry part) ∧
      doc'.body.map Block.withoutAnchors =
        (filled.flatMap (Block.prune hidden)).map Block.withoutAnchors ∧
      report.paragraphsRemoved = UInt32.ofNat
        ((Block.paragraphsOf filled).filter fun p => .block p.id ∈ hidden).length ∧
      ∃ s : Stage, s.Of e f scope doc ∧ ∀ moves : List Move, (∀ m, m ∈ moves ↔ m ∈ s.moves) →
        ∃ d, (moves.forM (Move.perform f)).Yields s.start () d ∧
          d.document.body = filled.flatMap (Block.prune hidden) := by
  rw [fill_eq] at h
  obtain ⟨f, hf, h⟩ := Except.bind_eq_ok.1 h
  obtain ⟨s, hs, d, hd, rfl, notes, rfl⟩ := exists_stage hregistry h
  obtain rfl := Except.ok.inj (hs.exists_visitAll.1.symm.trans hplan)
  obtain ⟨tally, hfilled⟩ := hs.exists_fillBlocks (hs.deferred_eq_nil hdisplays)
  refine ⟨f, s.document.body, tally, s.parts, hf, hfilled, fun part => hs.mem_parts_iff hdisplays,
    ?_, hs.paragraphsRemoved hdisplays hd, s, hs, fun moves hmoves => ?_⟩
  · obtain ⟨report, hyields⟩ := hs.exists_yields_of_mem_iff hdisplays fun m => Iff.rfl
    obtain rfl : d = _ := (Prod.mk.inj (hd.symm.trans hyields)).2
    exact Document.map_withoutAnchors_close
  · obtain ⟨report, hyields⟩ := hs.exists_yields_of_mem_iff hdisplays hmoves
    exact ⟨_, hyields, rfl⟩

/-- A form with a row for members, in which a table is for members as well, and a remark. -/
def form : Document where
  body := [.paragraph { content := [.rangeStart 1, .run (.ofText "Dear $\x7bname\x7d"), .rangeEnd 1] },
    .table { rows := [
      ⟨0, [.ofParagraph { content := [.rangeStart 2, .run (.ofText "Fee"), .rangeEnd 2] },
        { content := [.table { rows := [⟨0, [.ofParagraph { content :=
          [.rangeStart 3, .run (.ofText "$\x7bfee\x7d"), .rangeEnd 3] }]⟩] }] }]⟩,
      ⟨0, [{ content := [.paragraph { content :=
          [.rangeStart 4, .run (.ofText "Remark: $\x7bremark\x7d"), .rangeEnd 4] },
        .paragraph { content := [.run (.ofText "Thank you, $\x7bname\x7d")] }] }]⟩] }]
  comments := [.ofText 1 "displayParagraphIf(true)", .ofText 2 "displayTableRowIf(member)",
    .ofText 3 "displayTableIf(member) displayParagraphIf(member) displayTableRowIf(member)",
    .ofText 4 "displayParagraphIfPresent(remark) displayParagraphIf(remark)"]

/-- What is filled in for someone who is no member. -/
def formData : Value :=
  .ofEntries [("name", .string "Ann"), ("member", .bool false), ("fee", .int 5), ("remark", .null)]

/-- The row goes with the table in it, and with the paragraph in that, which counts as well. -/
theorem display_law_form : ∃ plan doc' report,
    Plan.ofDocument .builtin {} (({} : Engine).prepared form) = .ok plan ∧ plan.DisplaysOnly ∧
    ({} : Engine).fill formData form = .ok (doc', report) ∧
    doc'.paragraphs.map Paragraph.text = ["Dear Ann", "Thank you, Ann"] ∧
    report.paragraphsRemoved = 2 ∧
    ∃ f filled tally hidden, ({} : Engine).filler = .ok f ∧
      f.fillBlocks formData (({} : Engine).prepared form).body = .ok (filled, tally) ∧
      (∀ part, part ∈ hidden ↔ ∃ entry ∈ plan.entries, ({} : Engine).Hides formData filled entry part) ∧
      doc'.body.map Block.withoutAnchors =
        (filled.flatMap (Block.prune hidden)).map Block.withoutAnchors := by
  obtain ⟨plan, hplan, hdisplays⟩ : ∃ plan,
      Plan.ofDocument .builtin {} (({} : Engine).prepared form) = .ok plan ∧ plan.DisplaysOnly :=
    Except.exists_of_toOption (by decide +kernel)
  obtain ⟨⟨doc', report⟩, hfill, htexts, hremoved⟩ : ∃ r, ({} : Engine).fill formData form = .ok r ∧
      r.1.paragraphs.map Paragraph.text = ["Dear Ann", "Thank you, Ann"] ∧
        r.2.paragraphsRemoved = 2 :=
    Except.exists_of_toOption (by decide +kernel)
  obtain ⟨f, filled, tally, hidden, hf, hfilled, hhidden, hbody, -⟩ :=
    display_law rfl hplan hdisplays hfill
  exact ⟨plan, doc', report, hplan, hdisplays, hfill, htexts, hremoved, f, filled, tally, hidden,
    hf, hfilled, hhidden, hbody⟩

end Engine

end DocTemplate
