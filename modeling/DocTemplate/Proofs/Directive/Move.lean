import DocTemplate.Proofs.Directive.Descent
import DocTemplate.Proofs.Directive.Dispatch

/-!
# Moves

The commitment of the built-in handlers is one sequence of *moves*, each an edit in
one of six passes: paragraphs, rows and tables are removed, blocks are repeated,
words are replaced, and tables are filled. An edit that a pass is not about is no
edit to it.

* `Desks.commit_eq_forM`: the commitment is that sequence;
* `Desks.Traces.given_of_mem_moves`: every move goes back to an instruction given;
* `Desks.Holds.exists_moves`: what was accepted are moves;
* `Desks.pass_of_append`: repetitions come before words are replaced and tables filled;
* `Move.Does`, `Move.does`: what a move can do;
* `Move.descends`: every move is a step of descent;
* `Move.run_perform_congr`: what a move evaluates;
* `Move.descends_unchanged`: all but the last two passes leave the paragraphs alone that
  stay.
-/

namespace DocTemplate

/-- A pass over the edits of a handler. -/
inductive Pass where
  | paragraphs | rows | tables | repetitions | words | fills
  deriving DecidableEq

/-- Every pass, in order. -/
def Pass.all : List Pass :=
  [paragraphs, rows, tables, repetitions, words, fills]

/-- The place in the registry of the handler whose edits a pass goes over. -/
def Pass.desk : Pass → Nat
  | paragraphs | rows | tables => 0
  | repetitions => 1
  | words => 2
  | fills => 3

/-- What a pass does with an edit. -/
def Pass.perform (f : Filler) : Pass → Edit → Revision Unit
  | paragraphs => Display.removeParagraph
  | rows => Display.removeRow
  | tables => Display.removeTable
  | repetitions => Repetition.perform f
  | words => WordReplacement.perform f
  | fills => TableFill.perform f

/-- An edit in a pass. -/
structure Move where
  pass : Pass
  edit : Edit

/-- What a move does. -/
def Move.perform (f : Filler) (m : Move) : Revision Unit :=
  m.pass.perform f m.edit

namespace Desks

variable (d : Desks)

/-- The edits that a handler has accepted, by its place in the registry. -/
def editsAt (k : Nat) : List Edit :=
  d.desks[k]?.elim [] Desk.edits

/-- The moves of the built-in handlers, in order. -/
def moves : List Move :=
  Pass.all.flatMap fun pass => (d.editsAt pass.desk).map (Move.mk pass)

variable {d}

/-- The built-in handlers commit by moves. -/
theorem commit_eq_forM (h : d.desks.map Desk.handler = Registry.builtin.handlers) (f : Filler) :
    d.commit f = d.moves.forM (Move.perform f) := by
  obtain ⟨desks⟩ := d
  match desks, h with
  | [⟨h₀, e₀⟩, ⟨h₁, e₁⟩, ⟨h₂, e₂⟩, ⟨h₃, e₃⟩], h =>
    simp only [List.map_cons, List.map_nil, Registry.builtin, List.cons.injEq, and_true] at h
    obtain ⟨rfl, rfl, rfl, rfl⟩ := h
    simp [commit, Desk.commit, Handler.display, Handler.repetition, Handler.wordReplacement,
      Handler.table, Display.commit, Repetition.commit, WordReplacement.commit, TableFill.commit,
      moves, Pass.all, Pass.desk, editsAt, List.forM_append, List.forM_map, Move.perform,
      Pass.perform]

end Desks

/-! ## Where moves come from -/

/-- The instruction that an edit goes back to, if it is part of the edit. -/
def Edit.instruction? : Edit → Option Instruction
  | repeatBlocks i _ | fillTable i _ | dropTable i | custom i => some i
  | _ => none

/-- The instruction and the items, of a repetition. -/
def Edit.repetition? : Edit → Option (Instruction × List Value)
  | repeatBlocks i items => some (i, items)
  | _ => none

theorem Edit.repetition?_eq_some_iff {edit : Edit} {r : Instruction × List Value} :
    edit.repetition? = some r ↔ edit = .repeatBlocks r.1 r.2 := by
  cases edit <;> simp [repetition?, Prod.ext_iff]

section Accept

variable {settings : Settings} {handler : Handler} {i j : Instruction} {edit : Edit}

theorem Display.instruction?_of_accept (h : accept settings i = .ok (some edit)) :
    edit.instruction? = none := by
  rw [accept] at h
  split at h
  · obtain ⟨b, -, h⟩ := Except.bind_eq_ok.1 h
    cases b <;> cases h
    rfl
  · rw [Except.ok.injEq, Option.ite_none_right_eq_some] at h
    obtain ⟨-, h⟩ := h
    cases h
    rfl
  · obtain ⟨position, -, h⟩ := Except.bind_eq_ok.1 h
    obtain ⟨b, -, h⟩ := Except.bind_eq_ok.1 h
    cases b <;> cases h
    rfl
  · obtain ⟨position, -, h⟩ := Except.bind_eq_ok.1 h
    obtain ⟨b, -, h⟩ := Except.bind_eq_ok.1 h
    cases b <;> cases h
    rfl
  · cases h

/-- What is accepted as a replacement of words is one in the paragraph of the site, for the
    comment there. -/
theorem WordReplacement.exists_of_accept (h : accept settings i = .ok (some edit)) :
    i.site.region.enclosesText ∧
      ∃ text, edit = .replaceWord i.site.paragraph i.site.region.id text := by
  rw [accept] at h
  split at h
  · next htext =>
    obtain ⟨text, -, h⟩ := Except.bind_eq_ok.1 h
    cases text <;> cases h
    exact ⟨htext, _, rfl⟩
  · split at h <;> cases h

/-- What is accepted as a repetition is one. -/
theorem Repetition.exists_of_accept {edit : Option Edit} (h : accept settings i = .ok edit) :
    ∃ items, edit = some (.repeatBlocks i items) := by
  rw [accept] at h
  split at h
  · cases h
    exact ⟨_, rfl⟩
  · cases h
    exact ⟨_, rfl⟩
  · cases h

theorem TableFill.eq_of_accept (h : accept settings i = .ok (some edit)) :
    (∃ data, edit = .fillTable i data) ∨ edit = .dropTable i := by
  rw [accept] at h
  split at h
  · split at h
    · cases h
    · cases h
      exact .inl ⟨_, rfl⟩
  · cases h
    exact .inr rfl
  · cases h

theorem Registry.mem_builtin :
    handler ∈ builtin.handlers ↔
      handler = .display ∨ handler = .repetition ∨ handler = .wordReplacement ∨ handler = .table := by
  simp [builtin]

/-- A built-in handler makes its edits of the instruction that it accepts, and only one
    that leaves placeholders to the edits makes repetitions. -/
theorem Registry.spec_of_accept (hh : handler ∈ builtin.handlers)
    (h : handler.accept settings i = .ok (some edit)) :
    (∀ j ∈ edit.instruction?, j = i) ∧
      ∀ j items, edit = .repeatBlocks j items → handler = .repetition := by
  rcases mem_builtin.1 hh with rfl | rfl | rfl | rfl
  · have hnone := Display.instruction?_of_accept (show Display.accept settings i = _ from h)
    refine ⟨by simp [hnone], ?_⟩
    rintro j items rfl
    cases hnone
  · obtain ⟨items, hedit⟩ := Repetition.exists_of_accept
      (show Repetition.accept settings i = _ from h)
    cases hedit
    exact ⟨by simp [Edit.instruction?], fun _ _ _ => rfl⟩
  · obtain ⟨-, text, rfl⟩ := WordReplacement.exists_of_accept h
    exact ⟨by simp [Edit.instruction?], by simp⟩
  · rcases TableFill.eq_of_accept h with ⟨data, rfl⟩ | rfl
    · exact ⟨by simp [Edit.instruction?], by simp⟩
    · exact ⟨by simp [Edit.instruction?], by simp⟩

/-- The directive to repeat is the one that leaves placeholders to the edits. -/
theorem Registry.defers_builtin_iff {name : String} :
    builtin.defers name ↔ name = "repeatParagraph" := by
  constructor
  · intro h
    obtain ⟨handler, hhandler, hdefers⟩ := (Option.any_eq_true _ _).1 h
    have hmem := List.mem_of_find?_eq_some hhandler
    rcases mem_builtin.1 hmem with rfl | rfl | rfl | rfl
    · cases hdefers
    · exact eq_of_beq hdefers
    · cases hdefers
    · cases hdefers
  · rintro rfl
    decide

end Accept

namespace Desks

variable {d : Desks} {settings : Settings} {given : Instruction → Prop}

theorem mem_editsAt_iff {k : Nat} {edit : Edit} :
    edit ∈ d.editsAt k ↔ ∃ desk, d.desks[k]? = some desk ∧ edit ∈ desk.edits := by
  rw [editsAt]
  cases d.desks[k]? <;> simp

theorem mem_moves_iff {m : Move} : m ∈ d.moves ↔ m.edit ∈ d.editsAt m.pass.desk := by
  obtain ⟨pass, edit⟩ := m
  have hall : pass ∈ Pass.all := by cases pass <;> decide
  simp only [moves, List.mem_flatMap, List.mem_map, Move.mk.injEq]
  exact ⟨fun ⟨_, _, _, hedit, hpass, heq⟩ => hpass ▸ heq ▸ hedit,
    fun hedit => ⟨pass, hall, edit, hedit, rfl, rfl⟩⟩

/-- A move goes back to an instruction that the handler of its desk has accepted. -/
theorem Traces.exists_of_mem_moves {handlers : List Handler} (h : d.Traces settings handlers given)
    {m : Move} (hm : m ∈ d.moves) : ∃ handler i, handlers[m.pass.desk]? = some handler ∧ given i ∧
      handler.names.contains i.name.toString ∧ handler.accept settings i = .ok (some m.edit) := by
  obtain ⟨desk, hdesk, hedit⟩ := mem_editsAt_iff.1 (mem_moves_iff.1 hm)
  obtain ⟨i, hspec⟩ := h.edits desk (List.mem_of_getElem? hdesk) m.edit hedit
  exact ⟨desk.handler, i, by simp [← h.handlers, hdesk], hspec⟩

/-- The instruction that a move goes back to is one of those given, and one to repeat
    if the move is a repetition. -/
theorem Traces.given_of_mem_moves (h : d.Traces settings Registry.builtin.handlers given)
    {m : Move} (hm : m ∈ d.moves) {i : Instruction} (hi : m.edit.instruction? = some i) :
    given i ∧ ∀ j items, m.edit = .repeatBlocks j items →
      Registry.builtin.defers i.name.toString := by
  obtain ⟨handler, i', hhandler, hgiven, hname, haccept⟩ := h.exists_of_mem_moves hm
  obtain ⟨hinstruction, hrepetition⟩ :=
    Registry.spec_of_accept (List.mem_of_getElem? hhandler) haccept
  obtain rfl := hinstruction i hi
  refine ⟨hgiven, fun j items hj => ?_⟩
  rw [hrepetition j items hj] at hname
  rw [Registry.defers_builtin_iff]
  simpa [Handler.names, Handler.repetition] using hname

/-- There is a pass over the edits of every desk. -/
theorem exists_pass (h : d.desks.map Desk.handler = Registry.builtin.handlers) {desk : Desk}
    (hdesk : desk ∈ d.desks) : ∃ pass : Pass,
      Registry.builtin.handlers[pass.desk]? = some desk.handler ∧
        ∀ edit ∈ desk.edits, ⟨pass, edit⟩ ∈ d.moves := by
  obtain ⟨k, hk⟩ := List.mem_iff_getElem?.1 hdesk
  have hhandler : Registry.builtin.handlers[k]? = some desk.handler := by
    rw [← h, List.getElem?_map, hk]
    rfl
  have hlt : k < 4 := (List.getElem?_eq_some_iff.1 hhandler).1
  have hpass : ∃ pass : Pass, pass.desk = k :=
    match k, hlt with
    | 0, _ => ⟨.paragraphs, rfl⟩
    | 1, _ => ⟨.repetitions, rfl⟩
    | 2, _ => ⟨.words, rfl⟩
    | 3, _ => ⟨.fills, rfl⟩
  obtain ⟨pass, rfl⟩ := hpass
  refine ⟨pass, hhandler, fun edit hedit => mem_moves_iff.2 ?_⟩
  rw [editsAt, hk]
  exact hedit

/-- What was made of an instruction that a desk has taken are moves. -/
theorem Holds.exists_moves (h : d.desks.map Desk.handler = Registry.builtin.handlers)
    {i : Instruction} (hi : d.Holds settings i) : ∃ (pass : Pass) (handler : Handler),
      Registry.builtin.handlers[pass.desk]? = some handler ∧
        handler.names.contains i.name.toString ∧
          ∃ edit, handler.accept settings i = .ok edit ∧ ∀ x ∈ edit, ⟨pass, x⟩ ∈ d.moves := by
  obtain ⟨desk, hdesk, hname, edit, haccept, hedit⟩ := hi
  obtain ⟨pass, hhandler, hmoves⟩ := exists_pass h hdesk
  exact ⟨pass, desk.handler, hhandler, hname, edit, haccept, fun x hx => hmoves x (hedit x hx)⟩

/-- A repetition that was accepted is a move. -/
theorem mem_moves_of_holds (h : d.desks.map Desk.handler = Registry.builtin.handlers)
    {i : Instruction} (hi : d.Holds settings i)
    (hdefers : Registry.builtin.defers i.name.toString) :
    ∃ items, ⟨.repetitions, .repeatBlocks i items⟩ ∈ d.moves := by
  obtain ⟨pass, handler, hhandler, hname, edit, haccept, hmoves⟩ := hi.exists_moves h
  rw [Registry.defers_builtin_iff.1 hdefers] at hname
  -- No other handler has the name.
  cases pass with
  | repetitions =>
    obtain rfl := Option.some.inj hhandler
    obtain ⟨items, rfl⟩ := Repetition.exists_of_accept
      (show Repetition.accept settings i = _ from haccept)
    exact ⟨items, hmoves _ rfl⟩
  | _ =>
    obtain rfl := Option.some.inj hhandler
    cases hname

/-! ## The order of moves -/

theorem pairwise_moves (d : Desks) :
    d.moves.Pairwise fun m m' => m.pass.ctorIdx ≤ m'.pass.ctorIdx := by
  refine List.pairwise_flatMap.2 ⟨fun pass _ => ?_, ?_⟩
  · exact List.pairwise_map.2 (List.pairwise_of_forall fun _ _ => Nat.le_refl _)
  · have hall : Pass.all.Pairwise fun pass pass' => pass.ctorIdx ≤ pass'.ctorIdx := by decide
    refine hall.imp fun hle m hm m' hm' => ?_
    obtain ⟨edit, -, rfl⟩ := List.mem_map.1 hm
    obtain ⟨edit', -, rfl⟩ := List.mem_map.1 hm'
    exact hle

theorem pass_le_of_append {before after : List Move} {m : Move}
    (h : d.moves = before ++ m :: after) : ∀ m' ∈ before, m'.pass.ctorIdx ≤ m.pass.ctorIdx := by
  have hpairwise := d.pairwise_moves
  rw [h, List.pairwise_append] at hpairwise
  exact fun m' hm' => hpairwise.2.2 m' hm' m List.mem_cons_self

/-- Before a repetition, no words are replaced and no tables filled. -/
theorem pass_of_append {before after : List Move} {m : Move} (h : d.moves = before ++ m :: after)
    (hm : m.pass = .repetitions) : ∀ m' ∈ before, m'.pass ≠ .words ∧ m'.pass ≠ .fills := by
  intro m' hm'
  have hle := pass_le_of_append h m' hm'
  rw [hm] at hle
  constructor <;>
    (intro heq; rw [heq] at hle; exact absurd hle (by decide))

end Desks

namespace Move

variable {f : Filler} {n : Nat} {m : Move} {d d' : Draft}

/-- What a move does: it takes a node out of the document or leaves the document alone; or it
    repeats blocks, exchanges a paragraph for one with other words, or fills a table. -/
inductive Does (f : Filler) (d d' : Draft) : Move → Prop
  | loses {m : Move} (h : d.document.Loses d'.document) : Does f d d' m
  | repeats {i : Instruction} {items : List Value}
      (h : (Repetition.perform f (.repeatBlocks i items)).Yields d () d') :
      Does f d d' ⟨.repetitions, .repeatBlocks i items⟩
  | rewords {paragraph : NodeId} {comment : CommentId} {text : String} {p : Paragraph}
      {items : List Inline} {around : List CellPosition}
      (found : d.document.paragraph? paragraph = some p)
      (replaced : WordReplacement.replaceBetween? comment
        (RunItem.breakLines f.settings.lineBreak text) p.content = some items)
      (exchange : d.document.Exchange [⟨.paragraph p, around⟩]
        [⟨.paragraph { p with content := items }, around⟩] d'.document) :
      Does f d d' ⟨.words, .replaceWord paragraph comment text⟩
  | fills {i : Instruction} {data : Grid} {table : NodeId} {t : Table Block} {layout : TableLayout}
      (target : TableFill.target? d.document i.site = some table)
      (found : d.document.table? table = some t) (rows : TableLayout.ofRows? t.rows = some layout)
      (h : (TableFill.fill f.settings data table layout).Yields d () d') :
      Does f d d' ⟨.fills, .fillTable i data⟩

/-- The edits that a pass is not about are skipped. -/
theorem does (h : (m.perform f).Yields d () d') : m.Does f d d' := by
  obtain ⟨pass, edit⟩ := m
  cases pass with
  | paragraphs => exact .loses (Display.loses_removeParagraph h)
  | rows => exact .loses (Display.loses_removeRow h)
  | tables => exact .loses (Display.loses_removeTable h)
  | repetitions =>
    cases edit with
    | repeatBlocks i items => exact .repeats h
    | _ =>
      obtain ⟨-, rfl⟩ := Revision.yields_pure.1 h
      exact .loses (.inl rfl)
  | words =>
    rcases WordReplacement.yields_perform h with
      rfl | ⟨paragraph, comment, text, p, items, around, rfl, hp, hitems, hex⟩
    · exact .loses (.inl rfl)
    · exact .rewords hp hitems hex
  | fills =>
    cases edit with
    | dropTable i => exact .loses (TableFill.loses_dropTable (f := f) h)
    | fillTable i data =>
      rcases TableFill.yields_fillTable h with
        rfl | ⟨table, t, layout, htarget, ht, hlayout, hfill⟩
      · exact .loses (.inl rfl)
      · exact .fills htarget ht hlayout hfill
    | _ =>
      obtain ⟨-, rfl⟩ := Revision.yields_pure.1 h
      exact .loses (.inl rfl)

/-- Every move is a step of descent. -/
theorem descends {filled : NodeId → Prop} (hn : n ≤ d.document.lastId)
    (hfilled : ∀ i data, m = ⟨.fills, .fillTable i data⟩ → ∀ table,
      TableFill.target? d.document i.site = some table → filled table)
    (h : (m.perform f).Yields d () d') :
    d.document.Descends (Paragraph.Edited filled) n d'.document := by
  cases does h with
  | loses hloses => exact hloses.descends Paragraph.Edited.refl
  | repeats hrepeat =>
    exact Repetition.descends_perform Paragraph.Edited.refl Paragraph.Edited.trans hn hrepeat
  | @rewords _ _ _ p items around _ hitems hex =>
    have hedited : Paragraph.Edited filled around p { p with content := items } :=
      .inl (WordReplacement.nonRunsOf_replaceBetween? hitems)
    exact hex.descends Paragraph.Edited.refl (.of_becomes (.cons (.paragraph rfl hedited) .nil))
  | fills htarget ht hlayout hfill =>
    exact TableFill.descends_fill (hfilled _ _ rfl _ htarget) hn ht hlayout hfill

/-- And so are moves one after the other. -/
theorem descends_forM {moves : List Move} (hn : n ≤ d.document.lastId)
    (h : (moves.forM (perform f)).Yields d () d') :
    d.document.Descends (Paragraph.Edited fun _ => True) n d'.document := by
  refine Revision.forM_induction (P := fun d' : Draft =>
    d.document.Descends (Paragraph.Edited fun _ => True) n d'.document) ?_
    (.refl Paragraph.Edited.refl _) h
  intro m d₁ d₂ _ hd hstep
  refine hd.trans Paragraph.Edited.trans (descends (Nat.le_trans hn hd.lastId_le) ?_ hstep)
  exact fun _ _ _ _ _ => trivial

/-- Before words are replaced, the paragraphs that stay are as they were. -/
theorem descends_unchanged (hwords : m.pass ≠ .words) (hfills : m.pass ≠ .fills)
    (hn : n ≤ d.document.lastId) (h : (m.perform f).Yields d () d') :
    d.document.Descends (fun _ p q => q = p) n d'.document := by
  have hrefl : ∀ (_ : List CellPosition) (p : Paragraph), p = p := fun _ _ => rfl
  cases does h with
  | loses hloses => exact hloses.descends hrefl
  | repeats hrepeat =>
    exact Repetition.descends_perform hrefl (fun _ p q r hpq hqr => hqr.trans hpq) hn hrepeat
  | rewords => exact absurd rfl hwords
  | fills => exact absurd rfl hfills

/-- A move does the same with another filler that renders alike what the move evaluates:
    the texts of the template, if it is a repetition. -/
theorem run_perform_congr {g : Filler} {evaluated : Value → String → Prop}
    (h : f.Alike g evaluated)
    (ht : ∀ i items, m = ⟨.repetitions, .repeatBlocks i items⟩ → ∀ item ∈ items,
      ∀ text ∈ Block.textsOf (i.site.region.attached d.document), evaluated item text) :
    (m.perform g).run d = (m.perform f).run d := by
  obtain ⟨pass, edit⟩ := m
  cases pass with
  | paragraphs => rfl
  | rows => rfl
  | tables => rfl
  | repetitions =>
    cases edit with
    | repeatBlocks i items => exact Repetition.run_perform_congr h (ht i items rfl)
    | _ => rfl
  | words => cases edit <;> simp only [perform, Pass.perform, WordReplacement.perform, h.settings]
  | fills => cases edit <;> simp only [perform, Pass.perform, TableFill.perform, h.settings]

end Move

end DocTemplate
