import DocTemplate.Proofs.Directive.Move
import DocTemplate.Proofs.Document.Prune

/-!
# Conditional display

What the directives of conditional display ask for are removals of parts of the document, and
nothing else. A removal of what is there is a pruning, and one of what is gone already changes
nothing, which is what pruning does then. So a sequence of removals, in whatever order and
however often they come, takes all of their parts out of the document.

Only the removals of paragraphs count paragraphs. They come first, when all paragraphs are
there, so each paragraph is counted once: for every one that goes, the number counted is one
more.

* `Display.part?_of_accept`, `Display.cases_of_accept`: the part that an instruction hides;
* `Move.exists_yields_forM_prune`: removals in any order;
* `Display.paragraphsRemoved_forM`: the number of paragraphs removed, and of those left.
-/

namespace DocTemplate

/-- Whether a value is the truth value false, or null, which counts as false. -/
def Value.isFalsy : Value → Bool
  | bool b => !b
  | null => true
  | _ => false

/-- The part that an edit removes, of a removal. -/
def Edit.part? : Edit → Option Part
  | removeParagraph id | removeTable id => some (.block id)
  | removeRow id => some (.row id)
  | _ => none

namespace Display

/-- The part of a document that an instruction hides. -/
def part? (i : Instruction) : Option Part :=
  match i.name with
  | .displayParagraphIf => if i.arg.isFalsy then some (.block i.site.paragraph) else none
  | .displayParagraphIfPresent => if i.arg.isNull then some (.block i.site.paragraph) else none
  | .displayTableRowIf =>
    if i.arg.isFalsy then i.site.cell.map fun position => .row position.row else none
  | .displayTableIf =>
    if i.arg.isFalsy then i.site.cell.map fun position => .block position.table else none
  | _ => none

variable {settings : Settings} {i : Instruction}

theorem condition_eq_ok {b : Bool} (h : condition i = .ok b) : i.arg.isFalsy = !b := by
  rw [condition] at h
  split at h
  · next b' harg =>
    cases h
    rw [harg]
    rfl
  · next harg =>
    cases h
    rw [harg]
    rfl
  · cases h

theorem cell_eq_ok {otherwise : Misplacement} {position : CellPosition}
    (h : cell i otherwise = .ok position) : i.site.cell = some position := by
  rw [cell] at h
  cases hcell : i.site.cell with
  | none =>
    rw [hcell] at h
    cases h
  | some position' =>
    rw [hcell] at h
    cases h
    rfl

/-- What is accepted is the removal of the part that is hidden, or nothing if none is. -/
theorem part?_of_accept {edit : Option Edit} (h : accept settings i = .ok edit) :
    edit.bind Edit.part? = part? i := by
  rw [accept] at h
  split at h
  · next hname =>
    obtain ⟨b, hb, h⟩ := Except.bind_eq_ok.1 h
    simp only [part?, hname, condition_eq_ok hb]
    cases b <;> cases h <;> rfl
  · next hname =>
    obtain rfl := Except.ok.inj h
    simp only [part?, hname]
    cases i.arg.isNull <;> rfl
  · next hname =>
    obtain ⟨position, hposition, h⟩ := Except.bind_eq_ok.1 h
    obtain ⟨b, hb, h⟩ := Except.bind_eq_ok.1 h
    simp only [part?, hname, condition_eq_ok hb, cell_eq_ok hposition]
    cases b <;> cases h <;> rfl
  · next hname =>
    obtain ⟨position, hposition, h⟩ := Except.bind_eq_ok.1 h
    obtain ⟨b, hb, h⟩ := Except.bind_eq_ok.1 h
    simp only [part?, hname, condition_eq_ok hb, cell_eq_ok hposition]
    cases b <;> cases h <;> rfl
  · obtain rfl := Except.ok.inj h
    rw [part?]
    split <;> first | rfl | contradiction

/-- What is accepted is a removal of the paragraph of the site, or of the row or the table around
    it. -/
theorem cases_of_accept {edit : Edit} (h : accept settings i = .ok (some edit)) :
    edit = .removeParagraph i.site.paragraph ∨ ∃ position, i.site.cell = some position ∧
      (edit = .removeRow position.row ∨ edit = .removeTable position.table) := by
  rw [accept] at h
  split at h
  · obtain ⟨b, hb, h⟩ := Except.bind_eq_ok.1 h
    cases b <;> cases h
    exact .inl rfl
  · rw [Except.ok.injEq, Option.ite_none_right_eq_some] at h
    exact .inl (Option.some.inj h.2).symm
  · obtain ⟨position, hposition, h⟩ := Except.bind_eq_ok.1 h
    obtain ⟨b, hb, h⟩ := Except.bind_eq_ok.1 h
    cases b <;> cases h
    exact .inr ⟨position, cell_eq_ok hposition, .inl rfl⟩
  · obtain ⟨position, hposition, h⟩ := Except.bind_eq_ok.1 h
    obtain ⟨b, hb, h⟩ := Except.bind_eq_ok.1 h
    cases b <;> cases h
    exact .inr ⟨position, cell_eq_ok hposition, .inr rfl⟩
  · cases h

end Display

/-! ## Removals -/

namespace Move

/-- The part that a move takes out, of a removal. -/
def part? (m : Move) : Option Part :=
  match m.pass, m.edit with
  | .paragraphs, .removeParagraph id | .tables, .removeTable id => some (.block id)
  | .rows, .removeRow id => some (.row id)
  | _, _ => none

/-- Every removal is made in one of the passes. -/
theorem exists_part?_iff {edit : Edit} {part : Part} :
    (∃ pass : Pass, pass.desk = 0 ∧ (Move.mk pass edit).part? = some part) ↔
      edit.part? = some part := by
  constructor
  · rintro ⟨pass, -, h⟩
    cases pass <;> cases edit <;> first | exact h | cases h
  · intro h
    cases edit with
    | removeParagraph id => exact ⟨.paragraphs, rfl, h⟩
    | removeRow id => exact ⟨.rows, rfl, h⟩
    | removeTable id => exact ⟨.tables, rfl, h⟩
    | _ => cases h

/-- The parts that the first pass takes out. -/
theorem mem_parts_paragraphs_iff {edits : List Edit} {part : Part} :
    part ∈ (edits.map (Move.mk .paragraphs)).filterMap part? ↔
      ∃ id, part = .block id ∧ .removeParagraph id ∈ edits := by
  rw [List.filterMap_map, List.mem_filterMap]
  constructor
  · rintro ⟨edit, hedit, hpart⟩
    cases edit with
    | removeParagraph id => exact ⟨id, (Option.some.inj hpart).symm, hedit⟩
    | _ => cases hpart
  · rintro ⟨id, rfl, hedit⟩
    exact ⟨_, hedit, rfl⟩

variable {f : Filler} {m : Move} {moves : List Move} {d d' : Draft}

/-- An edit that prunes the document of a part, or has nothing to do, is a pruning. -/
theorem exists_yields_edit?_count {α : Type} {edit : Document → Option (α × Document)}
    {report : Report → Report} {part : Part}
    (h : (∃ a, edit d.document = some (a, d.document.prune [part])) ∨
      edit d.document = none ∧ d.document.prune [part] = d.document) :
    ∃ r, Revision.Yields (do
      if (← Revision.edit? edit).isSome then
        Revision.count report) d () ⟨d.document.prune [part], r⟩ := by
  rcases h with ⟨a, ha⟩ | ⟨hnone, hprune⟩
  · exact ⟨_, Revision.yields_edit?_count.2 (.inl ⟨a, _, ha, rfl⟩)⟩
  · exact ⟨d.report, Revision.yields_edit?_count.2 (.inr ⟨hnone, by rw [hprune]⟩)⟩

/-- A move in a pass over the edits for display is a pruning of the document. -/
theorem exists_yields_prune (hm : m.pass.desk = 0)
    (hnodup : (d.document.body.flatMap Block.ids).Nodup) :
    ∃ report, (m.perform f).Yields d () ⟨d.document.prune m.part?.toList, report⟩ := by
  have hnothing : ∃ report, Revision.Yields (pure ()) d () ⟨d.document.prune [], report⟩ := by
    rw [Document.prune_of_forall_notMem fun _ _ => List.not_mem_nil]
    exact ⟨d.report, Revision.yields_pure.2 ⟨rfl, rfl⟩⟩
  have hblock : ∀ id, (∃ b, d.document.removeBlock? id = some (b, d.document.prune [.block id])) ∨
      d.document.removeBlock? id = none ∧ d.document.prune [.block id] = d.document :=
    fun id => Document.removeBlock?_cases hnodup id
  obtain ⟨pass, edit⟩ := m
  cases pass with
  | paragraphs =>
    cases edit with
    | removeParagraph id => exact exists_yields_edit?_count (hblock id)
    | _ => exact hnothing
  | rows =>
    cases edit with
    | removeRow id => exact exists_yields_edit?_count (Document.removeRow?_cases hnodup id)
    | _ => exact hnothing
  | tables =>
    cases edit with
    | removeTable id => exact exists_yields_edit?_count (hblock id)
    | _ => exact hnothing
  | _ => cases hm

/-- Such moves take all of their parts out, in whatever order they are made. -/
theorem exists_yields_forM_prune (hmoves : ∀ m ∈ moves, m.pass.desk = 0)
    (hnodup : (d.document.body.flatMap Block.ids).Nodup) :
    ∃ report, (moves.forM (perform f)).Yields d ()
      ⟨d.document.prune (moves.filterMap part?), report⟩ := by
  induction moves generalizing d with
  | nil =>
    refine ⟨d.report, Revision.yields_forM_nil.2 ?_⟩
    rw [List.filterMap_nil, Document.prune_of_forall_notMem fun _ _ => List.not_mem_nil]
  | cons m moves ih =>
    obtain ⟨report, hm⟩ := exists_yields_prune (f := f) (hmoves m List.mem_cons_self) hnodup
    obtain ⟨report', hrest⟩ := ih (d := ⟨d.document.prune m.part?.toList, report⟩)
      (fun m hm => hmoves m (List.mem_cons_of_mem _ hm))
      (Document.ids_prune_sublist.nodup hnodup)
    refine ⟨report', Revision.yields_forM_cons.2 ⟨_, hm, ?_⟩⟩
    rw [Document.prune_prune] at hrest
    have hparts : (m :: moves).filterMap part? = m.part?.toList ++ moves.filterMap part? := by
      cases hpart : m.part? <;> simp [hpart]
    rw [hparts]
    exact hrest

end Move

/-- The paragraphs counted and those left are as many as before, if only paragraphs go. -/
theorem Display.paragraphsRemoved_forM {edits : List Edit} {d d' : Draft}
    (hedits : ∀ id, .removeParagraph id ∈ edits → ∀ e ∈ d.document.outline, e.node.isBlock →
      e.id = id → ∃ p, e.node = .paragraph p)
    (h : (edits.forM removeParagraph).Yields d () d') :
    d'.report.paragraphsRemoved + UInt32.ofNat d'.document.paragraphs.length =
      d.report.paragraphsRemoved + UInt32.ofNat d.document.paragraphs.length := by
  induction edits generalizing d with
  | nil => rw [Revision.yields_forM_nil.1 h]
  | cons edit edits ih =>
    obtain ⟨d₁, hedit, hrest⟩ := Revision.yields_forM_cons.1 h
    have hedits' : ∀ id, .removeParagraph id ∈ edits → ∀ e ∈ d.document.outline, e.node.isBlock →
        e.id = id → ∃ p, e.node = .paragraph p :=
      fun id hid => hedits id (List.mem_cons_of_mem _ hid)
    cases edit with
    | removeParagraph id =>
      rcases Revision.yields_edit?_count.1 hedit with ⟨b, doc, hb, rfl⟩ | ⟨-, rfl⟩
      · obtain ⟨hid, around, hexchange⟩ := Document.exchange_of_removeBlock? hb
        obtain ⟨p, hp⟩ := hedits id List.mem_cons_self _
          (hexchange.subset (b.node_mem_outline around)) (by cases b <;> rfl)
          (b.id_node.trans hid)
        obtain ⟨pre, post, hold, hnew⟩ := hexchange.outline
        have hcount : doc.paragraphs.length + 1 = d.document.paragraphs.length := by
          cases b with
          | table t => cases hp
          | paragraph q =>
            rw [Document.paragraphs_eq_outline, Document.paragraphs_eq_outline, hold, hnew]
            simp only [List.filterMap_append, List.length_append, Block.outline_paragraph]
            simp [Placed.paragraph?, Node.paragraph?]
            omega
        have hsub : doc.outline ⊆ d.document.outline := by
          rw [hold, hnew]
          simp
        rw [ih (fun id hid e he => hedits' id hid e (hsub he)) hrest, ← hcount, UInt32.ofNat_add]
        dsimp only
        ac_rfl
      · exact ih hedits' hrest
    | _ =>
      obtain rfl := (Revision.yields_pure.1 hedit).2
      exact ih hedits' hrest

end DocTemplate
