import DocTemplate.Proofs.Engine.Stage

/-!
# What is evaluated

The placeholders of a paragraph are evaluated where the paragraph is *handed over*: at the
visit, unless it is deferred, and once for each item of a repetition whose template it is
in (`Stage.Hands`). A filling depends on the values of these placeholders only.

Whoever writes the data should not be able to write expressions, so what is handed over
should be as the author of the document wrote it. It is, unless the template of a
repetition has copies in it that an earlier repetition has made. This takes a comment that
covers a table with the region of an earlier comment in it (`Plan.Nests`).

* `Stage.Of.fillWith_congr`: a filling depends on what is handed over;
* `Stage.Of.mem_prepared_of_repeats`: original paragraphs are handed over untouched;
* `Stage.Of.isOriginal_of_not_nests`: without nested regions there are no others;
* `Stage.Of.evaluates_input`: all of this, for a filling.
-/

namespace DocTemplate

/-- A block in the region of a comment that repeats is inside a table in the region of
    another one. -/
def Plan.Nests (plan : Plan) (doc : Document) : Prop :=
  ∃ entry ∈ plan.entries, Plan.defers .builtin entry ∧
    ∃ entry' ∈ plan.entries, Plan.defers .builtin entry' ∧
      ∃ x ∈ doc.outline, x.id ∈ entry.1.blocks ∧
        ∃ position ∈ x.around, position.table ∈ entry'.1.blocks

instance (plan : Plan) (doc : Document) : Decidable (plan.Nests doc) :=
  inferInstanceAs (Decidable (∃ _ ∈ _, _ ∧ _))

namespace Stage

variable {s : Stage} {e : Engine} {f g : Filler} {scope : Value} {doc : Document}

/-- The paragraph is in the template of a repetition that is made with an item. -/
def Repeats (s : Stage) (f : Filler) (item : Value) (p : Paragraph) : Prop :=
  ∃ i items d, s.Reaches f ⟨.repetitions, .repeatBlocks i items⟩ d ∧ item ∈ items ∧
    p ∈ Block.paragraphsOf (i.site.region.attached d.document)

/-- The paragraph is handed over to be filled in a scope: at the visit to a document, or by
    a repetition. -/
def Hands (s : Stage) (f : Filler) (visited : Document) (scope scope' : Value) (p : Paragraph) :
    Prop :=
  (scope' = scope ∧ p ∈ visited.paragraphs ∧ p.id ∉ s.plan.deferred) ∨ s.Repeats f scope' p

/-- Nodes with new numbers are in original tables only where the blocks of a repetition
    have been. -/
def Confines (s : Stage) (doc : Document) : Prop :=
  ∀ x ∈ doc.outline, x.isOriginal s.document.lastId = false →
    ∀ position ∈ x.around, 0 < position.table → position.table ≤ s.document.lastId →
      ∃ entry ∈ s.plan.entries, Plan.defers .builtin entry ∧
        ∃ y ∈ s.document.outline, y.id ∈ entry.1.blocks ∧ position ∈ y.around

namespace Of

variable (h : s.Of e f scope doc)

include h

/-! ## Accounting -/

/-- A filling depends on the placeholders of what is handed over. -/
theorem fillWith_congr (hg : f.Alike g fun scope' text =>
      ∃ p, s.Hands f (e.prepared doc) scope scope' p ∧ p.text = text) :
    e.fillWith g scope doc = e.fillWith f scope doc := by
  obtain ⟨hplan, body, hvisit, hdoc⟩ := h.exists_visitAll
  have hvisit' : e.visitAll g scope s.plan (e.prepared doc) (doc.assignIds.prepare e.settings).2 =
      .ok (body, s.visit) := by
    rw [← hvisit]
    refine Engine.visitAll_congr fun p hp hdeferred => ?_
    refine Filler.fillParagraph_congr hg ⟨p, .inl ⟨rfl, hp, fun hmem => ?_⟩, rfl⟩
    rw [List.contains_iff_mem.2 hmem] at hdeferred
    cases hdeferred
  have hstage : e.stage g scope doc = .ok s := by
    have hplan' : Plan.ofDocument e.registry e.settings (e.prepared doc) = .ok s.plan := by
      rw [h.registry]
      exact hplan
    refine Except.bind_eq_ok.2 ⟨s.plan, hplan', Except.bind_eq_ok.2 ⟨_, hvisit', ?_⟩⟩
    change Except.ok (⟨s.plan, s.visit, _⟩ : Stage) = .ok s
    exact congrArg (fun document => Except.ok (⟨s.plan, s.visit, document⟩ : Stage)) hdoc.symm
  have hmoves : (s.moves.forM (Move.perform g)).run s.start =
      (s.moves.forM (Move.perform f)).run s.start := by
    refine Revision.run_forM_congr fun m d hd => Move.run_perform_congr hg ?_
    rintro i items rfl item hitem text htext
    obtain ⟨p, hp, rfl⟩ := List.mem_map.1 htext
    exact ⟨p, .inr ⟨i, items, d, hd, hitem, hp⟩, rfl⟩
  have hcommit : Engine.commit g s.visit s.document = Engine.commit f s.visit s.document := by
    rw [Engine.commit, Engine.commit, Desks.commit_eq_forM h.traces.handlers,
      Desks.commit_eq_forM h.traces.handlers]
    exact congrArg (fun r => r.1.map fun _ => r.2) hmoves
  rw [Engine.fillWith, Engine.fillWith, hstage, h.stage]
  change (Engine.commit g s.visit s.document >>= _) = Engine.commit f s.visit s.document >>= _
  rw [hcommit]

/-! ## Original paragraphs -/

/-- A paragraph in the template of a repetition is under a block of a region in the plan. -/
theorem exists_of_repeats {item : Value} {p : Paragraph} (hp : s.Repeats f item p) :
    ∃ m d entry around, s.Reaches f m d ∧ m.pass = .repetitions ∧ entry ∈ s.plan.entries ∧
      Plan.defers .builtin entry ∧ ⟨.paragraph p, around⟩ ∈ d.document.outline ∧
        ∃ block ∈ entry.1.blocks, Placed.IsUnder block ⟨.paragraph p, around⟩ := by
  obtain ⟨i, items, d, hr, -, hp⟩ := hp
  obtain ⟨calls, hentry, hdefers⟩ := h.exists_entry hr.mem
  have hnodup := (descends_of_reaches hr).nodup_originalIds h.nodup_originalIds
  obtain ⟨around, hp, hunder⟩ := (Region.mem_attached_iff hnodup (h.blocks hentry)).1 hp
  exact ⟨_, d, _, around, hr, rfl, hentry, hdefers, hp, hunder⟩

/-- What is in the template of a repetition: paragraphs of the document, as they were
    before the visit, and others, with new numbers. -/
theorem mem_prepared_of_repeats {item : Value} {p : Paragraph} (hp : s.Repeats f item p)
    (hpos : 0 < p.id) (hle : p.id ≤ s.document.lastId) : p ∈ (e.prepared doc).paragraphs := by
  obtain ⟨m, d, entry, around, hr, hpass, hentry, hdefers, hp, block, hblock, hunder⟩ :=
    h.exists_of_repeats hp
  obtain ⟨x, hx, hbecomes⟩ := (descends_of_reaches_repetition hr hpass).nodes.mem _ hp
    (Placed.isOriginal_iff.2 ⟨hpos, hle⟩)
  obtain rfl := hbecomes.eq
  obtain ⟨q, hy, hid, -, hvisited⟩ := h.exists_visited hx
  dsimp only at hvisited
  by_cases hdeferred : s.plan.deferred.contains q.id
  · rw [if_pos hdeferred] at hvisited
    rw [hvisited]
    exact Document.mem_paragraphs_iff_outline.2 ⟨around, hy⟩
  · -- The paragraph is in the region of a comment that defers it.
    refine absurd (List.contains_iff_mem.2 ((h.accounts.deferred q.id).2 ⟨_, hentry, hdefers, ?_⟩))
      hdeferred
    refine (Region.mem_paragraphIds_iff h.nodup_prepared (h.blocks hentry)).2
      ⟨q, around, hy, rfl, block, hblock, ?_⟩
    exact hunder.of_eq hid rfl

/-! ## New paragraphs -/

/-- Copies take the place of blocks of the region, and of nothing else. -/
theorem confines_repetition {i : Instruction} {items : List Value} {d d' : Draft}
    (hm : ⟨.repetitions, .repeatBlocks i items⟩ ∈ s.moves)
    (hd : s.document.Descends (fun _ p q => q = p) s.document.lastId d.document)
    (hconfines : s.Confines d.document)
    (hstep : (Repetition.perform f (.repeatBlocks i items)).Yields d () d') :
    s.Confines d'.document := by
  obtain ⟨last, -, ⟨-, hdoc⟩ | ⟨hne, removed, generated, around, hids, hnew, hex⟩⟩ :=
    Repetition.yields_perform hstep
  · rw [hdoc]
    exact hconfines
  intro x hx horiginal position hposition hpos hle
  obtain ⟨pre, post, hold, hout⟩ := hex.outline
  have hsub : pre ++ post ⊆ d.document.outline := by
    intro y hy
    change y ∈ ({ d.document with lastId := last } : Document).outline
    rw [hold, List.mem_append, List.mem_append]
    exact (List.mem_append.1 hy).imp_left .inl
  rw [hout, List.mem_append, List.mem_append] at hx
  rcases hx with (hx | hx) | hx
  · exact hconfines x (hsub (List.mem_append_left _ hx)) horiginal position hposition hpos hle
  · -- The cell is around all copies, where there was a block of the region.
    have hin : position ∈ around :=
      Block.mem_around_of_new (fun _ => Repetition.lt_of_ids hnew) hx hposition
        (Nat.le_trans hle hd.lastId_le)
    obtain ⟨b, hb⟩ := List.exists_mem_of_ne_nil _ hne
    obtain ⟨b', hb', hid⟩ := List.mem_map.1 (hids ▸ List.mem_map_of_mem hb)
    have hblock : b'.node.id ∈ i.site.region.blocks := by
      rw [b'.id_node, hid]
      exact Region.id_mem_blocks hb
    obtain ⟨calls, hentry, hdefers⟩ := h.exists_entry hm
    have hthere : (⟨b'.node, around⟩ : Placed) ∈ d.document.outline :=
      hex.subset (List.mem_flatMap.2 ⟨b', hb', b'.node_mem_outline around⟩)
    obtain ⟨y, hy, hbecomes⟩ :=
      hd.nodes.mem _ hthere (Placed.isOriginal_iff.2 (h.blocks hentry _ hblock))
    obtain rfl := hbecomes.eq
    exact ⟨_, hentry, hdefers, _, hy, hblock, hin⟩
  · exact hconfines x (hsub (List.mem_append_right _ hx)) horiginal position hposition hpos hle

/-- What is left of the document at a repetition is as it was, and new nodes are confined. -/
theorem confines_of_reaches {m : Move} {d : Draft} (hr : s.Reaches f m d)
    (hpass : m.pass = .repetitions) : s.Confines d.document := by
  refine (induction_repetition (P := fun d => s.Confines d.document) hr hpass ?_ ?_).2
  · intro m d d' hm hwords hfills hd hconfines hstep
    cases Move.does hstep with
    | loses hloses => exact fun x hx => hconfines x (hloses.subset hx)
    | repeats hrepeat => exact h.confines_repetition hm hd hconfines hrepeat
    | rewords => exact absurd rfl hwords
    | fills => exact absurd rfl hfills
  · intro x hx hnew
    rw [h.isOriginal hx] at hnew
    cases hnew

/-- Without nested regions, templates have no new paragraphs. -/
theorem isOriginal_of_not_nests (hnests : ¬ s.plan.Nests (e.prepared doc)) {item : Value}
    {p : Paragraph} (hp : s.Repeats f item p) : 0 < p.id ∧ p.id ≤ s.document.lastId := by
  obtain ⟨m, d, entry, around, hr, hpass, hentry, hdefers, hp, block, hblock, hunder⟩ :=
    h.exists_of_repeats hp
  obtain ⟨hpos, hle⟩ := h.blocks hentry block hblock
  by_contra hnew
  rcases hunder with rfl | ⟨position, hposition, rfl⟩
  · exact hnew ⟨hpos, hle⟩
  · have hnot : Placed.isOriginal s.document.lastId ⟨.paragraph p, around⟩ = false := by
      rw [Bool.eq_false_iff, ne_eq, Placed.isOriginal_iff]
      exact hnew
    obtain ⟨entry', hentry', hdefers', y, hy, hblock', hposition'⟩ :=
      h.confines_of_reaches hr hpass _ hp hnot position hposition hpos hle
    obtain ⟨x, hx, hbecomes⟩ := h.becomes.exists_of_mem_right hy
    refine hnests ⟨entry', hentry', hdefers', _, hentry, hdefers, x, hx, ?_, position, ?_, hblock⟩
    · rw [← hbecomes.id_eq]
      exact hblock'
    · rw [← hbecomes.around_eq]
      exact hposition'

/-! ## Fillings -/

/-- A filling depends on the placeholders of what is handed over, and the texts of the
    document are as they were until the visit. Placeholders are evaluated in paragraphs of
    this document only, exactly if no template has a new paragraph with placeholders; and
    without nested regions no template has a new paragraph at all. -/
theorem evaluates_input :
    (∀ g, f.Alike g (fun scope' text =>
        ∃ p, s.Hands f (e.prepared doc) scope scope' p ∧ p.text = text) →
      e.fillWith g scope doc = e.fillWith f scope doc) ∧
    (e.prepared doc).paragraphs.map Paragraph.text = doc.paragraphs.map Paragraph.text ∧
    ((∀ scope' p, s.Hands f (e.prepared doc) scope scope' p → f.delimiters.scan p.text ≠ [] →
        p ∈ (e.prepared doc).paragraphs) ↔
      ∀ item p, s.Repeats f item p → f.delimiters.scan p.text ≠ [] →
        0 < p.id ∧ p.id ≤ s.document.lastId) ∧
    (¬ s.plan.Nests (e.prepared doc) →
      ∀ item p, s.Repeats f item p → 0 < p.id ∧ p.id ≤ s.document.lastId) := by
  refine ⟨fun g hg => h.fillWith_congr hg, Engine.map_text_prepared, ⟨?_, ?_⟩,
    fun hnests item p hp => h.isOriginal_of_not_nests hnests hp⟩
  · intro hall item p hp hscan
    obtain ⟨around, hmem⟩ := Document.mem_paragraphs_iff_outline.1 (hall item p (.inr hp) hscan)
    exact h.id_prepared hmem
  · rintro hall scope' p (⟨-, hp, -⟩ | hp) hscan
    · exact hp
    · obtain ⟨hpos, hle⟩ := hall scope' p hp hscan
      exact h.mem_prepared_of_repeats hp hpos hle

end Of

/-! ### Copies that are copied -/

/-- A comment to repeat a paragraph. -/
def guestList : Document where
  body := [.paragraph { content := [.rangeStart 1, .run (.ofText "$\x7bname\x7d"), .rangeEnd 1] }]
  comments := [.ofText 1 "repeatParagraph(guests)"]

/-- One guest, whose name looks like a placeholder. -/
def guests : Value :=
  .ofEntries [("guests", .list [.ofEntries [("name", .string "$\x7bsecret\x7d")]]),
    ("secret", .string "LEAKED")]

/-- The stage of the filling. -/
def stageOfGuestList : Stage :=
  (({} : Engine).stage .standard guests guestList).toOption.get (by decide +kernel)

theorem evaluatesInput_guestList :
    ∃ s : Stage, s.Of {} .standard guests guestList ∧
      ¬ s.plan.Nests (({} : Engine).prepared guestList) ∧
      ∀ scope p, s.Hands .standard (({} : Engine).prepared guestList) guests scope p →
        Filler.standard.delimiters.scan p.text ≠ [] →
          p ∈ (({} : Engine).prepared guestList).paragraphs := by
  have h : stageOfGuestList.Of {} .standard guests guestList :=
    ⟨Except.eq_ok_get _, rfl⟩
  have hnests : ¬ stageOfGuestList.plan.Nests (({} : Engine).prepared guestList) := by
    decide +kernel
  obtain ⟨-, -, hexact, hnever⟩ := h.evaluates_input
  exact ⟨_, h, hnests, hexact.2 fun item p hp _ => hnever hnests item p hp⟩

/-- A table under a comment to repeat it, with the same comment in a cell of it. -/
def nestedList : Document where
  body := [.table { rows := [
      ⟨0, [.ofParagraph { content := [.rangeStart 1, .run (.ofText "$\x7bname\x7d"), .rangeEnd 1] }]⟩,
      ⟨0, [.ofParagraph { content := [.rangeStart 2, .run (.ofText "row")] }]⟩] },
    .paragraph { content := [.run (.ofText "end"), .rangeEnd 2] }]
  comments := [.ofText 1 "repeatParagraph(guests)", .ofText 2 "repeatParagraph(tables)"]

/-- One guest and one table. -/
def nestedGuests : Value :=
  .ofEntries [("guests", .list [.ofEntries [("name", .string "$\x7bsecret\x7d")]]),
    ("tables", .list [.ofEntries [("secret", .string "LEAKED")]])]

/-- The stage of the filling. -/
def stageOfNestedList : Stage :=
  (({} : Engine).stage .standard nestedGuests nestedList).toOption.get (by decide +kernel)

/-- The second repetition, which is of the whole table. -/
def lastOfNestedList : Move :=
  stageOfNestedList.moves.get ⟨1, by decide +kernel⟩

/-- The name of the guest is handed over with the copy that it is in, and evaluated. -/
theorem not_evaluatesInput_nestedList :
    (∃ s : Stage, s.Of {} .standard nestedGuests nestedList ∧
      ∃ scope p, s.Hands .standard (({} : Engine).prepared nestedList) nestedGuests scope p ∧
        Filler.standard.delimiters.scan p.text ≠ [] ∧
        p.text ∉ nestedList.paragraphs.map Paragraph.text) ∧
      (({} : Engine).fill nestedGuests nestedList).toOption.map
        (fun outcome => outcome.1.paragraphs.map Paragraph.text) = some ["LEAKED", "row", "end"] := by
  have h : stageOfNestedList.Of {} .standard nestedGuests nestedList :=
    ⟨Except.eq_ok_get _, rfl⟩
  have hpass : lastOfNestedList.pass = .repetitions := by decide +kernel
  have hd := reaches_get (f := .standard) _ hpass (by decide +kernel)
  have hedit : lastOfNestedList.edit.repetition? =
      some (lastOfNestedList.edit.repetition?.get (by decide +kernel)) := by simp
  refine ⟨⟨_, h, _, _, .inr ⟨_, _, _, Edit.repetition?_eq_some_iff.1 hedit ▸ hd,
    List.head_mem (by decide +kernel), List.head_mem (by decide +kernel)⟩, ?_, ?_⟩, ?_⟩
  all_goals decide +kernel

end Stage

end DocTemplate
