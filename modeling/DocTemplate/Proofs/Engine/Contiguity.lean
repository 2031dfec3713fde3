import DocTemplate.Proofs.Comment.Order
import DocTemplate.Proofs.Directive.Contiguity
import DocTemplate.Proofs.Directive.Failure
import DocTemplate.Proofs.Engine.Stage
import Mathlib.Data.List.Pairwise

/-!
# Repetitions in well-ordered documents

A repetition finds its blocks in one place, if no range of a comment starts after it has
ended for the last time. Two things make it so:

* the regions whose placeholders are left to edits have no block in common: the plan leaves
  out what starts in a region that came before, and the numbers of nodes tell that what
  starts after it and outside of it has no block in it (`Document.InOrder.disjoint_blocks`);
* every removal and every other repetition then keeps the blocks of the region together
  (`Region.Together`).

And a filling fails over the place of a repetition for no other reason
(`Engine.repetition_not_misplaced`).
-/

namespace DocTemplate

/-! ## The document that is visited -/

theorem Placed.Becomes.siblings_eq {R : List CellPosition → Paragraph → Paragraph → Prop}
    {es es' : List Placed} (h : List.Forall₂ (Becomes R) es es') (around : List CellPosition) :
    siblings around es' = siblings around es := by
  induction h with
  | nil => rfl
  | @cons e e' es es' he _ ih =>
    simp only [siblings, List.filter_cons, he.isBlock_eq, he.around_eq] at ih ⊢
    split
    · rw [List.map_cons, List.map_cons, he.id_eq, ih]
    · exact ih

namespace Engine

variable {e : Engine} {doc : Document}

theorem inOrder_prepared : (e.prepared doc).InOrder where
  pairwise := by
    rw [map_id_prepared]
    exact List.pairwise_lt_range'
  bounds x hx := by
    have hmem : x.id ∈ List.range' 1 (e.prepared doc).lastId := by
      rw [← map_id_prepared]
      exact List.mem_map_of_mem hx
    rw [List.mem_range'_1, Nat.add_comm] at hmem
    exact ⟨Nat.lt_of_succ_le hmem.1, Nat.le_of_lt_succ hmem.2⟩

/-- The anchors are where they were, before the visit. -/
theorem anchors_prepared : (e.prepared doc).anchors = doc.anchors := by
  have hanchors : Paragraph.anchors = Paragraph.anchors ∘ Paragraph.unnumbered := rfl
  rw [Document.anchors, Document.anchors, List.flatMap_def, List.flatMap_def, prepared,
    (doc.assignIds.tidied_prepare e.settings).map_paragraphs fun _ _ h => h.anchors, hanchors,
    ← List.map_map, ← List.map_map, Document.paragraphs_assignIds]

theorem wellOrdered_prepared (h : doc.WellOrdered) : (e.prepared doc).WellOrdered := by
  have hcomments : (e.prepared doc).comments = doc.comments :=
    (doc.assignIds.tidied_prepare e.settings).comments
  rw [Document.WellOrdered, hcomments, anchors_prepared]
  exact h

end Engine

/-! ## Together until a repetition -/

namespace Stage.Of

variable {s : Stage} {f : Filler} {e : Engine} {scope : Value} {doc : Document} {m : Move}
  {d : Draft}

theorem numbered (h : s.Of e f scope doc) : s.document.Numbered where
  nodup := by
    rw [h.map_id_outline]
    exact List.nodup_range'
  bounds x hx := Placed.isOriginal_iff.1 (h.isOriginal hx)

/-- Two regions in the plan that are left to edits have no block in common. -/
theorem disjoint_blocks (h : s.Of e f scope doc) (hwell : doc.WellOrdered)
    {entry entry' : Region × List Call} (hentry : entry ∈ s.plan.entries)
    (hentry' : entry' ∈ s.plan.entries) (hdefers : Plan.defers .builtin entry)
    (hdefers' : Plan.defers .builtin entry') (hne : entry.1 ≠ entry'.1) :
    entry.1.blocks.Disjoint entry'.1.blocks := by
  have hplan := h.exists_visitAll.1
  have horder : (e.prepared doc).InOrder := Engine.inOrder_prepared
  have hstarts := List.pairwise_map.1
    (horder.pairwise_regions.sublist (Plan.sublist_entries hplan))
  have hpairwise : s.plan.entries.Pairwise fun a b =>
      Plan.defers .builtin a → Plan.defers .builtin b → a.1.blocks.Disjoint b.1.blocks := by
    refine (hstarts.and (Plan.pairwise_entries hplan)).imp_of_mem ?_
    rintro a b ha hb ⟨hle, hstart⟩ hda -
    exact horder.disjoint_blocks (Engine.wellOrdered_prepared hwell) (h.accounts.entries a ha).1
      (h.accounts.entries b hb).1 hle (hstart hda)
  have : Std.Symm fun a b : Region × List Call =>
      Plan.defers .builtin a → Plan.defers .builtin b → a.1.blocks.Disjoint b.1.blocks :=
    ⟨fun a b hab hb ha id hid hid' => hab ha hb hid' hid⟩
  exact hpairwise.forall hentry hentry' (fun heq => hne (congrArg Prod.fst heq)) hdefers hdefers'

/-- The blocks of the regions in the plan are together when the edits start. -/
theorem together_start (h : s.Of e f scope doc) (hwell : doc.WellOrdered)
    {entry : Region × List Call} (hentry : entry ∈ s.plan.entries) :
    entry.1.Together s.document.lastId s.document := by
  have horder : (e.prepared doc).InOrder := Engine.inOrder_prepared
  obtain ⟨around, first, rest, hblocks, hpart, -⟩ :=
    horder.region_siblings (Engine.wellOrdered_prepared hwell) (h.accounts.entries entry hentry).1
  have hsiblings : s.document.siblings around = (e.prepared doc).siblings around :=
    Placed.Becomes.siblings_eq h.becomes around
  refine ⟨around, fun position hposition => ?_, ?_⟩
  · -- The table is around the first block.
    obtain ⟨x, hx, -, rfl, -⟩ :=
      Placed.mem_siblings_iff.1 (hpart.subset (by simp [hblocks] : first ∈ entry.1.blocks))
    obtain ⟨a, htable⟩ := Document.exists_table_of_around hx hposition
    exact (h.id_prepared htable).2
  · have hall : entry.1.remaining s.document = entry.1.blocks := by
      refine List.filter_eq_self.2 fun id hid => ?_
      have hmem := hpart.subset hid
      rw [← hsiblings] at hmem
      obtain ⟨x, hx, hblock, -, rfl⟩ := Placed.mem_siblings_iff.1 hmem
      exact Document.isSome_node?_iff.2 ⟨x, hx, hblock, rfl⟩
    rw [hall, hsiblings]
    exact hpart

/-- At a repetition, the blocks are together of all regions that are left to edits. -/
theorem together_of_reaches (h : s.Of e f scope doc) (hwell : doc.WellOrdered)
    (hreach : s.Reaches f m d) (hm : m.pass = .repetitions) :
    d.document.Numbered ∧ ∀ entry ∈ s.plan.entries, Plan.defers .builtin entry →
      entry.1.Together s.document.lastId d.document := by
  refine (induction_repetition (P := fun d : Draft => d.document.Numbered ∧
    ∀ entry ∈ s.plan.entries, Plan.defers .builtin entry →
      entry.1.Together s.document.lastId d.document) hreach hm
    (fun m d₁ d₂ hmem hwords hfills hdescends hd hy => ?_)
    ⟨h.numbered, fun entry hentry _ => h.together_start hwell hentry⟩).2
  obtain ⟨hnumbered, htogether⟩ := hd
  have hblocks : ∀ entry ∈ s.plan.entries, ∀ id ∈ entry.1.blocks, id ≤ s.document.lastId :=
    fun entry hentry id hid => (h.blocks hentry id hid).2
  cases Move.does hy with
  | loses hloses =>
    exact ⟨hloses.numbered hnumbered, fun entry hentry hdefers => hloses.together hnumbered
      (fun id hid => (hblocks entry hentry id hid).trans hdescends.lastId_le)
      (htogether entry hentry hdefers)⟩
  | rewords => exact absurd rfl hwords
  | fills => exact absurd rfl hfills
  | @repeats i items hrepeat =>
    obtain ⟨calls, hown, hdefersOwn⟩ := h.exists_entry hmem
    refine ⟨Repetition.numbered_perform hrepeat hnumbered, fun entry hentry hdefers => ?_⟩
    -- A repetition leaves copies of its own blocks together, and has none of the others.
    by_cases heq : entry.1 = i.site.region
    · rw [heq]
      exact Repetition.together_perform_self hdescends.lastId_le hnumbered (h.blocks hown) hrepeat
    · exact Repetition.together_perform hdescends.lastId_le hnumbered (hblocks entry hentry)
        (h.disjoint_blocks hwell hentry hown hdefers hdefersOwn heq) hrepeat
        (htogether entry hentry hdefers)

/-- No move finds fault with the place of a repetition. -/
theorem misplaced?_of_fails (h : s.Of e f scope doc) (hwell : doc.WellOrdered) {error : Error}
    (hfails : (s.moves.forM (Move.perform f)).Fails s.start error) :
    error.misplaced? ≠ some "repeatParagraph" := by
  obtain ⟨m, d, hreach, hfails⟩ := Revision.exists_reaches_of_fails hfails
  rcases Move.exists_of_fails hfails with ⟨i, items, rfl⟩ | ⟨i, hpass, hi⟩
  · obtain ⟨calls, hentry, hdefers⟩ := h.exists_entry hreach.mem
    obtain ⟨hnumbered, htogether⟩ := h.together_of_reaches hwell hreach rfl
    obtain ⟨item, blocks, hfill⟩ := Repetition.exists_of_fails_perform hnumbered
      (htogether _ hentry hdefers) hfails
    obtain ⟨raw, text, source, rfl⟩ := Filler.exists_of_fillBlocks_eq_error hfill
    simp [Error.misplaced?]
  · intro herror
    have hname := TableFill.misplaced?_of_fails hi (by
      rw [Move.perform, hpass] at hfails
      exact hfails) _ herror
    -- The instruction would be one to repeat, and its edit one about a table.
    have hinstruction : m.edit.instruction? = some i := by
      cases hedit : m.edit <;> simp_all [Edit.tableInstruction?, Edit.instruction?]
    obtain ⟨items, hrepeat⟩ := h.traces.exists_repetition hreach.mem hinstruction hname.symm
    rw [hrepeat] at hi
    cases hi

end Stage.Of

/-! ## Fillings -/

/-- The plan of a document finds no fault with the places of comments. -/
theorem Plan.misplaced?_of_ofDocument {registry : Registry} {settings : Settings} {doc : Document}
    {error : Error} (h : ofDocument registry settings doc = .error error) :
    error.misplaced? = none := by
  obtain ⟨r, -, plan, h⟩ := Except.exists_of_foldlM_eq_error h
  rw [step] at h
  split at h
  · exact Registry.misplaced?_of_interpret (Except.map_eq_error.1 h)
  · cases h

/-- The handlers at work are the built-in ones. -/
def Visit.IsBuiltin (v : Visit) : Prop :=
  v.desks.desks.map Desk.handler = Registry.builtin.handlers

namespace Engine

variable {e : Engine} {filler : Filler} {scope : Value} {plan : Plan} {doc : Document}
  {error : Error}

theorem isBuiltin_of_dispatch {site : Site} {calls : List Call} {v v' : Visit}
    (hv : v.IsBuiltin) (h : e.dispatch scope site calls v = .ok v') : v'.IsBuiltin := by
  obtain ⟨outcome, houtcome, h⟩ := Except.bind_eq_ok.1 h
  obtain ⟨is, -, houtcome⟩ := Except.bind_eq_ok.1 houtcome
  cases is with
  | none =>
    cases houtcome
    cases h
    exact hv
  | some is =>
    obtain ⟨desks, hdesks, houtcome⟩ := Except.bind_eq_ok.1 houtcome
    cases houtcome
    cases h
    exact (Desks.map_handler_foldlM_accept hdesks).trans hv

theorem misplaced?_of_dispatch {site : Site} {calls : List Call} {v : Visit}
    (hv : v.IsBuiltin) (h : e.dispatch scope site calls v = .error error) :
    error.misplaced? ≠ some "repeatParagraph" := by
  rcases Except.bind_eq_error.1 h with h | ⟨outcome, -, h⟩
  · exact Desks.misplaced?_of_dispatch hv h
  · cases outcome <;> cases h

theorem misplaced?_of_visitAll {merged : Nat} (hregistry : e.registry = .builtin)
    (h : e.visitAll filler scope plan doc merged = .error error) :
    error.misplaced? ≠ some "repeatParagraph" := by
  have hwalk : StateT.Preserves Visit.IsBuiltin
      (fun error => error.misplaced? ≠ some "repeatParagraph")
      (Block.walkAll (e.visit filler scope plan) doc.body) := by
    refine preserves_walkAll (preserves_visit (fun _ _ _ hv => by exact hv)
      (fun _ _ _ _ => isBuiltin_of_dispatch) (fun p error h => ?_)
      fun _ _ _ _ => misplaced?_of_dispatch) _
    obtain ⟨raw, source, rfl⟩ := Filler.exists_of_fillParagraph_eq_error h
    simp [Error.misplaced?]
  unfold visitAll at h
  dsimp only at h
  generalize hstart : ({ desks := e.registry.desks, skipped := plan.skipped, report := _ } : Visit) =
    start at h
  have hbuiltin : start.IsBuiltin := by
    rw [← hstart, hregistry]
    rfl
  exact hwalk.error hbuiltin h

theorem misplaced?_of_stage (hregistry : e.registry = .builtin)
    (h : e.stage filler scope doc = .error error) :
    error.misplaced? ≠ some "repeatParagraph" := by
  rcases Except.bind_eq_error.1 h with h | ⟨plan, -, h⟩
  · simp [Plan.misplaced?_of_ofDocument h]
  rcases Except.bind_eq_error.1 h with h | ⟨_, -, h⟩
  · exact misplaced?_of_visitAll hregistry h
  · cases h

theorem misplaced?_of_filler (h : e.filler = .error error) : error.misplaced? = none := by
  rcases Except.bind_eq_error.1 h with h | ⟨delimiters, -, h⟩
  · rw [Delimiters.make] at h
    split at h <;> cases h
    rfl
  · cases h

/-- In a document in which no range of a comment starts after its last end, a repetition is
    never out of place. -/
theorem repetition_not_misplaced (hregistry : e.registry = .builtin) (hwell : doc.WellOrdered)
    (text : String) (reason : Misplacement) :
    e.fill scope doc ≠ .error (.misplaced "repeatParagraph" text reason) := by
  intro h
  rw [fill_eq] at h
  rcases Except.bind_eq_error.1 h with h | ⟨f, -, h⟩
  · cases misplaced?_of_filler h
  rcases Except.bind_eq_error.1 h with h | ⟨s, hs, h⟩
  · exact misplaced?_of_stage hregistry h rfl
  have hof : s.Of e f scope doc := ⟨hs, hregistry⟩
  rcases Except.bind_eq_error.1 h with h | ⟨d, -, h⟩
  · exact hof.misplaced?_of_fails hwell (hof.commit_eq_error.1 h) rfl
  · cases h

/-- Two lists, the first of which starts in a paragraph that may be removed. -/
def twoLists : Document where
  body := [.paragraph { content :=
      [.rangeStart 1, .run (.ofText "a note"), .rangeEnd 1, .rangeStart 2] },
    .paragraph { content := [.run (.ofText "* $\x7bitem\x7d")] },
    .paragraph { content := [.run (.ofText "and"), .rangeEnd 2] },
    .paragraph { content := [.rangeStart 3, .run (.ofText "* $\x7bitem\x7d"), .rangeEnd 3] }]
  comments := [.ofText 1 "displayParagraphIf(note)", .ofText 2 "repeatParagraph(list)",
    .ofText 3 "repeatParagraph(list)"]

/-- What is filled in. -/
def twoListsData : Value :=
  .ofEntries [("note", .bool false),
    ("list", .list [.ofEntries [("item", .string "tea")], .ofEntries [("item", .string "milk")]])]

theorem repetition_not_misplaced_twoLists :
    (({} : Engine).fill twoListsData twoLists).toOption.map
        (fun r => r.1.paragraphs.map Paragraph.text) =
      some ["* tea", "and", "* milk", "and", "* tea", "* milk"] ∧
    twoLists.WellOrdered ∧ ∀ text reason,
      ({} : Engine).fill twoListsData twoLists ≠ .error (.misplaced "repeatParagraph" text reason) :=
  ⟨by decide +kernel, by decide +kernel, repetition_not_misplaced rfl (by decide +kernel)⟩

/-- A range that starts after its end, with another one in between. -/
def reversedList : Document where
  body := [.paragraph { content := [.run (.ofText "first"), .rangeEnd 1] },
    .paragraph { content := [.rangeStart 2, .run (.ofText "second"), .rangeEnd 2] },
    .paragraph { content := [.rangeStart 1, .run (.ofText "third")] }]
  comments := [.ofText 1 "repeatParagraph(list)", .ofText 2 "repeatParagraph(list)"]

-- The order of the anchors is needed.
example : ¬ reversedList.WellOrdered ∧ ({} : Engine).fill twoListsData reversedList =
    .error (.misplaced "repeatParagraph" "third" .scattered) := by
  have herror : ∀ {α : Type} {x : Except Error α} {error : Error},
      x.toOption.isNone → (match x with | .error e => e | .ok _ => .badSnapshot) = error →
        x = .error error := by
    rintro α (_ | _) error hnone rfl
    · rfl
    · cases hnone
  exact ⟨by decide +kernel, herror (by decide +kernel) (by decide +kernel)⟩

end Engine

end DocTemplate
