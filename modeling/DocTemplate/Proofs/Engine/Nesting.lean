import DocTemplate.Proofs.Comment.Order
import DocTemplate.Proofs.Engine.Contiguity

/-!
# Comments inside repetitions

A comment that starts in the region of a repetition should not be interpreted, for its
paragraph is only a template. Plans are made in one pass over the comments, in the order in
which they start, and a comment is interpreted unless its paragraph is deferred by then. So
what counts are the repetitions that start before it (`Plan.mem_entries_iff`).

But a region may reach back before the start of its comment: to the first row of a table, if
the comment starts in a later one and ends after the table, or to its end, if that is before
its start. A comment that starts there comes too early to be left out, and is dispatched
(`Plan.mem_entries_nested_iff`).

* `Plan.mem_entries_foldlM`: the pass, comment by comment;
* `Plan.mem_entries_iff`: which comments are planned;
* `Engine.dispatches_nested_iff`: which of those in the region of a repetition are dispatched.
-/

namespace DocTemplate

namespace Document

/-- The first comment starts before the second one, also if both start in one paragraph. -/
def StartsBefore (doc : Document) (r r' : Region) : Prop :=
  doc.regions.idxOf r < doc.regions.idxOf r'

instance (doc : Document) (r r' : Region) : Decidable (doc.StartsBefore r r') :=
  inferInstanceAs (Decidable (_ < _))

/-- Numbers of paragraphs tell which of two comments starts first, unless both start in one. -/
theorem InOrder.startsBefore {doc : Document} (h : doc.InOrder) {r r' : Region}
    (hr : r ∈ doc.regions) (hr' : r' ∈ doc.regions) (hlt : r.start < r'.start) :
    doc.StartsBefore r r' := by
  by_contra hle
  rw [StartsBefore, Nat.not_lt] at hle
  have hidx := List.idxOf_lt_length_iff.2 hr
  have hidx' := List.idxOf_lt_length_iff.2 hr'
  rcases Nat.eq_or_lt_of_le hle with heq | hlt'
  · obtain rfl : r' = r := by
      rw [← List.getElem_idxOf hidx, ← List.getElem_idxOf hidx']
      simp only [heq]
    exact Nat.lt_irrefl _ hlt
  · have hle' := List.pairwise_iff_getElem.1 h.pairwise_regions _ _ hidx' hidx hlt'
    rw [List.getElem_idxOf, List.getElem_idxOf] at hle'
    exact Nat.not_lt.2 hle' hlt

end Document

namespace Plan

variable {registry : Registry} {settings : Settings} {doc : Document} {plan plan' : Plan}
  {regions : List Region} {r : Region} {entry : Region × List Call}

/-! ## The pass over the comments -/

/-- One more comment is planned if it is interpreted and is a sequence of calls. -/
theorem mem_entries_step (h : step registry settings doc plan r = .ok plan') :
    entry ∈ plan'.entries ↔ entry ∈ plan.entries ∨
      (entry.1 = r ∧ plan.interprets r ∧
        registry.interpret settings r.text = .ok (some entry.2)) := by
  rcases step_cases h with ⟨hr, rfl⟩ | ⟨hr, calls, hcalls, rfl⟩
  · simp [hr]
  · rw [hcalls]
    cases calls with
    | none => simp [add]
    | some calls =>
      simp only [add, hr, List.mem_append, List.mem_singleton, Prod.ext_iff, true_and,
        Except.ok.injEq, Option.some.injEq]
      exact or_congr_right (and_congr_right fun _ => eq_comm)

/-- What is deferred stays so. -/
theorem deferred_subset_of_foldlM (h : regions.foldlM (step registry settings doc) plan = .ok plan') :
    plan.deferred ⊆ plan'.deferred := by
  refine Except.foldlM_induction (P := fun plan' : Plan => plan.deferred ⊆ plan'.deferred)
    (fun between r next hsub hstep => ?_) (List.Subset.refl _) h
  rcases step_cases hstep with ⟨-, rfl⟩ | ⟨-, calls, -, rfl⟩
  · exact hsub
  · exact List.Subset.trans hsub (between.deferred_subset_add registry doc r calls)

/-- A comment is planned where the pass comes to it and interprets it. -/
theorem mem_entries_foldlM (h : regions.foldlM (step registry settings doc) plan = .ok plan') :
    entry ∈ plan'.entries ↔ entry ∈ plan.entries ∨ ∃ before after between,
      regions = before ++ entry.1 :: after ∧
        before.foldlM (step registry settings doc) plan = .ok between ∧
        between.interprets entry.1 ∧
          registry.interpret settings entry.1.text = .ok (some entry.2) := by
  induction regions generalizing plan with
  | nil =>
    cases h
    simp
  | cons r regions ih =>
    rw [List.foldlM_cons] at h
    obtain ⟨next, hstep, h⟩ := Except.bind_eq_ok.1 h
    rw [ih h, mem_entries_step hstep, or_assoc]
    refine or_congr_right ⟨?_, ?_⟩
    · rintro (⟨rfl, hinterprets, hcalls⟩ | ⟨before, after, between, rfl, hbefore, hrest⟩)
      · exact ⟨[], regions, plan, rfl, rfl, hinterprets, hcalls⟩
      · exact ⟨r :: before, after, between, rfl,
          by rw [List.foldlM_cons]; exact Except.bind_eq_ok.2 ⟨next, hstep, hbefore⟩, hrest⟩
    · rintro ⟨_ | ⟨r', before⟩, after, between, hregions, hbefore, hinterprets, hcalls⟩
      · obtain ⟨rfl, rfl⟩ := List.cons.inj hregions
        cases hbefore
        exact .inl ⟨rfl, hinterprets, hcalls⟩
      · obtain ⟨rfl, rfl⟩ := List.cons.inj hregions
        rw [List.foldlM_cons] at hbefore
        obtain ⟨next', hstep', hbefore⟩ := Except.bind_eq_ok.1 hbefore
        cases hstep.symm.trans hstep'
        exact .inr ⟨before, after, between, rfl, hbefore, hinterprets, hcalls⟩

/-! ## Which comments are planned -/

/-- A comment is planned if it is interpreted when the pass first comes to it. When the pass
    comes there again, there are no fewer paragraphs deferred. -/
theorem mem_entries_iff_exists (h : regions.foldlM (step registry settings doc) {} = .ok plan)
    (hr : entry.1 ∈ regions) :
    entry ∈ plan.entries ↔ ∃ between,
      (regions.take (regions.idxOf entry.1)).foldlM (step registry settings doc) {} =
        .ok between ∧ between.interprets entry.1 ∧
          registry.interpret settings entry.1.text = .ok (some entry.2) := by
  have hidx := List.idxOf_lt_length_iff.2 hr
  rw [mem_entries_foldlM h]
  constructor
  · rintro (hnil | ⟨before, after, later, hregions, hlater, hinterprets, hcalls⟩)
    · cases hnil
    -- The pass may come to it again later, but it is interpreted then only if it was so at first.
    have hle : regions.idxOf entry.1 ≤ before.length := by
      rw [hregions]
      by_cases hmem : entry.1 ∈ before
      · rw [List.idxOf_append_of_mem hmem]
        exact List.idxOf_le_length
      · simp [List.idxOf_append_of_notMem hmem]
    have hprefix : regions.take (regions.idxOf entry.1) <+: before := by
      rw [hregions, List.take_append_of_le_length (hregions ▸ hle)]
      exact List.take_prefix _ _
    obtain ⟨more, hmore⟩ := hprefix
    rw [← hmore, List.foldlM_append] at hlater
    obtain ⟨between, hbetween, hrest⟩ := Except.bind_eq_ok.1 hlater
    refine ⟨between, hbetween, ?_, hcalls⟩
    rw [interprets_iff] at hinterprets ⊢
    exact ⟨hinterprets.1, fun hmem => hinterprets.2 (deferred_subset_of_foldlM hrest hmem)⟩
  · rintro ⟨between, hbetween, hinterprets, hcalls⟩
    refine .inr ⟨_, regions.drop (regions.idxOf entry.1 + 1), between, ?_, hbetween, hinterprets,
      hcalls⟩
    have hdrop := List.drop_eq_getElem_cons hidx
    rw [List.getElem_idxOf] at hdrop
    rw [← hdrop, List.take_append_drop]

/-- What is planned when the pass first comes to a comment: what starts before it. -/
theorem mem_entries_before_iff (h : ofDocument registry settings doc = .ok plan)
    {between : Plan} (hbetween : (doc.regions.take (doc.regions.idxOf r)).foldlM
      (step registry settings doc) {} = .ok between) :
    entry ∈ between.entries ↔ entry ∈ plan.entries ∧ doc.StartsBefore entry.1 r := by
  by_cases hmem : entry.1 ∈ doc.regions.take (doc.regions.idxOf r)
  · have hregion := List.mem_of_mem_take hmem
    have hlt := (List.mem_take_iff_idxOf_lt hregion).1 hmem
    have hidx : (doc.regions.take (doc.regions.idxOf r)).idxOf entry.1 =
        doc.regions.idxOf entry.1 := by
      rw [← List.idxOf_append_of_mem hmem, List.take_append_drop]
    rw [mem_entries_iff_exists hbetween hmem, mem_entries_iff_exists h hregion, hidx,
      List.take_take, Nat.min_eq_left (Nat.le_of_lt hlt)]
    exact ⟨fun h => ⟨h, hlt⟩, And.left⟩
  · refine iff_of_false (fun hentry => ?_) fun hentry => ?_
    · exact hmem ((accounts_nil.foldlM hbetween).entries entry hentry).1
    · exact hmem ((List.mem_take_iff_idxOf_lt
        ((accounts_ofDocument h).entries entry hentry.1).1).2 hentry.2)

/-- The comments that are planned: those that are no replies, are sequences of calls, and do
    not start in the region of a repetition that was planned before. -/
theorem mem_entries_iff (h : ofDocument registry settings doc = .ok plan)
    (hr : r ∈ doc.regions) {calls : List Call} :
    (r, calls) ∈ plan.entries ↔ r.parent = none ∧
      registry.interpret settings r.text = .ok (some calls) ∧
        ∀ entry ∈ plan.entries, defers registry entry → doc.StartsBefore entry.1 r →
          r.start ∉ entry.1.paragraphIds doc := by
  have hsplit := h
  rw [ofDocument, ← List.take_append_drop (doc.regions.idxOf r) doc.regions, List.foldlM_append]
    at hsplit
  obtain ⟨between, hbetween, -⟩ := Except.bind_eq_ok.1 hsplit
  -- What is deferred by then are the regions of the repetitions planned by then.
  have hdeferred : r.start ∉ between.deferred ↔ ∀ entry ∈ plan.entries,
      defers registry entry → doc.StartsBefore entry.1 r → r.start ∉ entry.1.paragraphIds doc := by
    rw [(accounts_nil.foldlM hbetween).deferred]
    simp only [mem_entries_before_iff h hbetween, not_exists, not_and, and_imp]
    exact forall_congr' fun entry => forall_congr' fun _ => forall_comm
  have hexists := @mem_entries_iff_exists _ _ _ _ _ (r, calls) h hr
  rw [hexists]
  simp only [hbetween, Except.ok.injEq, exists_eq_left', interprets_iff, hdeferred, and_assoc]
  exact and_congr_right fun _ => and_comm

/-- A comment that starts in the region of another one, which is a repetition, but not where
    that one does, is planned only if it starts before it. -/
theorem mem_entries_nested_iff (h : ofDocument registry settings doc = .ok plan)
    (horder : doc.InOrder) (hentry : entry ∈ plan.entries) (hdefers : defers registry entry)
    (hr : r ∈ doc.regions) (hin : r.start ∈ entry.1.paragraphIds doc)
    (hne : r.start ≠ entry.1.start) {calls : List Call} :
    (r, calls) ∈ plan.entries ↔ r.start < entry.1.start ∧ r.parent = none ∧
      registry.interpret settings r.text = .ok (some calls) ∧
        ∀ entry ∈ plan.entries, defers registry entry → doc.StartsBefore entry.1 r →
          r.start ∉ entry.1.paragraphIds doc := by
  rw [← mem_entries_iff h hr]
  refine ⟨fun hmem => ⟨?_, hmem⟩, And.right⟩
  by_contra hle
  have hlt : entry.1.start < r.start := Nat.lt_of_le_of_ne (Nat.not_lt.1 hle) hne.symm
  have hentryRegion := ((accounts_ofDocument h).entries entry hentry).1
  exact ((mem_entries_iff h hr).1 hmem).2.2 entry hentry hdefers
    (horder.startsBefore hentryRegion hr hlt) hin

/-- What is dispatched at some nodes: the comments planned that start there. -/
theorem exists_mem_dispatches_iff {nodes : List Placed} :
    (∃ d ∈ plan.dispatches nodes, d.1.region = r) ↔
      (∃ p around, ⟨.paragraph p, around⟩ ∈ nodes ∧ p.id = r.start) ∧
        ∃ calls, (r, calls) ∈ plan.entries := by
  constructor
  · rintro ⟨d, hd, rfl⟩
    obtain ⟨⟨p | _ | _, around⟩, hp, hd⟩ := List.mem_flatMap.1 hd
    · obtain ⟨entry, hentry, rfl⟩ := List.mem_map.1 hd
      obtain ⟨hentry, hstart⟩ := List.mem_filter.1 hentry
      exact ⟨⟨p, around, hp, (of_decide_eq_true hstart).symm⟩, entry.2, hentry⟩
    · cases hd
    · cases hd
  · rintro ⟨⟨p, around, hp, hid⟩, calls, hentry⟩
    refine ⟨_, List.mem_flatMap.2 ⟨_, hp, List.mem_map.2 ⟨(r, calls), ?_, rfl⟩⟩, rfl⟩
    exact List.mem_filter.2 ⟨hentry, decide_eq_true hid.symm⟩

end Plan

namespace Engine

variable {e : Engine} {doc : Document} {plan : Plan} {entry : Region × List Call} {r : Region}

/-- Which comments are dispatched, of those that start in the region of a repetition `entry`
    but in another paragraph than that comment, once the visit has come past some nodes: those
    that start before it in a paragraph that was visited, are no replies, are sequences of
    calls, and do not start in the region of a repetition that was planned before. -/
theorem dispatches_nested_iff
    (hplan : Plan.ofDocument .builtin e.settings (e.prepared doc) = .ok plan)
    (hentry : entry ∈ plan.entries) (hdefers : Plan.defers .builtin entry)
    (hr : r ∈ (e.prepared doc).regions) (hin : r.start ∈ entry.1.paragraphIds (e.prepared doc))
    (hne : r.start ≠ entry.1.start) (nodes : List Placed) :
    (∃ d ∈ plan.dispatches nodes, d.1.region = r) ↔
      r.start < entry.1.start ∧ (∃ p around, ⟨.paragraph p, around⟩ ∈ nodes ∧ p.id = r.start) ∧
        r.parent = none ∧ (∃ calls, Registry.builtin.interpret e.settings r.text = .ok (some calls)) ∧
          ∀ other ∈ plan.entries, Plan.defers .builtin other →
            (e.prepared doc).StartsBefore other.1 r →
              r.start ∉ other.1.paragraphIds (e.prepared doc) := by
  simp only [Plan.exists_mem_dispatches_iff,
    Plan.mem_entries_nested_iff hplan inOrder_prepared hentry hdefers hr hin hne,
    exists_and_left, exists_and_right]
  exact and_left_comm

/-- A chapter of two paragraphs that is repeated, with a comment in the second one. -/
def chapterWithNote : Document where
  body := [.paragraph { content := [.rangeStart 1, .run (.ofText "Item $\x7bid\x7d")] },
    .paragraph { content := [.rangeStart 2, .run (.ofText "Total $\x7btotal\x7d"), .rangeEnd 2,
      .rangeEnd 1] }]
  comments := [.ofText 1 "repeatParagraph(orders)", .ofText 2 "displayParagraphIf(total > 10)"]

/-- The comment in the second paragraph is never dispatched. -/
theorem dispatches_nested_chapterWithNote : ∃ plan entry r,
    Plan.ofDocument .builtin {} (({} : Engine).prepared chapterWithNote) = .ok plan ∧
      entry ∈ plan.entries ∧ Plan.defers .builtin entry ∧
      r ∈ (({} : Engine).prepared chapterWithNote).regions ∧ r.id = 2 ∧
      r.start ∈ entry.1.paragraphIds (({} : Engine).prepared chapterWithNote) ∧
      r.start ≠ entry.1.start ∧
      ∀ nodes : List Placed, ¬ ∃ d ∈ plan.dispatches nodes, d.1.region = r := by
  have hplan : Plan.ofDocument .builtin {} (({} : Engine).prepared chapterWithNote) = .ok _ :=
    Except.eq_ok_get (by decide +kernel)
  have hentry := List.getElem_mem (l := (Except.toOption (Plan.ofDocument .builtin {}
    (({} : Engine).prepared chapterWithNote))).get (by decide +kernel) |>.entries) (n := 0)
    (by decide +kernel)
  have hr := List.getElem_mem (l := (({} : Engine).prepared chapterWithNote).regions) (n := 1)
    (by decide +kernel)
  refine ⟨_, _, _, hplan, hentry, by decide +kernel, hr, by decide +kernel, by decide +kernel,
    by decide +kernel, fun nodes h => ?_⟩
  have hiff := dispatches_nested_iff (e := {}) hplan hentry (by decide +kernel) hr (by decide +kernel)
    (by decide +kernel) nodes
  exact absurd (hiff.1 h).1 (by decide +kernel)

/-- A table, and a paragraph after it where a repetition ends that starts in the second row;
    there is a comment in the first row. -/
def rowWithNote : Document where
  body := [.table { rows := [
      ⟨0, [{ content := [.paragraph { content := [.run (.ofText "head")] },
        .paragraph { content := [.rangeStart 1, .run (.ofText "note"), .rangeEnd 1] }] }]⟩,
      ⟨0, [.ofParagraph { content := [.rangeStart 2, .run (.ofText "row")] }]⟩] },
    .paragraph { content := [.run (.ofText "end"), .rangeEnd 2] }]
  comments := [.ofText 1 "displayParagraphIf(shown)", .ofText 2 "repeatParagraph(items)"]

/-- What is filled in. -/
def rowWithNoteData : Value :=
  .ofEntries [("shown", .bool false), ("items", .list [.null, .null])]

/-- The stage of its filling. -/
def stageOfRowWithNote : Stage :=
  (({} : Engine).stage .standard rowWithNoteData rowWithNote).toOption.get (by decide +kernel)

/-- The region of the repetition begins with the table, and so with the first row. The comment
    there is dispatched, and its paragraph is in none of the copies. -/
theorem dispatches_rowWithNote : ∃ s : Stage, s.Of {} .standard rowWithNoteData rowWithNote ∧
    (∃ entry ∈ s.plan.entries, Plan.defers .builtin entry ∧
      (∃ d ∈ s.plan.dispatches s.document.outline, d.1.region = entry.1) ∧
      ∃ r ∈ (({} : Engine).prepared rowWithNote).regions, r.id ≠ entry.1.id ∧
        r.start ∈ entry.1.paragraphIds (({} : Engine).prepared rowWithNote) ∧
        r.start ≠ entry.1.start ∧ ∃ d ∈ s.plan.dispatches s.document.outline, d.1.region = r) ∧
    ((({} : Engine).fill rowWithNoteData rowWithNote).toOption.map fun x =>
        x.1.paragraphs.map Paragraph.text) =
      some ["head", "row", "end", "head", "row", "end"] := by
  have h : stageOfRowWithNote.Of {} .standard rowWithNoteData rowWithNote :=
    ⟨Except.eq_ok_get _, rfl⟩
  exact ⟨_, h, by decide +kernel, by decide +kernel⟩

end Engine

end DocTemplate
