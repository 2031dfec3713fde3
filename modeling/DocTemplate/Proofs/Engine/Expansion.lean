import DocTemplate.Proofs.Comment.Extent
import DocTemplate.Proofs.Directive.Expansion
import DocTemplate.Proofs.Engine.Application

/-!
# Documents that repeat blocks

What becomes of a document whose comments do nothing but repeat blocks. It is not changed
step by step: the slices that the comments cover (`Slice.Repeats`) have their copies in
their places, and all other paragraphs are filled (`Slice.expand`). That is so for any
number of comments, in the body and in cells of tables, as long as no two of them have a
node in common (`Plan.RepeatsOnly`).

* `Document.exists_slice`: what a region covers;
* `Engine.foldlM_dispatchStep_repeating`, `Stage.Of.map_dispatches`: the repetitions are
  accepted in the order of the plan;
* `Stage.Of.walkAll_eq_ok`, `Stage.Of.isIn_slice`: the visit fills what is outside of slices, and
  leaves the slices alone;
* `Engine.repetition_law`: the document after a filling.
-/

namespace DocTemplate

/-- The slice is what a region of the document covers. -/
structure Slice.Covers (s : Slice) (doc : Document) (r : Region) : Prop where
  /-- Its blocks are neighbours in some container. -/
  siblings : ∃ path, doc.container? path = some (s.before ++ s.template ++ s.after)
  ids : s.ids = r.blocks
  layout : s.layout = Repetition.restoredBreak r
  /-- The range starts and ends in its first and its last block. -/
  ends : ∃ first last, s.template.head? = some first ∧ s.template.getLast? = some last ∧
    ((r.start ∈ first.paragraphs.map Paragraph.id ∧ r.stop ∈ last.paragraphs.map Paragraph.id) ∨
      (r.start ∈ last.paragraphs.map Paragraph.id ∧ r.stop ∈ first.paragraphs.map Paragraph.id))

namespace Document

variable {doc : Document}

/-- The slice of a region, for some items. -/
theorem exists_slice {r : Region} (hr : r ∈ doc.regions) (items : List Value) :
    ∃ s : Slice, s.Covers doc r ∧ s.items = items := by
  obtain ⟨-, p, c, -, -, -, e, hspans⟩ := exists_of_mem_regions hr
  obtain ⟨first, last, hfirst, hlast, hends⟩ := e.ends
  refine ⟨⟨e.before, e.covered, e.after, items⟩, ⟨⟨e.path, e.container⟩, hspans.blocks.symm, ?_,
    first, last, hfirst, hlast, ?_⟩, rfl⟩
  · simp only [Slice.layout, Slice.precedingBreak, Slice.breakCount, Repetition.restoredBreak,
      Region.hasOddBreaks, hspans.precedingBreak, hspans.breakCount, decide_eq_true_eq]
    rfl
  · rw [hspans.start, hspans.stop]
    exact hends.imp (fun h => ⟨List.mem_map_of_mem h.1, List.mem_map_of_mem h.2⟩)
      fun h => ⟨List.mem_map_of_mem h.1, List.mem_map_of_mem h.2⟩

end Document

/-- The items that the calls of a comment repeat blocks for, if they are one call of a
    repetition whose argument is a list, or null for the empty one. -/
def Call.repeated? (env : Environment) (scope : Value) : List Call → Option (List Value)
  | [call] =>
    if call.name = .repeatParagraph then
      match call.evaluate env scope with
      | .ok [.list items] => some items
      | .ok [.null] => some []
      | _ => none
    else
      none
  | _ => none

theorem Call.exists_of_repeated? {env : Environment} {scope : Value} {calls : List Call}
    {items : List Value} (h : repeated? env scope calls = some items) :
    ∃ call, calls = [call] ∧ call.name = .repeatParagraph ∧
      (call.evaluate env scope = .ok [.list items] ∨
        call.evaluate env scope = .ok [.null] ∧ items = []) := by
  match calls with
  | [] => cases h
  | _ :: _ :: _ => cases h
  | [call] =>
    rw [repeated?] at h
    split at h
    · next hname =>
      refine ⟨call, rfl, hname, ?_⟩
      split at h
      · next heval =>
        obtain rfl := Option.some.inj h
        exact .inl heval
      · next heval => exact .inr ⟨heval, (Option.some.inj h).symm⟩
      · cases h
    · cases h

/-- The slice is what a comment with some calls repeats. -/
structure Slice.Repeats (s : Slice) (env : Environment) (scope : Value) (doc : Document)
    (entry : Region × List Call) : Prop extends s.Covers doc entry.1 where
  items : Call.repeated? env scope entry.2 = some s.items

/-- The handler of repetition at work. -/
def Desk.repeating (rs : List (Instruction × List Value)) : Desk where
  handler := .repetition
  edits := rs.map fun r => .repeatBlocks r.1 r.2

/-- The built-in handlers at work, of which only that of repetition has accepted something. -/
def Desks.repeating (rs : List (Instruction × List Value)) : Desks :=
  ⟨[{ handler := .display }, .repeating rs, { handler := .wordReplacement }, { handler := .table }]⟩

theorem Desks.moves_repeating (rs : List (Instruction × List Value)) :
    (repeating rs).moves = rs.map fun r => ⟨.repetitions, .repeatBlocks r.1 r.2⟩ := by
  simp [moves, Pass.all, Pass.desk, editsAt, repeating, Desk.repeating]

theorem Desks.accept_repeating {settings : Settings} {i : Instruction} {items : List Value}
    (hname : i.name = .repeatParagraph) (harg : i.arg = .list items ∨ i.arg = .null ∧ items = [])
    (rs : List (Instruction × List Value)) :
    (repeating rs).accept settings i = .ok (repeating (rs ++ [(i, items)])) := by
  have hedit : Handler.repetition.accept settings i = .ok (some (.repeatBlocks i items)) := by
    change Repetition.accept settings i = _
    rw [Repetition.accept]
    rcases harg with harg | ⟨harg, rfl⟩ <;> rw [harg]
  have hdisplay : Handler.display.names.contains "repeatParagraph" = false := by decide
  have hrepetition : (Desk.repeating rs).handler.names.contains "repeatParagraph" = true := by
    change Handler.repetition.names.contains "repeatParagraph" = true
    decide
  have hdesk : (Desk.repeating rs).accept settings i = .ok (.repeating (rs ++ [(i, items)])) := by
    rw [Desk.repeating, Desk.accept, hedit, Desk.repeating, List.map_append]
    rfl
  have hacceptAt : acceptAt? settings i "repeatParagraph" (repeating rs).desks =
      some (.ok (repeating (rs ++ [(i, items)])).desks) := by
    rw [repeating, acceptAt?, hdisplay, if_neg Bool.false_ne_true, acceptAt?, hrepetition,
      if_pos rfl, hdesk]
    rfl
  have hstring : i.name.toString = "repeatParagraph" := by rw [hname]; rfl
  rw [accept, hstring, hacceptAt]
  rfl

namespace Engine

variable {e : Engine} {scope : Value}

/-- The dispatch of a comment that repeats blocks. -/
theorem dispatchStep_repeating (site : Site) {calls : List Call} {items : List Value}
    (h : Call.repeated? e.environment scope calls = some items) (rs : List (Instruction × List Value))
    (skipped : List CommentId) : ∃ i : Instruction, i.site = site ∧
      e.dispatchStep scope (Desks.repeating rs, skipped) (site, calls) =
        .ok (Desks.repeating (rs ++ [(i, items)]), skipped) := by
  obtain ⟨call, rfl, hname, harg⟩ := Call.exists_of_repeated? h
  obtain ⟨args, hargs, harg⟩ : ∃ args, call.evaluate e.environment scope = .ok args ∧
      ((⟨call.name, args, site⟩ : Instruction).arg = .list items ∨
        (⟨call.name, args, site⟩ : Instruction).arg = .null ∧ items = []) := by
    rcases harg with hargs | ⟨hargs, rfl⟩
    · exact ⟨_, hargs, .inl rfl⟩
    · exact ⟨_, hargs, .inr ⟨rfl, rfl⟩⟩
  refine ⟨⟨call.name, args, site⟩, rfl, ?_⟩
  have hinstructions : Call.instructions e.environment e.settings scope site [call] =
      .ok (some [⟨call.name, args, site⟩]) := by
    rw [Call.instructions, hargs]
    rfl
  have hdispatch : (Desks.repeating rs).dispatch e.environment e.settings scope site [call] =
      .ok (some (1, Desks.repeating (rs ++ [(⟨call.name, args, site⟩, items)]))) := by
    rw [Desks.dispatch, hinstructions]
    refine Except.bind_eq_ok.2 ⟨_, rfl, Except.bind_eq_ok.2 ⟨_, ?_, rfl⟩⟩
    rw [List.foldlM_cons, Desks.accept_repeating (i := ⟨call.name, args, site⟩) hname harg]
    rfl
  rw [dispatchStep, hdispatch]
  rfl

/-- The dispatches of comments that repeat blocks. -/
theorem foldlM_dispatchStep_repeating {ds : List (Site × List Call)}
    {state : Desks × List CommentId}
    (h : ∀ d ∈ ds, ∃ items, Call.repeated? e.environment scope d.2 = some items)
    (rs : List (Instruction × List Value)) (skipped : List CommentId)
    (hfold : ds.foldlM (e.dispatchStep scope) (Desks.repeating rs, skipped) = .ok state) :
    ∃ more, state = (Desks.repeating (rs ++ more), skipped) ∧
      List.Forall₂ (fun d r => r.1.site = d.1 ∧
        Call.repeated? e.environment scope d.2 = some r.2) ds more := by
  induction ds generalizing rs with
  | nil =>
    cases hfold
    exact ⟨[], by simp, .nil⟩
  | cons d ds ih =>
    obtain ⟨items, hitems⟩ := h d List.mem_cons_self
    obtain ⟨i, hi, hstep⟩ := dispatchStep_repeating d.1 hitems rs skipped
    rw [List.foldlM_cons] at hfold
    obtain ⟨next, hnext, hfold⟩ := Except.bind_eq_ok.1 hfold
    obtain rfl := Except.ok.inj (hstep.symm.trans hnext)
    obtain ⟨more, rfl, hmore⟩ := ih (fun d hd => h d (List.mem_cons_of_mem _ hd)) _ hfold
    exact ⟨(i, items) :: more, by simp, .cons ⟨hi, hitems⟩ hmore⟩

end Engine

/-! ## The document that is visited -/

/-- The blocks of the slice of a region are what is attached of the region. -/
theorem Slice.Covers.attached_eq {s : Slice} {doc : Document} {r : Region} (h : s.Covers doc r)
    (hnodup : (doc.outline.map Placed.id).Nodup) : r.attached doc = s.template := by
  obtain ⟨path, hpath⟩ := h.siblings
  exact r.attached_eq hnodup hpath (by simp) h.ids.symm

namespace Stage.Of

variable {s : Stage} {f : Filler} {e : Engine} {scope : Value} {doc : Document}

/-- Comments are dispatched in the order of the plan. -/
theorem map_dispatches (h : s.Of e f scope doc) :
    (s.plan.dispatches s.document.outline).map (fun d => (d.1.region, d.2)) = s.plan.entries :=
  Plan.map_dispatches h.exists_visitAll.1 Engine.inOrder_prepared h.becomes

/-- What the visit makes of the document, walked through in another way. -/
theorem exists_walkAll (h : s.Of e f scope doc) (visit : Paragraph → Except Error Paragraph)
    {R : Paragraph → Paragraph → Prop}
    (hvisit : ∀ p q, (if s.plan.deferred.contains p.id then q = p
      else ∃ tally, f.fillParagraph scope p = .ok (q, tally)) → ∃ p', visit p = .ok p' ∧ R p' q) :
    ∃ body, Block.walkAll (fun _ p => visit p) (e.prepared doc).body = .ok body ∧
      List.Forall₂ (Block.Related Eq R) body s.document.body := by
  obtain ⟨-, body, hrun, hdoc⟩ := h.exists_visitAll
  have hdocBody : s.document.body = body := by rw [hdoc]
  rw [hdocBody]
  have hself : List.Forall₂ (Block.Related Eq Eq) (e.prepared doc).body (e.prepared doc).body :=
    List.forall₂_same.2 fun b _ => .refl (fun _ => rfl) (fun _ => rfl) b
  refine Simulation.stateless.walkAll (fun _ around p p' _ heq => ?_) hself _ _ _ hrun
  obtain rfl := heq
  intro v q v' hq
  have hnode : (Placed.visit (e.visit f scope s.plan) ⟨.paragraph p, around⟩).run v =
      .ok (⟨.paragraph q, around⟩, v') :=
    StateT.run_bind_eq_ok.2 ⟨q, v', hq, StateT.run_pure_eq_ok.2 ⟨rfl, rfl⟩⟩
  exact hvisit p q (Engine.run_visit Engine.views_dispatchStep hnode).1.2

/-- The visit fills the paragraphs that are not deferred. -/
theorem walkAll_eq_ok (h : s.Of e f scope doc) :
    Block.walkAll (fun _ p => if s.plan.deferred.contains p.id then Except.ok p
      else do return (← f.fillParagraph scope p).1) (e.prepared doc).body = .ok s.document.body := by
  have hfill : ∀ p q, (if s.plan.deferred.contains p.id then q = p
      else ∃ tally, f.fillParagraph scope p = .ok (q, tally)) →
      ∃ p', (if s.plan.deferred.contains p.id then Except.ok p
        else do return (← f.fillParagraph scope p).1) = .ok p' ∧ p' = q := by
    intro p q hq
    refine ⟨q, ?_, rfl⟩
    split at hq
    · next hdeferred => rw [if_pos hdeferred, hq]
    · next hdeferred =>
      obtain ⟨tally, hq⟩ := hq
      rw [if_neg hdeferred, hq]
      rfl
  obtain ⟨body, hbody, hrel⟩ := h.exists_walkAll _ hfill
  rw [hbody]
  exact congrArg Except.ok (List.forall₂_eq_eq_eq ▸ hrel.imp fun _ _ => Block.Related.eq)

/-- Blocks stay as they are if all their paragraphs are deferred. -/
theorem mem_subblocks (h : s.Of e f scope doc) {b : Block}
    (hb : b ∈ (e.prepared doc).body.flatMap Block.subblocks)
    (hdeferred : ∀ p ∈ b.paragraphs, p.id ∈ s.plan.deferred) :
    b ∈ s.document.body.flatMap Block.subblocks := by
  obtain ⟨body, hbody, hrel⟩ := h.exists_walkAll pure
    (R := fun p q => s.plan.deferred.contains p.id → q = p)
    fun p q hq => ⟨p, rfl, fun hp => by rwa [if_pos hp] at hq⟩
  rw [Block.walkAll_pure] at hbody
  obtain rfl := Except.ok.inj hbody
  obtain ⟨B, hB, hbB⟩ := List.mem_flatMap.1 hb
  obtain ⟨B', hB', hBB'⟩ := hrel.exists_of_mem_left hB
  exact List.mem_flatMap.2 ⟨B', hB', hBB'.mem_subblocks hbB fun p hp q hpq =>
    hpq (List.contains_iff_mem.2 (hdeferred p hp))⟩

/-! ## Repetitions only -/

/-- The repetitions of the plan, each with its slice. -/
theorem exists_repetitions (h : s.Of e f scope doc)
    (hcalls : ∀ entry ∈ s.plan.entries, ∃ items, Call.repeated? e.environment scope entry.2 = some items) :
    ∃ rs slices, s.moves = rs.map (fun r => ⟨.repetitions, .repeatBlocks r.1 r.2⟩) ∧
      List.Forall₂ Slice.IsOf slices rs ∧
      List.Forall₂ (fun entry slice => slice.Repeats e.environment scope (e.prepared doc) entry)
        s.plan.entries slices := by
  have hdispatches := h.dispatches
  rw [h.registry] at hdispatches
  have hrepeated : ∀ d ∈ s.plan.dispatches s.document.outline,
      ∃ items, Call.repeated? e.environment scope d.2 = some items :=
    fun d hd => hcalls (d.1.region, d.2) (h.map_dispatches ▸ List.mem_map_of_mem hd)
  obtain ⟨rs, hstate, hrs⟩ :=
    Engine.foldlM_dispatchStep_repeating hrepeated [] s.plan.skipped hdispatches
  have hdesks : s.visit.desks = .repeating rs := congrArg Prod.fst hstate
  have hentries : List.Forall₂ (fun (entry : Region × List Call) (r : Instruction × List Value) =>
      r.1.site.region = entry.1 ∧ Call.repeated? e.environment scope entry.2 = some r.2) s.plan.entries rs := by
    rw [← h.map_dispatches, List.forall₂_map_left_iff]
    exact hrs.imp fun d r hr => ⟨congrArg Site.region hr.1, hr.2⟩
  obtain ⟨slices, hslices, hof⟩ := hentries.exists_forall₂
    (S := fun entry slice => Slice.Repeats slice e.environment scope (e.prepared doc) entry)
    (T := fun r slice => Slice.IsOf slice r) fun entry hentry r hr => by
      obtain ⟨slice, hslice, hitems⟩ :=
        Document.exists_slice (h.accounts.entries entry hentry).1 r.2
      refine ⟨slice, ⟨hslice, hitems ▸ hr.2⟩, ⟨?_, ?_, hitems⟩⟩
      · rw [hr.1, hslice.ids]
      · rw [hr.1, hslice.layout]
  exact ⟨rs, slices, by rw [Stage.moves, hdesks, Desks.moves_repeating], hof.flip, hslices⟩

end Stage.Of

/-- The numbers of all nodes in the blocks of the region. -/
def Region.nodes (r : Region) (doc : Document) : List NodeId :=
  (r.attached doc).flatMap Block.ids

/-- The slices have the nodes of the regions that they are of. -/
theorem Slice.map_nodes_eq {env : Environment} {scope : Value} {doc : Document}
    {entries : List (Region × List Call)} {slices : List Slice}
    (h : List.Forall₂ (fun entry slice => slice.Repeats env scope doc entry) entries slices)
    (hnodup : (doc.outline.map Placed.id).Nodup) :
    slices.map nodes = entries.map fun entry => entry.1.nodes doc := by
  refine List.forall₂_eq_eq_eq ▸ List.forall₂_map_left_iff.2 (List.forall₂_map_right_iff.2
    (h.flip.imp fun slice entry hslice => ?_))
  rw [Region.nodes, hslice.attached_eq hnodup]
  rfl

/-- All comments of the plan repeat blocks, and no two of them have a node in common. -/
structure Plan.RepeatsOnly (plan : Plan) (env : Environment) (scope : Value) (doc : Document) :
    Prop where
  calls : ∀ entry ∈ plan.entries, (Call.repeated? env scope entry.2).isSome
  disjoint : plan.entries.Pairwise fun entry entry' =>
    ∀ id ∈ entry.1.nodes doc, id ∉ entry'.1.nodes doc

namespace Stage.Of

variable {s : Stage} {f : Filler} {e : Engine} {scope : Value} {doc : Document}
  {slices : List Slice}

section Slices

variable (h : s.Of e f scope doc)
  (hslices : List.Forall₂ (fun entry slice =>
    slice.Repeats e.environment scope (e.prepared doc) entry) s.plan.entries slices)

include h hslices

/-- The paragraphs left to the edits are those in slices. -/
theorem mem_deferred_iff {id : NodeId} :
    id ∈ s.plan.deferred ↔ id ∈ slices.flatMap Slice.paragraphIds := by
  have hnodup : ((e.prepared doc).outline.map Placed.id).Nodup := Engine.inOrder_prepared.nodup
  have hids : ∀ {entry : Region × List Call} {slice : Slice},
      slice.Covers (e.prepared doc) entry.1 →
      entry.1.paragraphIds (e.prepared doc) = slice.paragraphIds := by
    intro entry slice hslice
    rw [Region.paragraphIds, hslice.attached_eq hnodup, Slice.paragraphIds]
  rw [h.accounts.deferred, List.mem_flatMap]
  constructor
  · rintro ⟨entry, hentry, -, hid⟩
    obtain ⟨slice, hslice, hrepeats⟩ := hslices.exists_of_mem_left hentry
    exact ⟨slice, hslice, hids hrepeats.toCovers ▸ hid⟩
  · rintro ⟨slice, hslice, hid⟩
    obtain ⟨entry, hentry, hrepeats⟩ := hslices.exists_of_mem_right hslice
    refine ⟨entry, hentry, ?_, hids hrepeats.toCovers ▸ hid⟩
    obtain ⟨call, hcalls, hname, -⟩ := Call.exists_of_repeated? hrepeats.items
    rw [Plan.defers, hcalls, List.any_cons, hname]
    decide

/-- The slices are as they were after the visit. -/
theorem isIn_slice {slice : Slice} (hslice : slice ∈ slices) : slice.IsIn s.document := by
  obtain ⟨entry, -, hrepeats⟩ := hslices.exists_of_mem_right hslice
  constructor
  · obtain ⟨first, -, hfirst, -⟩ := hrepeats.ends
    rintro hnil
    rw [hnil] at hfirst
    cases hfirst
  · intro b hb
    obtain ⟨path, hpath⟩ := hrepeats.siblings
    refine h.mem_subblocks (Block.mem_subblocks_of_container? hpath
      (List.mem_append_left _ (List.mem_append_right _ hb))) fun p hp => ?_
    refine (h.mem_deferred_iff hslices).2 (List.mem_flatMap.2 ⟨slice, hslice, ?_⟩)
    exact List.mem_map_of_mem (List.mem_flatMap.2 ⟨b, hb, hp⟩)

end Slices

end Stage.Of

/-! ## Fillings -/

theorem Block.plain_mapParagraphs_keepAnchors (keep : CommentId → Bool) (b : Block) :
    (b.mapParagraphs fun p => p.keepAnchors keep).plain = b.plain := by
  refine (related_mapParagraphs (I := fun _ _ => True) (fun _ => trivial) (fun p => ?_) b).plain_eq
  rw [Paragraph.plain, Paragraph.plain, Paragraph.keepAnchors_keepAnchors_false]

theorem Document.map_plain_close (doc : Document) (settings : Settings) (keep : List CommentId) :
    (doc.close settings keep).body.map Block.plain = doc.body.map Block.plain := by
  rw [body_close, List.map_map]
  exact List.map_congr_left fun b _ => b.plain_mapParagraphs_keepAnchors _

namespace Engine

variable {e : Engine} {f : Filler} {scope : Value} {doc doc' : Document} {report : Report}
  {plan : Plan}

/-- In a document whose comments only repeat blocks, and have no node in common, the filling has
    the copies of every slice in its place, and all other paragraphs filled. -/
theorem repetition_law (hregistry : e.registry = .builtin)
    (hplan : Plan.ofDocument .builtin e.settings (e.prepared doc) = .ok plan)
    (hrepeats : plan.RepeatsOnly e.environment scope (e.prepared doc))
    (h : e.fill scope doc = .ok (doc', report)) :
    ∃ f slices body, e.filler = .ok f ∧
      List.Forall₂ (fun entry slice => slice.Repeats e.environment scope (e.prepared doc) entry)
        plan.entries slices ∧
      Slice.expand f scope slices (e.prepared doc).body = .ok body ∧
      doc'.body.map Block.plain = body.map Block.plain ∧
      report.blocksRepeated =
        UInt32.ofNat (slices.map fun s => s.items.length * s.template.length).sum := by
  rw [fill_eq] at h
  obtain ⟨f, hf, h⟩ := Except.bind_eq_ok.1 h
  obtain ⟨s, hs, d, hd, rfl, notes, rfl⟩ := exists_stage hregistry h
  obtain ⟨hplan', visited, hvisit, -⟩ := hs.exists_visitAll
  obtain rfl := Except.ok.inj (hplan'.symm.trans hplan)
  -- All moves are repetitions, one for each entry of the plan.
  obtain ⟨rs, slices, hmoves, hof, hslices⟩ := hs.exists_repetitions fun entry hentry =>
    Option.isSome_iff_exists.1 (hrepeats.calls entry hentry)
  have hdisjoint : slices.Pairwise fun s s' => s.nodes.Disjoint s'.nodes := by
    rw [← List.pairwise_map (f := Slice.nodes) (R := List.Disjoint),
      Slice.map_nodes_eq hslices inOrder_prepared.nodup, List.pairwise_map]
    exact hrepeats.disjoint.imp fun h id hid hid' => h id hid hid'
  rw [hmoves, List.forM_eq_forM, List.forM_map] at hd
  obtain ⟨placed, hplaced, hpasted⟩ := (Slice.pasted_nil hs.numbered).forM hs.numbered hof
    (fun slice hslice => hs.isIn_slice hslices hslice) (by simp) (by simpa using hdisjoint) hd
  have hmap : placed.map Prod.fst = slices := by simpa using hplaced
  -- What the visit defers are the paragraphs of the slices.
  have hwalk : Block.walkAll (fun _ p =>
      if p.id ∈ (placed.map Prod.fst).flatMap Slice.paragraphIds then Except.ok p
      else do return (← f.fillParagraph scope p).1) (e.prepared doc).body =
      .ok s.start.document.body := by
    rw [hmap, show s.start.document = s.document from rfl, ← hs.walkAll_eq_ok]
    refine Block.walkAll_congr fun _ p _ => ?_
    simp only [List.contains_iff_mem, hs.mem_deferred_iff hslices]
  obtain ⟨body, hexpand, hsimilar⟩ := hpasted.exists_expand hwalk
  refine ⟨f, slices, body, hf, hslices, hmap ▸ hexpand, ?_, ?_⟩
  · rw [Document.map_plain_close]
    exact Block.map_plain_eq_of_similar hsimilar
  · have hcount := hpasted.count
    have hnone : s.start.report.blocksRepeated = 0 :=
      report_visitAll (fun _ _ _ => rfl) (fun _ _ => rfl) (fun _ _ => rfl) (fun _ _ => rfl) hvisit
    rw [hnone, UInt32.zero_add] at hcount
    rw [← hmap, List.map_map]
    exact hcount

/-- A document with chapters that start in new sections, a list in a table, and a part that
    there is nothing for. -/
def book : Document where
  body := [.paragraph { content := [.run (.ofText "Contents")], style := { sectionBreak := some {} } },
    .paragraph { content := [.rangeStart 1, .run (.ofText "* $\x7btitle\x7d")] },
    .paragraph { content := [.run (.ofText "by $\x7bauthor\x7d"), .rangeEnd 1],
                 style := { sectionBreak := some {} } },
    .table { rows := [{ cells := [{ content :=
      [.paragraph { content := [.rangeStart 2, .run (.ofText "- $\x7bname\x7d"), .rangeEnd 2] },
        .paragraph { content := [.run (.ofText "$\x7bplace\x7d")] }] }] }] },
    .paragraph { content := [.rangeStart 3, .run (.ofText "P.S. $\x7btext\x7d"), .rangeEnd 3] }]
  comments := [.ofText 1 "repeatParagraph(chapters)", .ofText 2 "repeatParagraph(people)",
    .ofText 3 "repeatParagraph(postscript)"]

/-- What is filled in. -/
def bookData : Value :=
  .ofEntries [("place", .string "Delft"), ("postscript", .null),
    ("chapters", .list [.ofEntries [("title", .string "One"), ("author", .string "A")],
      .ofEntries [("title", .string "Two"), ("author", .string "B")]]),
    ("people", .list [.ofEntries [("name", .string "A")], .ofEntries [("name", .string "B")],
      .ofEntries [("name", .string "C")]])]

theorem repetition_law_book : ∃ plan doc' report,
    Plan.ofDocument .builtin {} (({} : Engine).prepared book) = .ok plan ∧
    plan.RepeatsOnly {} bookData (({} : Engine).prepared book) ∧
    ({} : Engine).fill bookData book = .ok (doc', report) ∧
    doc'.paragraphs.map (fun p => (p.text, p.endsSection)) =
      [("Contents", true), ("* One", false), ("by A", true), ("* Two", false), ("by B", true),
        ("- A", false), ("- B", false), ("- C", false), ("Delft", false)] ∧
    report.blocksRepeated = 7 ∧
    ∃ f slices body, ({} : Engine).filler = .ok f ∧
      List.Forall₂ (fun entry slice => slice.Repeats {} bookData (({} : Engine).prepared book) entry)
        plan.entries slices ∧
      Slice.expand f bookData slices (({} : Engine).prepared book).body = .ok body ∧
      doc'.body.map Block.plain = body.map Block.plain ∧
      report.blocksRepeated =
        UInt32.ofNat (slices.map fun s => s.items.length * s.template.length).sum := by
  have hplan : Plan.ofDocument .builtin {} (({} : Engine).prepared book) = .ok _ :=
    Except.eq_ok_get (by decide +kernel)
  have hfill : ({} : Engine).fill bookData book = .ok _ := Except.eq_ok_get (by decide +kernel)
  have hrepeats : ((Plan.ofDocument .builtin {} (({} : Engine).prepared book)).toOption.get
      (by decide +kernel)).RepeatsOnly {} bookData (({} : Engine).prepared book) :=
    ⟨by decide +kernel, by decide +kernel⟩
  exact ⟨_, _, _, hplan, hrepeats, hfill, by decide +kernel, by decide +kernel,
    repetition_law rfl hplan hrepeats hfill⟩

end Engine

end DocTemplate
