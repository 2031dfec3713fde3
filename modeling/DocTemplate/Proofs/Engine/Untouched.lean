import DocTemplate.Proofs.Directive.Untouched
import DocTemplate.Proofs.Engine.Residue

/-!
# Paragraphs that a filling leaves alone

A paragraph at the top of a document is untouched if it has no placeholder, no comment starts or
ends in it, and no comment repeats it. Whatever is removed, repeated, replaced or filled around
it, it comes out as it went in, once, and such paragraphs keep their order.

The visit has nothing to fill in it. A move is about a paragraph in which a comment starts, or
about a table, or about the blocks that a comment repeats. The removal of comments takes anchors
out of paragraphs that have some.

* `Engine.Repeats`: the comments that repeat a paragraph;
* `Stage.Of.retains_document`, `Stage.Of.spares`: the visit and the moves;
* `Engine.fill_untouched`: the filling.
-/

namespace DocTemplate

namespace Engine

/-- A comment that is interpreted repeats the paragraph with the number: its directive leaves the
    placeholders in its region to the edit, its arguments have values, and the paragraph is in
    the region. -/
def Repeats (e : Engine) (scope : Value) (doc : Document) (id : NodeId) : Prop :=
  ∃ plan, Plan.ofDocument e.registry e.settings (e.prepared doc) = .ok plan ∧
    ∃ entry ∈ plan.entries, Plan.defers e.registry entry ∧
      id ∈ entry.1.paragraphIds (e.prepared doc) ∧
        ∃ site is, site.region = entry.1 ∧
          Call.instructions e.environment e.settings scope site entry.2 = .ok (some is)

/-- A paragraph without placeholders and anchors, which no comment repeats. -/
structure Untouched (e : Engine) (scope : Value) (doc : Document) (p : Paragraph) : Prop where
  scan (delimiters : Delimiters) :
    Delimiters.make e.settings.opening e.settings.closing = .ok delimiters →
      delimiters.scan p.text = []
  anchors : ∀ item ∈ p.content, item.commentId? = none
  repeats : ¬ e.Repeats scope doc p.id

variable {e : Engine} {scope : Value} {doc : Document}

/-- The placeholders of a repeated paragraph are left to the edit. -/
theorem Repeats.mem_deferred {id : NodeId} (h : e.Repeats scope doc id) {plan : Plan}
    (hplan : Plan.ofDocument e.registry e.settings (e.prepared doc) = .ok plan) :
    id ∈ plan.deferred := by
  obtain ⟨plan', hplan', entry, hentry, hdefers, hid, -⟩ := h
  obtain rfl := Except.ok.inj (hplan'.symm.trans hplan)
  exact ((Plan.accounts_ofDocument hplan).deferred id).2 ⟨entry, hentry, hdefers, hid⟩

/-- Without the passes before a filling, the document that is visited is the numbered one. -/
theorem prepared_eq_assignIds (hmerge : e.settings.mergeRuns = false)
    (hstrip : e.settings.stripLanguage = false) : e.prepared doc = doc.assignIds := by
  simp [prepared, Document.prepare, hmerge, hstrip]

end Engine

/-! ## The visit and the removal of comments -/

/-- The removal of comments changes no paragraph without anchors. -/
theorem Document.Retains.close {doc : Document} {settings : Settings} {keep : List CommentId}
    {ps : List Paragraph} (h : doc.Retains ps)
    (hanchors : ∀ p ∈ ps, ∀ item ∈ p.content, item.commentId? = none) :
    (doc.close settings keep).Retains ps := by
  have hid : ∀ x : Placed,
      (x.mapParagraph fun p => p.keepAnchors keep.contains).id = x.id := by
    rintro ⟨p | id | id, around⟩ <;> rfl
  have hfilter : ((doc.close settings keep).outline.filter fun x => x.id ∈ ps.map Paragraph.id) =
      (ps.map Placed.top).map (Placed.mapParagraph fun p => p.keepAnchors keep.contains) := by
    rw [outline_close, List.filter_map, ← h]
    exact congrArg _ (List.filter_congr fun x _ => by rw [Function.comp, hid])
  rw [Retains, hfilter, List.map_map]
  refine List.map_congr_left fun p hp => ?_
  exact congrArg Placed.top (Paragraph.keepAnchors_eq_self (hanchors p hp) _)

namespace Stage.Of

variable {s : Stage} {e : Engine} {f : Filler} {scope : Value} {doc : Document}
  {ps : List Paragraph} (h : s.Of e f scope doc)

include h

/-- The visit leaves paragraphs without placeholders as they are. -/
theorem retains_document (hl : ∀ l ∈ f.settings.lineBreak, l = "")
    (hscan : ∀ p ∈ ps, f.delimiters.scan p.text = []) (hr : (e.prepared doc).Retains ps) :
    s.document.Retains ps := by
  have hvisited : List.Forall₂ (fun x y => x ∈ (e.prepared doc).outline ∧
      x.Visited f scope s.plan.deferred y) (e.prepared doc).outline s.document.outline :=
    h.visited.imp_of_mem fun x hx y hy => ⟨hx, hy⟩
  rw [Document.Retains, ← hr]
  refine hvisited.filter_eq (fun x y hxy => by rw [hxy.2.becomes.id_eq]) fun x y hxy hid => ?_
  obtain ⟨p, hp, rfl⟩ := hr.exists_of_mem hxy.1 (of_decide_eq_true hid)
  obtain ⟨⟨node, around⟩, haround, hnode⟩ := y, hxy.2
  cases haround
  cases node with
  | paragraph q =>
    dsimp only [Placed.top] at hnode
    split at hnode
    · rw [hnode, Placed.top]
    · obtain ⟨tally, hfill⟩ := hnode
      rw [Filler.eq_of_fillParagraph hl (hscan p hp) hfill, Placed.top]
  | _ => cases hnode

/-! ## The moves -/

/-- The paragraph in which a comment starts has an anchor, and what is around it is a table. -/
theorem not_mem_of_gives (hanchors : ∀ p ∈ ps, ∀ item ∈ p.content, item.commentId? = none)
    (hr : (e.prepared doc).Retains ps) (hr' : s.document.Retains ps) {i : Instruction}
    (hi : s.Gives i) :
    i.site.paragraph ∉ ps.map Paragraph.id ∧
      ∀ position ∈ i.site.cell, position.table ∉ ps.map Paragraph.id := by
  obtain ⟨calls, hentry, -⟩ := hi.entry
  obtain ⟨p, around, hp, hstart, hsite, hcell⟩ := hi.paragraph
  constructor
  · intro hid
    obtain ⟨-, ⟨q, hq, hanchor, hq'⟩, -⟩ := Document.region_spec (h.accounts.entries _ hentry).1
    obtain ⟨around', hq⟩ := Document.mem_paragraphs_iff_outline.1 hq
    have hqid : q.id ∈ ps.map Paragraph.id := by rwa [← hq', hstart, ← hsite]
    obtain ⟨q', hmem, heq⟩ := hr.exists_of_mem hq hqid
    cases heq
    cases hanchors _ hmem _ hanchor
  · intro position hposition
    rw [hcell] at hposition
    obtain ⟨a, htable⟩ := Document.exists_table_of_around hp (List.mem_of_mem_head? hposition)
    exact hr'.not_mem_of_table htable

/-- The moves are not about untouched paragraphs. -/
theorem spares (huntouched : ∀ p ∈ ps, e.Untouched scope doc p)
    (hr : (e.prepared doc).Retains ps) (hr' : s.document.Retains ps) {m : Move}
    (hm : m ∈ s.moves) : m.edit.Spares (ps.map Paragraph.id) := by
  obtain ⟨handler, i, hhandler, ⟨hi, calls, is, hentry, his, hmem⟩, hname, haccept⟩ :=
    h.traces_instructions.exists_of_mem_moves hm
  obtain ⟨hparagraph, hcell⟩ :=
    h.not_mem_of_gives (fun p hp => (huntouched p hp).anchors) hr hr' hi
  refine Edit.spares_of_accept (List.mem_of_getElem? hhandler) haccept hparagraph hcell ?_
  -- A block that is repeated would be such a paragraph itself.
  rintro rfl id hid hmemId
  obtain ⟨p, hp, rfl⟩ := List.mem_map.1 hmemId
  refine (huntouched p hp).repeats ⟨s.plan, ?_, _, hentry, ?_, ?_, i.site, is, rfl, his⟩
  · rw [h.registry]
    exact h.exists_visitAll.1
  · obtain ⟨hnames, -⟩ := Call.map_instructions his
    obtain ⟨call, hcall, hcallName⟩ := List.mem_map.1 (hnames ▸ List.mem_map_of_mem hmem)
    refine List.any_eq_true.2 ⟨call, hcall, ?_⟩
    rw [h.registry, hcallName, Registry.defers_builtin_iff]
    simpa [Handler.names, Handler.repetition] using hname
  · exact (Region.mem_paragraphIds_iff h.nodup_prepared (h.blocks hentry)).2
      ⟨p, [], hr.mem hp, rfl, p.id, hid, .inl rfl⟩

/-- So after all moves, untouched paragraphs are where and as they were. -/
theorem retains_of_yields (hl : ∀ l ∈ f.settings.lineBreak, l = "")
    (hscan : ∀ p ∈ ps, f.delimiters.scan p.text = [])
    (huntouched : ∀ p ∈ ps, e.Untouched scope doc p) (hr : (e.prepared doc).Retains ps)
    {d : Draft} (hd : (s.moves.forM (Move.perform f)).Yields s.start () d) :
    d.document.Retains ps := by
  have hr' : s.document.Retains ps := h.retains_document hl hscan hr
  have hids : ∀ p ∈ ps, 0 < p.id ∧ p.id ≤ s.document.lastId := fun p hp =>
    h.id_prepared (hr.mem hp)
  refine (Revision.forM_induction (P := fun d : Draft =>
    s.document.lastId ≤ d.document.lastId ∧ d.document.Retains ps) (fun m d₁ d₂ hm hd₁ hstep => ?_)
    ⟨Nat.le_refl _, hr'⟩ hd).2
  have hdescends : d₁.document.Descends (Paragraph.Edited fun _ => True) d₁.document.lastId
      d₂.document := Move.descends (Nat.le_refl _) (fun _ _ _ _ _ => trivial) hstep
  refine ⟨Nat.le_trans hd₁.1 hdescends.lastId_le, ?_⟩
  exact Move.retains (h.spares huntouched hr hr' hm.mem)
    (fun p hp => ⟨(hids p hp).1, Nat.le_trans (hids p hp).2 hd₁.1⟩) hd₁.2 hstep

end Stage.Of

/-! ## The filling -/

namespace Engine

variable {e : Engine} {scope : Value} {doc doc' : Document} {report : Report}

/-- With the built-in directives, without the passes that clean up first and without a literal for
    line breaks, any untouched paragraphs at the top of a document come out of a filling as they
    are: each once, at the top, and in their order. They are paragraphs at the top of the document
    given, with numbers. -/
theorem fill_untouched (hregistry : e.registry = .builtin) (hmerge : e.settings.mergeRuns = false)
    (hstrip : e.settings.stripLanguage = false) (hl : ∀ l ∈ e.settings.lineBreak, l = "")
    {ps : List Paragraph} (hps : ps.Sublist doc.assignIds.topParagraphs)
    (huntouched : ∀ p ∈ ps, e.Untouched scope doc p)
    (h : e.fill scope doc = .ok (doc', report)) :
    (ps.map Paragraph.unnumbered).Sublist (doc.topParagraphs.map Paragraph.unnumbered) ∧
      (doc'.topParagraphs.filter fun q => q.id ∈ ps.map Paragraph.id) = ps ∧
        (doc'.paragraphs.filter fun q => q.id ∈ ps.map Paragraph.id) = ps := by
  rw [fill_eq] at h
  obtain ⟨f, hf, h⟩ := Except.bind_eq_ok.1 h
  obtain ⟨s, hs, d, hd, rfl, -⟩ := exists_stage hregistry h
  have hr : (e.prepared doc).Retains ps := by
    rw [prepared_eq_assignIds hmerge hstrip]
    exact Document.retains_of_sublist doc.nodup_outline_assignIds hps
  have hretains : d.document.Retains ps := by
    refine hs.retains_of_yields ?_ (fun p hp => ?_) huntouched hr hd
    · rw [settings_filler hf]
      exact hl
    · exact (huntouched p hp).scan _ (delimiters_filler hf)
  have hclose : (d.document.close e.settings s.visit.skipped).Retains ps :=
    hretains.close fun p hp => (huntouched p hp).anchors
  refine ⟨?_, hclose.filter_topParagraphs, hclose.filter_paragraphs⟩
  rw [← doc.topParagraphs_assignIds]
  exact hps.map _

/-- An engine that does not clean up. -/
def plainEngine : Engine where
  settings := { mergeRuns := false, stripLanguage := false, removeOrphanNotes := false }

/-- An offer with a notice to be removed, whose comment reaches over the next paragraphs, a list
    and a table. -/
def offer : Document where
  body := [.paragraph { content := [.run (.ofText "Preface")] },
    .paragraph { content := [.rangeStart 1, .run (.ofText "Draft")] },
    .paragraph { content := [.run (.ofText "General")] },
    .paragraph { content := [.run (.ofText "Terms of $\x7byear\x7d"), .rangeEnd 1] },
    .paragraph { content := [.rangeStart 2, .run (.ofText "* $\x7bitem\x7d"), .rangeEnd 2] },
    .table { rows := [
      ⟨0, [.ofParagraph { content := [.rangeStart 3, .run (.ofText "head"), .rangeEnd 3] }]⟩,
      ⟨0, [.ofParagraph { content := [.run (.ofText "cell")] }]⟩] },
    .paragraph { content := [.run (.ofText "General")] }]
  comments := [.ofText 1 "displayParagraphIf(draft)", .ofText 2 "repeatParagraph(list)",
    .ofText 3 "resolveTable(grid)"]

/-- What is filled in. -/
def offerData : Value :=
  .ofEntries [("draft", .bool false), ("year", .int 2024),
    ("list", .list [.ofEntries [("item", .string "tea")], .ofEntries [("item", .string "milk")]]),
    ("grid", .table ⟨["Price"], [["2"], ["3"]]⟩)]

/-- The paragraphs of the offer that are untouched. -/
def offerUntouched : List Paragraph :=
  offer.assignIds.topParagraphs.filter fun p => p.text ∈ ["Preface", "General"]

/-- The offer that is filled in, and the report. -/
def filledOffer : Document × Report :=
  (plainEngine.fill offerData offer).toOption.get (by decide +kernel)

/-- The plan for the offer. -/
def offerPlan : Plan :=
  (Plan.ofDocument .builtin plainEngine.settings (plainEngine.prepared offer)).toOption.get
    (by decide +kernel)

theorem untouched_offer : ∀ p ∈ offerUntouched, plainEngine.Untouched offerData offer p := by
  have hplan : Plan.ofDocument .builtin plainEngine.settings (plainEngine.prepared offer) =
      .ok offerPlan := Except.eq_ok_get _
  have hdelimiters : Delimiters.make plainEngine.settings.opening plainEngine.settings.closing =
      .ok .standard := by rfl
  have hscan : ∀ p ∈ offerUntouched, Delimiters.standard.scan p.text = [] := by decide +kernel
  have hanchors : ∀ p ∈ offerUntouched, ∀ item ∈ p.content, item.commentId? = none := by
    decide +kernel
  have hdeferred : ∀ p ∈ offerUntouched, p.id ∉ offerPlan.deferred := by decide +kernel
  intro p hp
  refine ⟨fun delimiters h => ?_, hanchors p hp, fun h => hdeferred p hp (h.mem_deferred hplan)⟩
  obtain rfl := Except.ok.inj (hdelimiters.symm.trans h)
  exact hscan p hp

theorem fill_untouched_offer :
    offerUntouched.map Paragraph.text = ["Preface", "General", "General"] ∧
      filledOffer.1.topParagraphs.map Paragraph.text =
        ["Preface", "General", "Terms of 2024", "* tea", "* milk", "General"] ∧
      (filledOffer.1.topParagraphs.filter fun q => q.id ∈ offerUntouched.map Paragraph.id) =
        offerUntouched := by
  have h : plainEngine.fill offerData offer = .ok filledOffer := Except.eq_ok_get _
  obtain ⟨-, hfilter, -⟩ := fill_untouched rfl rfl rfl (by simp [plainEngine])
    List.filter_sublist untouched_offer h
  exact ⟨by decide +kernel, by decide +kernel, hfilter⟩

end Engine

end DocTemplate
