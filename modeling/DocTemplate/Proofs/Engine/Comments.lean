import DocTemplate.Proofs.Engine.Stage

/-!
# What becomes of comments

A comment of a reviewer should not get lost in a filling. Of every comment that is no
reply and starts in the body, there is one of these to say (`Stage.Fate`):

* it was skipped, and is there, with its anchors in the paragraphs that are left, unless
  the table of such a paragraph was filled;
* it was dispatched, with all its instructions carried out, and is gone;
* it started in the region of a repetition, and so is gone with its paragraph: the copies
  have taken its place, or another edit had removed it before;
* it started in the region of a comment to repeat it, which was skipped itself. The plan
  leaves such a comment out, and nothing is said of it.

The fate of a comment is decided in three places: the plan, which leaves comments out
(`Plan.Accounts`), the visit, which dispatches or skips the others
(`Engine.Dispatched`), and the removal of all but those skipped (`Document.close`).

* `Stage.Of.anchorsOf_eq`: the anchors in the paragraphs that are left;
* `Stage.Of.exists_reaches_repetition`: the paragraphs in the region of a repetition;
* `Engine.fate_of_fill`: the fate of every comment.
-/

namespace DocTemplate

/-- A comment with a start in the body has a region there. -/
theorem Engine.exists_region {e : Engine} {doc : Document} {p : Paragraph}
    (hp : p ∈ doc.assignIds.paragraphs) {c : Comment} (hstart : .rangeStart c.id ∈ p.content)
    (hc : doc.comment? c.id = some c) :
    ∃ r ∈ (e.prepared doc).regions, r.id = c.id ∧ r.parent = c.parent ∧ r.start = p.id := by
  have htidied := doc.assignIds.tidied_prepare e.settings
  obtain ⟨around, hp⟩ := Document.mem_paragraphs_iff_outline.1 hp
  obtain ⟨q, hq, hpq⟩ := htidied.exists_paragraph hp
  have hstart' : .rangeStart c.id ∈ q.anchors := by
    rw [hpq.anchors]
    exact List.mem_filter.2 ⟨hstart, rfl⟩
  obtain ⟨path, hplaced⟩ :=
    Document.mem_paragraphs_iff.1 (Document.mem_paragraphs_iff_outline.2 ⟨around, hq⟩)
  have hc' : (e.prepared doc).comment? c.id = some c := by
    rw [Document.comment?, prepared, htidied.comments]
    exact hc
  obtain ⟨r, hr, hid, -, hparent, hrstart⟩ :=
    Document.exists_region hplaced (List.mem_filter.1 hstart').1 hc'
  exact ⟨r, hr, hid, hparent, hrstart.trans hpq.id⟩

namespace Stage

/-- The instruction is carried out: what its handler has made of it is a move. -/
def Applies (s : Stage) (f : Filler) (settings : Settings) (i : Instruction) : Prop :=
  ∃ (pass : Pass) (handler : Handler), Registry.builtin.handlers[pass.desk]? = some handler ∧
    handler.names.contains i.name.toString ∧
      ∃ edit, handler.accept settings i = .ok edit ∧ ∀ x ∈ edit, ∃ d, s.Reaches f ⟨pass, x⟩ d

/-- What has become, in the document `doc'` that a filling gives, of a comment `c` that is
    no reply and starts in the paragraph `start`. -/
inductive Fate (s : Stage) (e : Engine) (f : Filler) (scope : Value) (doc doc' : Document)
    (c : Comment) (start : NodeId) : Prop
  /-- It was skipped, and it is there with its anchors in the paragraphs that are left,
      unless these are in cells of a table that was filled. -/
  | kept (hskipped : c.id ∈ s.visit.skipped) (hthere : c ∈ doc'.comments)
      (hanchors : ∀ p around, ⟨.paragraph p, around⟩ ∈ doc.assignIds.outline →
        ∀ q ∈ doc'.paragraphs, q.id = p.id → q.anchorsOf c.id = p.anchorsOf c.id ∨
          ∃ position, around.head? = some position ∧ s.Fills f position.table)
  /-- All its instructions were carried out, and it is gone. -/
  | dispatched (site : Site) (calls : List Call) (is : List Instruction)
      (hentry : (site.region, calls) ∈ s.plan.entries) (hid : site.region.id = c.id)
      (hstart : site.region.start = start)
      (his : Call.instructions e.environment e.settings scope site calls = .ok (some is))
      (happlied : ∀ i ∈ is, s.Applies f e.settings i) (hgone : c ∉ doc'.comments)
      (hanchors : ∀ q ∈ doc'.paragraphs, q.anchorsOf c.id = [])
  /-- It started in the region of a repetition, and the paragraph is gone: with the
      template of the repetition, or before. -/
  | replaced (i : Instruction) (items : List Value) (d : Draft)
      (hreaches : s.Reaches f ⟨.repetitions, .repeatBlocks i items⟩ d)
      (hregion : start ∈ i.site.region.paragraphIds (e.prepared doc))
      (htemplate : start ∈ i.site.region.paragraphIds d.document ∨ d.document.locate? start = none)
      (hgone : doc'.locate? start = none)
  /-- It started in the region of a comment to repeat it that was skipped itself. -/
  | leftOut (site : Site) (calls : List Call) (hentry : (site.region, calls) ∈ s.plan.entries)
      (hdefers : Plan.defers .builtin (site.region, calls))
      (hregion : start ∈ site.region.paragraphIds (e.prepared doc))
      (hskipped : Call.instructions e.environment e.settings scope site calls = .ok none)

variable {s : Stage} {e : Engine} {f : Filler} {scope : Value} {doc doc' : Document} {d : Draft}

namespace Of

variable (h : s.Of e f scope doc)

include h

/-- What a desk has taken is carried out. -/
theorem applies_of_holds (hd : (s.moves.forM (Move.perform f)).Yields s.start () d)
    {i : Instruction} (hi : s.visit.desks.Holds e.settings i) : s.Applies f e.settings i := by
  obtain ⟨pass, handler, hhandler, hname, edit, haccept, hmoves⟩ := hi.exists_moves h.traces.handlers
  refine ⟨pass, handler, hhandler, hname, edit, haccept, fun x hx => ?_⟩
  obtain ⟨before, after, d₁, d₂, happend, hbefore, -, -⟩ := Revision.exists_reaches hd (hmoves x hx)
  exact ⟨d₁, before, after, happend, hbefore⟩

/-- A paragraph that is left is at its place. -/
theorem exists_paragraph {R : List CellPosition → Paragraph → Paragraph → Prop}
    (hdescends : s.document.Descends R s.document.lastId doc') {p : Paragraph}
    {around : List CellPosition} (hp : ⟨.paragraph p, around⟩ ∈ (e.prepared doc).outline)
    {x : Placed} (hx : x ∈ doc'.outline) (hid : x.id = p.id) :
    ∃ p' q, p.Refilled p' ∧ R around p' q ∧ x = ⟨.paragraph q, around⟩ := by
  have horiginal : (⟨.paragraph p, around⟩ : Placed).isOriginal s.document.lastId :=
    Placed.isOriginal_iff.2 (h.id_prepared hp)
  obtain ⟨y, hy, hbecomes⟩ := hdescends.nodes.mem x hx (by rw [Placed.isOriginal, hid]; exact horiginal)
  obtain ⟨z, hz, hbecomes'⟩ := h.becomes.exists_of_mem_right hy
  obtain rfl := Placed.eq_of_id_eq h.nodup_prepared hp hz horiginal
    (hbecomes'.id_eq.symm.trans (hbecomes.id_eq.symm.trans hid))
  cases hbecomes' with
  | paragraph _ hrefilled =>
    cases hbecomes with
    | paragraph _ hR => exact ⟨_, _, hrefilled, hR, rfl⟩

/-- Where a paragraph is left, it has the anchors of every comment that it had, unless it
    is in a cell of a table that was filled. -/
theorem anchorsOf_eq (hd : (s.moves.forM (Move.perform f)).Yields s.start () d) {p q : Paragraph}
    {around : List CellPosition} (hp : ⟨.paragraph p, around⟩ ∈ doc.assignIds.outline)
    (hq : q ∈ d.document.paragraphs) (hid : q.id = p.id) (id : CommentId) :
    q.anchorsOf id = p.anchorsOf id ∨
      ∃ position, around.head? = some position ∧ s.Fills f position.table := by
  obtain ⟨p₀, hp₀, htidied⟩ := (doc.assignIds.tidied_prepare e.settings).exists_paragraph hp
  obtain ⟨around', hq⟩ := Document.mem_paragraphs_iff_outline.1 hq
  obtain ⟨p', q', hrefilled, hedited, heq⟩ :=
    h.exists_paragraph (descends_of_yields hd) hp₀ hq (hid.trans htidied.id.symm)
  cases heq
  rcases hedited with hnonRuns | ⟨-, hfilled⟩
  · refine .inl (Paragraph.anchorsOf_congr ?_)
    rw [← htidied.anchors, Paragraph.anchors_eq_filter_nonRunsOf,
      Paragraph.anchors_eq_filter_nonRunsOf, hnonRuns, hrefilled.2.2]
  · exact .inr hfilled

/-- The paragraphs in the region of a repetition are in its template, unless they are gone
    already; and they are gone in the end. -/
theorem exists_reaches_repetition (hd : (s.moves.forM (Move.perform f)).Yields s.start () d)
    {i : Instruction} {items : List Value}
    (hm : ⟨.repetitions, .repeatBlocks i items⟩ ∈ s.moves) {start : NodeId}
    (hstart : start ∈ i.site.region.paragraphIds (e.prepared doc)) :
    ∃ d', s.Reaches f ⟨.repetitions, .repeatBlocks i items⟩ d' ∧
      (start ∈ i.site.region.paragraphIds d'.document ∨ d'.document.locate? start = none) ∧
      d.document.locate? start = none := by
  obtain ⟨calls, hentry, -⟩ := h.exists_entry hm
  obtain ⟨p, around, hp, rfl, block, hblock, hunder⟩ :=
    (Region.mem_paragraphIds_iff h.nodup_prepared (h.blocks hentry)).1 hstart
  obtain ⟨hpos, hle⟩ := h.blocks hentry block hblock
  obtain ⟨before, after, d₁, d₂, hmoves, hbefore, hstep, hafter⟩ := Revision.exists_reaches hd hm
  have hr : s.Reaches f ⟨.repetitions, .repeatBlocks i items⟩ d₁ := ⟨before, after, hmoves, hbefore⟩
  have hdescends := descends_of_reaches hr
  have hnodup := hdescends.nodup_originalIds h.nodup_originalIds
  refine ⟨d₁, hr, ?_, ?_⟩
  · by_cases hthere : d₁.document.locate? p.id = none
    · exact .inr hthere
    · rw [Document.locate?_eq_none_iff] at hthere
      push Not at hthere
      obtain ⟨x, hx, -, hid⟩ := hthere
      obtain ⟨p', q, -, -, rfl⟩ := h.exists_paragraph hdescends hp hx hid
      exact .inl ((Region.mem_paragraphIds_iff hnodup (h.blocks hentry)).2
        ⟨q, around, hx, hid, block, hblock, hunder.of_eq hid rfl⟩)
  · -- The block that the paragraph is, or is in, is gone, and so is the paragraph.
    have hgone : d.document.locate? block = none :=
      (Move.descends_forM (descends_perform hr hdescends hstep).lastId_le hafter).locate?_eq_none
        hpos hle (Repetition.locate?_eq_none hdescends.lastId_le hnodup hstep hblock hpos hle)
    rw [Document.locate?_eq_none_iff]
    intro x hx _ hid
    obtain ⟨p', q, -, -, rfl⟩ := h.exists_paragraph (descends_of_yields hd) hp hx hid
    exact Document.not_isUnder hgone hx rfl (hunder.of_eq hid rfl)

/-- A comment with a start in the body has one of the fates. -/
theorem fate (hd : (s.moves.forM (Move.perform f)).Yields s.start () d) {p : Paragraph}
    (hp : p ∈ doc.assignIds.paragraphs) {c : Comment} (hstart : .rangeStart c.id ∈ p.content)
    (hc : doc.comment? c.id = some c) (hparent : c.parent = none) :
    s.Fate e f scope doc (d.document.close e.settings s.visit.skipped) c p.id := by
  have hthere : c ∈ (d.document.close e.settings s.visit.skipped).comments ↔
      c ∈ d.document.comments ∧ c.id ∈ s.visit.skipped := Document.mem_comments_close_iff hparent
  by_cases hskipped : c.id ∈ s.visit.skipped
  · refine .kept hskipped (hthere.2 ⟨?_, hskipped⟩) fun p around hp q hq hid => ?_
    · rw [(descends_of_yields hd).comments, h.comments]
      exact (Document.comment?_eq_some hc).1
    · obtain ⟨q', hq', hid', hanchors⟩ := Document.exists_of_mem_paragraphs_close hq
      rw [hanchors, if_pos hskipped]
      exact h.anchorsOf_eq hd hp hq' (hid'.symm.trans hid) c.id
  obtain ⟨r, hr, hid, hparent', hrstart⟩ := Engine.exists_region (e := e) hp hstart hc
  rcases h.accounts.regions r hr (hparent'.trans hparent) with ⟨calls, hentry⟩ | hplan | hdeferred
  · -- It has an entry, so it was dispatched, and not skipped.
    obtain ⟨q, around, -, -, hdispatched⟩ := h.exists_dispatch hentry
    rcases hdispatched with ⟨-, hin⟩ | ⟨is, his, hholds⟩
    · exact absurd (hid ▸ hin) hskipped
    · refine .dispatched _ calls is hentry hid hrstart his
        (fun i hi => h.applies_of_holds hd (hholds i hi))
        (fun hleft => hskipped (hthere.1 hleft).2) fun q hq => ?_
      obtain ⟨q', -, -, hanchors⟩ := Document.exists_of_mem_paragraphs_close hq
      rw [hanchors, if_neg hskipped]
  · exact absurd (h.skipped_subset (hid ▸ hplan)) hskipped
  · -- It has none because of an earlier entry, which leaves the paragraph to a repetition.
    obtain ⟨entry, hentry, hdefers, hregion⟩ := (h.accounts.deferred _).1 hdeferred
    rw [hrstart] at hregion
    obtain ⟨q, around, -, -, hdispatched⟩ := h.exists_dispatch hentry
    rcases hdispatched with ⟨hnone, -⟩ | ⟨is, his, hholds⟩
    · exact .leftOut _ _ hentry hdefers hregion hnone
    · obtain ⟨i, items, hsite, hm⟩ := h.exists_repetition hdefers rfl his hholds
      rw [← hsite] at hregion
      obtain ⟨d', hreaches, htemplate, hgone⟩ := h.exists_reaches_repetition hd hm hregion
      exact .replaced i items d' hreaches hregion htemplate (Document.locate?_close_eq_none hgone)

end Of

end Stage

namespace Engine

variable {e : Engine} {scope : Value} {doc doc' : Document} {report : Report}

/-- After a filling that succeeds, every comment that is no reply and has a start in the
    body has one of the fates. -/
theorem fate_of_fill (hregistry : e.registry = .builtin)
    (h : e.fill scope doc = .ok (doc', report)) :
    ∃ (f : Filler) (s : Stage), e.filler = .ok f ∧ s.Of e f scope doc ∧
      ∀ p ∈ doc.assignIds.paragraphs, ∀ c : Comment, .rangeStart c.id ∈ p.content →
        doc.comment? c.id = some c → c.parent = none → s.Fate e f scope doc doc' c p.id := by
  rw [fill_eq] at h
  obtain ⟨f, hf, h⟩ := Except.bind_eq_ok.1 h
  obtain ⟨s, hs, d, hd, rfl, -⟩ := exists_stage hregistry h
  exact ⟨f, s, hf, hs, fun p hp c hstart hc hparent => hs.fate hd hp hstart hc hparent⟩

/-- An engine that skips comments without directives. -/
def lenient : Engine where
  settings := { lenientDirectives := true }

/-- A paragraph with a remark on it and a comment to show it. -/
def review : Document where
  body := [.paragraph { content := [.rangeStart 1, .rangeStart 2, .run (.ofText "text"), .rangeEnd 2,
    .rangeEnd 1] }]
  comments := [.ofText 1 "Looks good", .ofText 2 "displayParagraphIf(true)"]

/-- The document that is left of it, and the report. -/
def filledReview : Document × Report :=
  (lenient.fill .null review).toOption.get (by decide +kernel)

theorem fate_review :
    ∃ (f : Filler) (s : Stage), lenient.filler = .ok f ∧ s.Of lenient f .null review ∧
      ∀ c ∈ review.comments, s.Fate lenient f .null review filledReview.1 c 1 := by
  have h : lenient.fill .null review = .ok filledReview :=
    Except.eq_ok_get _
  obtain ⟨f, s, hf, hs, hfate⟩ := fate_of_fill rfl h
  have hp : review.assignIds.paragraphs.head (by decide +kernel) ∈ review.assignIds.paragraphs :=
    List.head_mem _
  have hall : ∀ c ∈ review.comments, .rangeStart c.id ∈
      (review.assignIds.paragraphs.head (by decide +kernel)).content ∧
        review.comment? c.id = some c ∧ c.parent = none := by decide +kernel
  exact ⟨f, s, hf, hs, fun c hc => hfate _ hp c (hall c hc).1 (hall c hc).2.1 (hall c hc).2.2⟩

end Engine

namespace Stage

/-! ### Comments that are lost -/

/-- What one may expect of a comment that starts in a paragraph: it was dispatched and is
    gone, it is there with its anchors in all paragraphs that are left, or the paragraph was
    in the template of a repetition. -/
def Settled (s : Stage) (f : Filler) (doc doc' : Document) (c : Comment) (start : NodeId) : Prop :=
  ((∃ entry ∈ s.plan.entries, entry.1.id = c.id) ∧ c ∉ doc'.comments) ∨
    (c ∈ doc'.comments ∧ ∀ p ∈ doc.assignIds.paragraphs, ∀ q ∈ doc'.paragraphs, q.id = p.id →
      q.anchorsOf c.id = p.anchorsOf c.id) ∨
    ∃ i items d, s.Reaches f ⟨.repetitions, .repeatBlocks i items⟩ d ∧
      start ∈ i.site.region.paragraphIds d.document

/-- The comment is not, after the filling of a document. -/
def Unsettled (e : Engine) (f : Filler) (scope : Value) (doc : Document) (c : Comment)
    (start : NodeId) : Prop :=
  e.filler = .ok f ∧ ∃ (s : Stage) (outcome : Document × Report), s.Of e f scope doc ∧
    e.fill scope doc = .ok outcome ∧ ¬ s.Settled f doc outcome.1 c start

/-- A comment in the region of one that removes the paragraph before repeating it. -/
def hiddenList : Document where
  body := [.paragraph { content := [.rangeStart 1, .rangeStart 2, .run (.ofText "text"), .rangeEnd 2,
    .rangeEnd 1] }, .paragraph { content := [.run (.ofText "rest")] }]
  comments := [.ofText 1 "displayParagraphIf(false) repeatParagraph(items)",
    .ofText 2 "displayParagraphIf(true)"]

/-- One item. -/
def oneItem : Value :=
  .ofEntries [("items", .list [.int 1])]

/-- The stage of its filling. -/
def stageOfHiddenList : Stage :=
  (({} : Engine).stage .standard oneItem hiddenList).toOption.get (by decide +kernel)

/-- The document that is left of it, and the report. -/
def filledHiddenList : Document × Report :=
  (({} : Engine).fill oneItem hiddenList).toOption.get (by decide +kernel)

/-- The paragraph is removed, and then there is nothing to repeat. -/
theorem unsettled_hiddenList :
    Unsettled {} .standard oneItem hiddenList (.ofText 2 "displayParagraphIf(true)") 1 := by
  have h : stageOfHiddenList.Of {} .standard oneItem hiddenList :=
    ⟨Except.eq_ok_get _, rfl⟩
  have hfill : ({} : Engine).fill oneItem hiddenList = .ok filledHiddenList :=
    Except.eq_ok_get _
  refine ⟨rfl, _, _, h, hfill, ?_⟩
  rintro (⟨⟨entry, hentry, hid⟩, -⟩ | ⟨hthere, -⟩ | ⟨i, items, d, hr, hstart⟩)
  · have hall : ∀ entry ∈ stageOfHiddenList.plan.entries, entry.1.id ≠ 2 := by decide +kernel
    exact hall entry hentry hid
  · have hnot : Comment.ofText 2 "displayParagraphIf(true)" ∉ filledHiddenList.1.comments := by
      decide +kernel
    exact hnot hthere
  · -- The paragraph is gone before the repetition.
    obtain ⟨k, hk, rfl⟩ := exists_get hr
    have hall : ∀ k : Fin stageOfHiddenList.moves.length,
        ∀ r ∈ (stageOfHiddenList.moves.get k).edit.repetition?,
          1 ∉ r.1.site.region.paragraphIds ((((stageOfHiddenList.moves.take k).forM
            (Move.perform .standard)).run stageOfHiddenList.start).2.document) := by
      decide +kernel
    refine hall k (i, items) ?_ hstart
    rw [hk]
    rfl

/-- The filler of the engine that skips comments without directives. -/
def lenientFiller : Filler :=
  { Filler.standard with settings := Engine.lenient.settings }

/-- A table to be filled, with a remark on its header. -/
def headedTable : Document where
  body := [.table { rows := [
    ⟨0, [.ofParagraph { content := [.rangeStart 1, .rangeStart 2, .run (.ofText "head"),
      .rangeEnd 2, .rangeEnd 1] }]⟩,
    ⟨0, [.ofParagraph { content := [.run (.ofText "cell")] }]⟩] }]
  comments := [.ofText 1 "Looks good", .ofText 2 "resolveTable(grid)"]

/-- One record. -/
def oneRecord : Value :=
  .ofEntries [("grid", .table ⟨["Header"], [["value"]]⟩)]

/-- The stage of its filling. -/
def stageOfHeadedTable : Stage :=
  (Engine.lenient.stage lenientFiller oneRecord headedTable).toOption.get (by decide +kernel)

/-- The document that is left of it, and the report. -/
def filledHeadedTable : Document × Report :=
  (Engine.lenient.fill oneRecord headedTable).toOption.get (by decide +kernel)

/-- The paragraph of the header is left with a text, and nothing else. -/
theorem unsettled_headedTable :
    Unsettled .lenient lenientFiller oneRecord headedTable (.ofText 1 "Looks good") 3 := by
  have h : stageOfHeadedTable.Of Engine.lenient lenientFiller oneRecord headedTable :=
    ⟨Except.eq_ok_get _, rfl⟩
  have hfill : Engine.lenient.fill oneRecord headedTable = .ok filledHeadedTable :=
    Except.eq_ok_get _
  refine ⟨rfl, _, _, h, hfill, ?_⟩
  rintro (⟨⟨entry, hentry, hid⟩, -⟩ | ⟨-, hanchors⟩ | ⟨i, items, d, hr, -⟩)
  · have hall : ∀ entry ∈ stageOfHeadedTable.plan.entries, entry.1.id ≠ 1 := by decide +kernel
    exact hall entry hentry hid
  · have hleft : ∃ p ∈ headedTable.assignIds.paragraphs, ∃ q ∈ filledHeadedTable.1.paragraphs,
        q.id = p.id ∧ q.anchorsOf 1 ≠ p.anchorsOf 1 := by decide +kernel
    obtain ⟨p, hp, q, hq, hid, hne⟩ := hleft
    exact hne (hanchors p hp q hq hid)
  · have hall : ∀ m ∈ stageOfHeadedTable.moves, m.edit.repetition? = none := by decide +kernel
    exact absurd (hall _ hr.mem) (by simp [Edit.repetition?])

/-- Comments may be lost to both. -/
theorem unsettled_both :
    Unsettled {} .standard oneItem hiddenList (.ofText 2 "displayParagraphIf(true)") 1 ∧
      Unsettled .lenient lenientFiller oneRecord headedTable (.ofText 1 "Looks good") 3 :=
  ⟨unsettled_hiddenList, unsettled_headedTable⟩

end Stage

end DocTemplate
