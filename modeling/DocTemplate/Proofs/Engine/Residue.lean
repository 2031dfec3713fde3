import DocTemplate.Proofs.Directive.Origin
import DocTemplate.Proofs.Engine.Comments

/-!
# What is left of a template

A filling with strict settings skips no comment and makes up for no missing value. So
nothing is left of the template in the document that it gives: no comment, no anchor, and
no paragraph whose placeholders are still to be filled. Every paragraph that is there has
an origin (`Stage.Origin`):

* the visit filled it in the scope of the filling;
* a repetition copied it for an item, and filled the copy in the scope of the item;
* a filling of a table has written it.

The paragraphs that the visit leaves to a repetition are gone, since the repetition is
never skipped. Nor is there a fourth way: what a move finds has an origin, or is one of
these paragraphs, and what it makes has an origin again.

* `Stage.Of.skipped_eq_nil`: strict settings skip nothing;
* `Stage.Of.origin_of_yields`: the origin of every paragraph, after all moves;
* `Engine.no_residue`: all of this, for a filling.
-/

namespace DocTemplate

/-! ## Strict settings -/

theorem Registry.interpret_ne_none {registry : Registry} {settings : Settings}
    (hlenient : settings.lenientDirectives = false) (text : String) :
    registry.interpret settings text ≠ .ok none := by
  rw [interpret]
  split
  · simp
  · simp [hlenient]

/-- A plan with strict settings skips no comment. -/
theorem Plan.skipped_ofDocument {registry : Registry} {settings : Settings} {doc : Document}
    {plan : Plan} (hlenient : settings.lenientDirectives = false)
    (h : ofDocument registry settings doc = .ok plan) : plan.skipped = [] := by
  refine Except.foldlM_induction (P := fun plan => plan.skipped = [])
    (fun plan r next hplan hstep => ?_) rfl h
  rcases step_cases hstep with ⟨-, rfl⟩ | ⟨-, calls, hcalls, rfl⟩
  · exact hplan
  · cases calls with
    | none => exact absurd hcalls (Registry.interpret_ne_none hlenient _)
    | some calls => exact hplan

/-- With strict settings, calls have instructions or fail. -/
theorem Call.instructions_ne_none {env : Environment} {settings : Settings} {scope : Value}
    {site : Site} (hlenient : settings.lenientDirectives = false)
    (hrecovers : settings.recoversUnresolved = false) (calls : List Call) :
    instructions env settings scope site calls ≠ .ok none := by
  intro h
  induction calls with
  | nil => cases h
  | cons call calls ih =>
    rw [instructions] at h
    split at h
    · obtain ⟨rest, hrest, h⟩ := Except.bind_eq_ok.1 h
      cases rest with
      | none => exact ih hrest
      | some rest => cases h
    · simp [hlenient, hrecovers] at h

namespace Stage

variable {s : Stage} {e : Engine} {f : Filler} {scope : Value} {doc doc' : Document}

/-- Where a paragraph comes from. -/
inductive Origin (s : Stage) (e : Engine) (f : Filler) (scope : Value) (doc : Document)
    (q : Paragraph) : Prop
  /-- The visit filled it in the scope of the filling, and then words may have been
      replaced in it. -/
  | visited (p filled : Paragraph) (hp : p ∈ (e.prepared doc).paragraphs)
      (hdeferred : p.id ∉ s.plan.deferred) (hfill : f.Resolves scope p filled)
      (hwords : filled.Reworded q)
  /-- It is a copy of a paragraph in the template of a repetition, filled in the scope of
      an item. -/
  | copied (i : Instruction) (items : List Value) (d : Draft) (item : Value) (p : Paragraph)
      (hreaches : s.Reaches f ⟨.repetitions, .repeatBlocks i items⟩ d) (hitem : item ∈ items)
      (hp : p ∈ Block.paragraphsOf (i.site.region.attached d.document))
      (hcopy : p.IsCopy f item q)
      (hresolved : ∀ ph ∈ f.delimiters.scan p.text, ∃ rendering,
        f.renderingOf item ph = .ok rendering)
  /-- It has a text that was written into a table. -/
  | written (i : Instruction) (data : Grid) (d : Draft)
      (hreaches : s.Reaches f ⟨.fills, .fillTable i data⟩ d) (hwritten : q.IsWritten data)

/-- Words are replaced in paragraphs that the visit filled, and in no others. -/
theorem Origin.reword {q : Paragraph} (h : s.Origin e f scope doc q) {comment : CommentId}
    {content : List RunItem} {items : List Inline}
    (hitems : WordReplacement.replaceBetween? comment content q.content = some items) :
    s.Origin e f scope doc { q with content := items } := by
  cases h with
  | visited p filled hp hdeferred hfill hwords =>
    exact .visited p filled hp hdeferred hfill
      ⟨hwords.id, hwords.style, hwords.content.tail ⟨comment, content, hitems⟩⟩
  | copied i items d item p hreaches hitem hp hcopy hresolved =>
    obtain ⟨anchor, hanchor, hid⟩ := Paragraph.exists_commentId? hitems
    exact absurd (hcopy.commentId? anchor hanchor) hid
  | written i data d hreaches hwritten =>
    obtain ⟨anchor, hanchor, hid⟩ := Paragraph.exists_commentId? hitems
    exact absurd (hwritten.commentId? anchor hanchor) hid

namespace Of

variable (h : s.Of e f scope doc)

include h

theorem skipped_eq_nil (hlenient : e.settings.lenientDirectives = false)
    (hrecovers : e.settings.recoversUnresolved = false) : s.visit.skipped = [] := by
  refine Except.foldlM_induction (P := fun state => state.2 = [])
    (fun state d next hstate hstep => ?_) (Plan.skipped_ofDocument hlenient h.exists_visitAll.1)
    h.dispatches
  obtain ⟨outcome, houtcome, hstep⟩ := Except.bind_eq_ok.1 hstep
  obtain ⟨is, his, houtcome⟩ := Except.bind_eq_ok.1 houtcome
  cases is with
  | none => exact absurd his (Call.instructions_ne_none hlenient hrecovers d.2)
  | some is =>
    obtain ⟨desks, -, houtcome⟩ := Except.bind_eq_ok.1 houtcome
    cases houtcome
    cases hstep
    exact hstate

/-- After the visit, a paragraph has an origin unless it is left to a repetition. -/
theorem origin_of_mem_document (hrecovery : f.recovery? = none) {q : Paragraph}
    (hq : q ∈ s.document.paragraphs) :
    s.Origin e f scope doc q ∨ q.id ∈ s.plan.deferred := by
  obtain ⟨around, hq⟩ := Document.mem_paragraphs_iff_outline.1 hq
  obtain ⟨p, hp, -, -, hvisited⟩ := h.exists_visited hq
  dsimp only at hvisited
  split at hvisited
  · next hdeferred =>
    rw [hvisited]
    exact .inr (List.contains_iff_mem.1 hdeferred)
  · next hdeferred =>
    obtain ⟨tally, hfill⟩ := hvisited
    exact .inl (.visited p q (Document.mem_paragraphs_iff_outline.2 ⟨around, hp⟩)
      (fun hmem => hdeferred (List.contains_iff_mem.2 hmem)) (Filler.resolves hrecovery hfill)
      ⟨rfl, rfl, .refl⟩)

/-- After any moves, a paragraph has an origin unless it is left to a repetition. -/
theorem origin_of_yields (hrecovery : f.recovery? = none) {d : Draft}
    (hd : (s.moves.forM (Move.perform f)).Yields s.start () d) :
    ∀ q ∈ d.document.paragraphs, s.Origin e f scope doc q ∨ q.id ∈ s.plan.deferred := by
  refine Revision.forM_induction (P := fun d : Draft =>
    ∀ q ∈ d.document.paragraphs, s.Origin e f scope doc q ∨ q.id ∈ s.plan.deferred) ?_
    (fun q hq => h.origin_of_mem_document hrecovery hq) hd
  intro m d d' hr ih hstep q hq
  cases Move.brings hstep hq with
  | kept hq => exact ih q hq
  | copied hitem hp hcopy =>
    exact .inl (.copied _ _ d _ _ hr hitem hp hcopy (hcopy.resolved hrecovery))
  | @reworded _ _ _ p items hp hitems heq =>
    subst heq
    exact (ih p hp).imp_left fun horigin => horigin.reword hitems
  | written hwritten => exact .inl (.written _ _ d hr hwritten)

/-- With strict settings, the paragraphs in the region of a comment to repeat them are gone
    after all moves. -/
theorem locate?_eq_none_of_deferred (hlenient : e.settings.lenientDirectives = false)
    (hrecovers : e.settings.recoversUnresolved = false) {d : Draft}
    (hd : (s.moves.forM (Move.perform f)).Yields s.start () d) {entry : Region × List Call}
    (hentry : entry ∈ s.plan.entries) (hdefers : Plan.defers .builtin entry) {id : NodeId}
    (hid : id ∈ entry.1.paragraphIds (e.prepared doc)) : d.document.locate? id = none := by
  obtain ⟨p, around, -, -, hdispatched⟩ := h.exists_dispatch hentry
  rcases hdispatched with ⟨hnone, -⟩ | ⟨is, his, hholds⟩
  · exact absurd hnone (Call.instructions_ne_none hlenient hrecovers _)
  · obtain ⟨i, items, hsite, hm⟩ := h.exists_repetition hdefers rfl his hholds
    rw [← hsite] at hid
    obtain ⟨-, -, -, hgone⟩ := h.exists_reaches_repetition hd hm hid
    exact hgone

end Of

end Stage

namespace Engine

variable {e : Engine} {scope : Value} {doc doc' : Document} {report : Report}

/-- After a filling with strict settings that succeeds, the document has no comment and no
    anchor, the paragraphs in the regions of comments to repeat them are gone, and every
    other paragraph has an origin. -/
theorem no_residue (hregistry : e.registry = .builtin)
    (hrecovers : e.settings.recoversUnresolved = false)
    (hlenient : e.settings.lenientDirectives = false)
    (h : e.fill scope doc = .ok (doc', report)) :
    doc'.comments = [] ∧ (∀ q ∈ doc'.paragraphs, ∀ item ∈ q.content, item.commentId? = none) ∧
      ∃ (f : Filler) (s : Stage), e.filler = .ok f ∧ s.Of e f scope doc ∧
        (∀ entry ∈ s.plan.entries, Plan.defers .builtin entry →
          ∀ id ∈ entry.1.paragraphIds (e.prepared doc), doc'.locate? id = none) ∧
        ∀ q ∈ doc'.paragraphs, ∃ p, s.Origin e f scope doc p ∧ q = p.withoutAnchors := by
  rw [fill_eq] at h
  obtain ⟨f, hf, h⟩ := Except.bind_eq_ok.1 h
  obtain ⟨s, hs, d, hd, rfl, -⟩ := exists_stage hregistry h
  have hrecovery : f.recovery? = none :=
    Filler.recovery?_eq_none_iff.2 (by rw [settings_filler hf]; exact hrecovers)
  rw [hs.skipped_eq_nil hlenient hrecovers]
  have hparagraphs : ∀ q ∈ (d.document.close e.settings []).paragraphs,
      ∃ p ∈ d.document.paragraphs, q = p.withoutAnchors := by
    intro q hq
    rw [Document.paragraphs_eq_outline, Document.outline_close, List.filterMap_map] at hq
    obtain ⟨⟨p | _ | _, around⟩, hp, hq⟩ := List.mem_filterMap.1 hq
    · obtain rfl := Option.some.inj hq
      exact ⟨p, Document.mem_paragraphs_iff_outline.2 ⟨around, hp⟩, rfl⟩
    · cases hq
    · cases hq
  have hgone : ∀ entry ∈ s.plan.entries, Plan.defers .builtin entry →
      ∀ id ∈ entry.1.paragraphIds (e.prepared doc), d.document.locate? id = none :=
    fun entry hentry hdefers id hid =>
      hs.locate?_eq_none_of_deferred hlenient hrecovers hd hentry hdefers hid
  refine ⟨?_, fun q hq item hitem => ?_, f, s, hf, hs, fun entry hentry hdefers id hid => ?_,
    fun q hq => ?_⟩
  · rw [Document.close, (Document.finish_spec _ _).2]
    refine List.filter_eq_nil_iff.2 fun c _ => ?_
    cases hparent : c.parent <;> simp [Document.keepsComment, hparent]
  · obtain ⟨p, -, rfl⟩ := hparagraphs q hq
    exact Paragraph.commentId?_of_mem_withoutAnchors hitem
  · exact Document.locate?_close_eq_none (hgone entry hentry hdefers id hid)
  · obtain ⟨p, hp, rfl⟩ := hparagraphs q hq
    rcases hs.origin_of_yields hrecovery hd p hp with horigin | hdeferred
    · exact ⟨p, horigin, rfl⟩
    · -- A paragraph that was left to a repetition would still be there.
      obtain ⟨entry, hentry, hdefers, hid⟩ := (hs.accounts.deferred _).1 hdeferred
      obtain ⟨around, hp⟩ := Document.mem_paragraphs_iff_outline.1 hp
      exact absurd rfl (Document.locate?_eq_none_iff.1 (hgone entry hentry hdefers _ hid) _ hp rfl)

/-- A letter with a list, a table and a word to be filled in. -/
def letter : Document where
  body := [.paragraph { content := [.run (.ofText "Dear $\x7bname\x7d, "), .rangeStart 1,
      .run (.ofText "today"), .rangeEnd 1] },
    .paragraph { content := [.rangeStart 2, .run (.ofText "* $\x7bitem\x7d"), .rangeEnd 2] },
    .table { rows := [
      ⟨0, [.ofParagraph { content := [.rangeStart 3, .run (.ofText "head"), .rangeEnd 3] }]⟩,
      ⟨0, [.ofParagraph { content := [.run (.ofText "cell")] }]⟩] }]
  comments := [.ofText 1 "replaceWordWith(day)", .ofText 2 "repeatParagraph(list)",
    .ofText 3 "resolveTable(grid)"]

/-- What is filled in. -/
def letterData : Value :=
  .ofEntries [("name", .string "Ann"), ("day", .string "Monday"),
    ("list", .list [.ofEntries [("item", .string "tea")], .ofEntries [("item", .string "milk")]]),
    ("grid", .table ⟨["Price"], [["2"]]⟩)]

/-- The letter that is filled in, and the report. -/
def filledLetter : Document × Report :=
  (({} : Engine).fill letterData letter).toOption.get (by decide +kernel)

theorem no_residue_letter :
    filledLetter.1.paragraphs.map Paragraph.text =
        ["Dear Ann, Monday", "* tea", "* milk", "Price", "2"] ∧
      filledLetter.1.comments = [] ∧
      ∃ (f : Filler) (s : Stage), ({} : Engine).filler = .ok f ∧ s.Of {} f letterData letter ∧
        ∀ q ∈ filledLetter.1.paragraphs, ∃ p,
          s.Origin {} f letterData letter p ∧ q = p.withoutAnchors := by
  have h : ({} : Engine).fill letterData letter = .ok filledLetter := Except.eq_ok_get _
  obtain ⟨hcomments, -, f, s, hf, hs, -, horigin⟩ := no_residue rfl rfl rfl h
  exact ⟨by decide +kernel, hcomments, f, s, hf, hs, horigin⟩

end Engine

end DocTemplate
