import DocTemplate.Proofs.Directive.Note
import DocTemplate.Proofs.Engine.Parallel

/-!
# Notes in fillings

The body of a document refers to footnotes and endnotes by number. A filling keeps the
definitions of all notes until the end, and what the body refers to then was referred to in the
beginning: neither the visit nor a move brings a reference to another note. So if all notes that
the body refers to are defined, they still are.

Last of all, the notes without reference are dropped. What counts are the references in the body
as it is given back, so none of the notes that it needs is lost.

* `Stage.Of.references_subset`: the references after the visit;
* `Engine.exists_finish`: the notes at the end;
* `Engine.notes_consistent`: all of this, for a filling.
-/

namespace DocTemplate

/-- The notes that the body refers to are defined. -/
structure Document.DefinesNotes (doc : Document) : Prop where
  footnotes (id : NoteId) : .footnote id ∈ doc.runItems → id ∈ doc.footnotes.map Note.id
  endnotes (id : NoteId) : .endnote id ∈ doc.runItems → id ∈ doc.endnotes.map Note.id

/-- The notes as they are before a filling: without language tags, if the settings drop them. -/
def Settings.prepareNotes (s : Settings) (notes : List Note) : List Note :=
  if s.stripLanguage then notes.map Note.stripLanguage else notes

namespace Settings

variable (s : Settings) (notes : List Note)

theorem map_id_prepareNotes : (s.prepareNotes notes).map Note.id = notes.map Note.id := by
  rw [prepareNotes]
  split
  · rw [List.map_map]
    rfl
  · rfl

/-- Language tags do not matter for what depends on the number and the role. -/
theorem filter_prepareNotes {keep : Note → Bool} (hkeep : ∀ n, keep n.stripLanguage = keep n) :
    (s.prepareNotes notes).filter keep = s.prepareNotes (notes.filter keep) := by
  rw [prepareNotes, prepareNotes]
  split
  · rw [List.filter_map]
    exact congrArg _ (List.filter_congr fun n _ => hkeep n)
  · rfl

theorem length_prepareNotes : (s.prepareNotes notes).length = notes.length := by
  rw [← List.length_map Note.id, map_id_prepareNotes, List.length_map]

end Settings

namespace Document

variable {doc : Document} {settings : Settings}

theorem footnotes_prepare :
    (doc.prepare settings).1.footnotes = settings.prepareNotes doc.footnotes := by
  rw [prepare, Settings.prepareNotes]
  split <;> split <;> rfl

theorem endnotes_prepare :
    (doc.prepare settings).1.endnotes = settings.prepareNotes doc.endnotes := by
  rw [prepare, Settings.prepareNotes]
  split <;> split <;> rfl

/-- Numbering the nodes changes no reference. -/
theorem runItems_assignIds : doc.assignIds.runItems = doc.runItems := by
  have hrunItems : ∀ doc : Document, doc.runItems =
      (doc.paragraphs.map Paragraph.unnumbered).flatMap Paragraph.runItems := fun doc => by
    rw [List.flatMap_map]
    rfl
  rw [hrunItems, hrunItems, paragraphs_assignIds]

/-- Nor does cleaning up. -/
theorem mem_runItems_prepare_iff {i : RunItem} (hi : i.isText = false) :
    i ∈ (doc.prepare settings).1.runItems ↔ i ∈ doc.runItems := by
  rw [← List.contains_iff_mem, ← List.contains_iff_mem,
    ((Related.refl doc).prepare_right settings).contains_runItems hi]

/-! ### The end -/

variable {keep : List CommentId}

/-- Anchors of comments are no references. -/
theorem references_close_subset : (doc.close settings keep).references ⊆ doc.references := by
  refine references_subset_of_paragraphs fun q hq => ?_
  rw [paragraphs_close] at hq
  obtain ⟨p, hp, rfl⟩ := List.mem_map.1 hq
  exact List.Subset.trans (p.references_keepAnchors_subset _) (references_paragraph_subset hp)

/-- The footnotes at the end, if those without reference are dropped: the references that count
    are those in the body as it is then. -/
theorem footnotes_close (hs : settings.removeOrphanNotes) :
    (doc.close settings keep).footnotes = doc.footnotes.filter fun n =>
      n.kind ≠ .normal || (doc.close settings keep).runItems.contains (.footnote n.id) := by
  rw [close, finish, if_pos hs]
  rfl

/-- And the endnotes. -/
theorem endnotes_close (hs : settings.removeOrphanNotes) :
    (doc.close settings keep).endnotes = doc.endnotes.filter fun n =>
      n.kind ≠ .normal || (doc.close settings keep).runItems.contains (.endnote n.id) := by
  rw [close, finish, if_pos hs]
  rfl

/-- The notes that are dropped are counted. -/
theorem length_removeOrphanNotes (doc : Document) :
    doc.removeOrphanNotes.1.footnotes.length + doc.removeOrphanNotes.1.endnotes.length +
      doc.removeOrphanNotes.2 = doc.footnotes.length + doc.endnotes.length := by
  have hfootnotes := List.length_filter_le (fun n : Note =>
    n.kind ≠ .normal || doc.runItems.contains (.footnote n.id)) doc.footnotes
  have hendnotes := List.length_filter_le (fun n : Note =>
    n.kind ≠ .normal || doc.runItems.contains (.endnote n.id)) doc.endnotes
  simp only [removeOrphanNotes]
  omega

/-- No note is dropped that the body refers to. -/
theorem DefinesNotes.close (h : doc.DefinesNotes) : (doc.close settings keep).DefinesNotes := by
  have href : ∀ {i : RunItem}, i.isReference → i ∈ (doc.close settings keep).runItems →
      i ∈ doc.runItems := fun hi hmem =>
    (mem_runItems_iff_references hi).2
      (references_close_subset ((mem_runItems_iff_references hi).1 hmem))
  by_cases hs : settings.removeOrphanNotes
  · constructor
    · intro id hid
      obtain ⟨n, hn, rfl⟩ := List.mem_map.1 (h.footnotes id (href rfl hid))
      rw [footnotes_close hs]
      exact List.mem_map_of_mem (List.mem_filter.2 ⟨hn, by simp [hid]⟩)
    · intro id hid
      obtain ⟨n, hn, rfl⟩ := List.mem_map.1 (h.endnotes id (href rfl hid))
      rw [endnotes_close hs]
      exact List.mem_map_of_mem (List.mem_filter.2 ⟨hn, by simp [hid]⟩)
  · -- All notes stay.
    have hclose : doc.close settings keep = (doc.removeComments keep).1 := by
      rw [Document.close, finish, if_neg hs]
    rw [hclose] at href ⊢
    exact ⟨fun id hid => h.footnotes id (href rfl hid), fun id hid => h.endnotes id (href rfl hid)⟩

end Document

/-! ## The visit and the moves -/

namespace Stage

variable {s : Stage} {e : Engine} {f : Filler} {scope : Value} {doc : Document} {d : Draft}

namespace Of

variable (h : s.Of e f scope doc)

include h

/-- After the visit, the body refers to no more notes than before. -/
theorem references_subset (hf : f.renderers = Renderer.builtin) :
    s.document.references ⊆ (e.prepared doc).references := by
  refine Document.references_subset_of_paragraphs fun q hq => ?_
  obtain ⟨around, hq⟩ := Document.mem_paragraphs_iff_outline.1 hq
  obtain ⟨p, hp, -, -, hvisited⟩ := h.exists_visited hq
  refine List.Subset.trans ?_ (Document.references_paragraph_subset
    (Document.mem_paragraphs_iff_outline.2 ⟨around, hp⟩))
  dsimp only at hvisited
  split at hvisited
  · rw [hvisited]
    exact List.Subset.refl _
  · obtain ⟨tally, hfill⟩ := hvisited
    exact Filler.references_fillParagraph hf hfill

/-- And so it is after all moves. -/
theorem references_subset_of_yields (hf : f.renderers = Renderer.builtin)
    (hd : (s.moves.forM (Move.perform f)).Yields s.start () d) :
    d.document.references ⊆ (e.prepared doc).references :=
  Revision.forM_induction
    (P := fun d : Draft => d.document.references ⊆ (e.prepared doc).references)
    (fun _ _ _ _ hsub hstep => List.Subset.trans (Move.references_subset hf hstep) hsub)
    (h.references_subset hf) hd

/-- The definitions of the notes are those of the document that is visited. -/
theorem sharesFrame_of_yields (hd : (s.moves.forM (Move.perform f)).Yields s.start () d) :
    (e.prepared doc).SharesFrame d.document := by
  obtain ⟨-, body, -, hdoc⟩ := h.exists_visitAll
  refine Revision.forM_induction
    (P := fun d : Draft => (e.prepared doc).SharesFrame d.document)
    (fun _ _ _ _ hshares hstep => hshares.trans (Move.sharesFrame hstep)) ?_ hd
  exact ⟨body, _, hdoc⟩

end Of

end Stage

namespace Engine

variable {e : Engine} {scope : Value} {doc doc' : Document} {report : Report}

/-- If all notes that the body refers to are defined, they still are after a filling with the
    built-in renderers and handlers. The notes that are left in the end, if those without
    reference are dropped, are the ones with a special role and those that the body refers to
    then; and the others are counted. -/
theorem notes_consistent (hregistry : e.registry = .builtin) (hrenderers : e.renderers = [])
    (hdefined : doc.DefinesNotes) (h : e.fill scope doc = .ok (doc', report)) :
    doc'.DefinesNotes ∧
      (e.settings.removeOrphanNotes →
        doc'.footnotes = e.settings.prepareNotes (doc.footnotes.filter fun n =>
            n.kind ≠ .normal || doc'.runItems.contains (.footnote n.id)) ∧
          doc'.endnotes = e.settings.prepareNotes (doc.endnotes.filter fun n =>
            n.kind ≠ .normal || doc'.runItems.contains (.endnote n.id)) ∧
          ∃ dropped, report.notesRemoved = UInt32.ofNat dropped ∧
            doc'.footnotes.length + doc'.endnotes.length + dropped =
              doc.footnotes.length + doc.endnotes.length) := by
  rw [fill_eq] at h
  obtain ⟨f, hf, h⟩ := Except.bind_eq_ok.1 h
  obtain ⟨s, hs, d, hd, rfl, rfl⟩ := exists_stage_finish hregistry h
  -- Before the last step, the definitions are those that were given.
  obtain ⟨body, lastId, hframe⟩ := hs.sharesFrame_of_yields hd
  have hfootnotes : d.document.footnotes = e.settings.prepareNotes doc.footnotes := by
    rw [hframe]
    exact Document.footnotes_prepare
  have hendnotes : d.document.endnotes = e.settings.prepareNotes doc.endnotes := by
    rw [hframe]
    exact Document.endnotes_prepare
  have href : ∀ {i : RunItem}, i.isReference → i.isText = false → i ∈ d.document.runItems →
      i ∈ doc.runItems := by
    intro i hi htext hmem
    have hsub := hs.references_subset_of_yields (renderers_filler hf hrenderers) hd
    rw [← Document.runItems_assignIds, ← Document.mem_runItems_prepare_iff htext,
      ← prepared, Document.mem_runItems_iff_references hi]
    exact hsub ((Document.mem_runItems_iff_references hi).1 hmem)
  have hdefined' : d.document.DefinesNotes := by
    constructor
    · intro id hid
      rw [hfootnotes, Settings.map_id_prepareNotes]
      exact hdefined.footnotes id (href rfl rfl hid)
    · intro id hid
      rw [hendnotes, Settings.map_id_prepareNotes]
      exact hdefined.endnotes id (href rfl rfl hid)
  refine ⟨hdefined'.close, fun hremove => ⟨?_, ?_, _, rfl, ?_⟩⟩
  · rw [Document.footnotes_close hremove, hfootnotes]
    exact Settings.filter_prepareNotes _ _ fun _ => rfl
  · rw [Document.endnotes_close hremove, hendnotes]
    exact Settings.filter_prepareNotes _ _ fun _ => rfl
  · rw [← e.settings.length_prepareNotes doc.footnotes, ← hfootnotes,
      ← e.settings.length_prepareNotes doc.endnotes, ← hendnotes]
    rw [Document.close, Document.finish, if_pos hremove]
    exact Document.length_removeOrphanNotes _

/-- A contract with a clause that may be left out, and a table. -/
def contract : Document where
  body := [
    .paragraph { content := [.run ⟨[.text "Fee: $\x7bfee\x7d", .footnote 1], {}⟩] },
    .paragraph { content := [.rangeStart 1, .run ⟨[.text "Penalty", .footnote 2], {}⟩, .rangeEnd 1] },
    .table { rows := [⟨0, [.ofParagraph { content := [.run ⟨[.endnote 2, .text "Dates"], {}⟩] }]⟩] }]
  comments := [.ofText 1 "displayParagraphIf(penalty)"]
  footnotes := [⟨0, .separator, []⟩, .ofText 1 "without tax", .ofText 2 "per day"]
  endnotes := [.ofText 1 "old", .ofText 2 "local time"]

/-- The fee, and no penalty. -/
def contractData : Value :=
  .ofEntries [("fee", .int 100), ("penalty", .bool false)]

/-- The contract that is filled in, and the report. -/
def filledContract : Document × Report :=
  (({} : Engine).fill contractData contract).toOption.get (by decide +kernel)

theorem definesNotes_contract : contract.DefinesNotes := by
  have hitems : contract.runItems = [.text "Fee: $\x7bfee\x7d", .footnote 1, .text "Penalty",
      .footnote 2, .endnote 2, .text "Dates"] := by decide +kernel
  constructor
  · intro id hid
    obtain rfl | rfl : id = 1 ∨ id = 2 := by simpa [hitems] using hid
    all_goals decide
  · intro id hid
    obtain rfl : id = 2 := by simpa [hitems] using hid
    decide

theorem notes_consistent_contract :
    contract.DefinesNotes ∧ filledContract.1.DefinesNotes ∧
      filledContract.1.footnotes.map Note.id = [0, 1] ∧
      filledContract.1.endnotes.map Note.id = [2] ∧ filledContract.2.notesRemoved = 2 := by
  have h : ({} : Engine).fill contractData contract = .ok filledContract := Except.eq_ok_get _
  obtain ⟨hdefined, -⟩ := notes_consistent rfl rfl definesNotes_contract h
  exact ⟨definesNotes_contract, hdefined, by decide +kernel, by decide +kernel, by decide +kernel⟩

end Engine

end DocTemplate
