import DocTemplate.Proofs.Directive.Contiguity
import DocTemplate.Proofs.Document.Snapshot

/-!
# Histories of a document

A document is made of nothing, of the blocks of a body, or of a snapshot, and is changed from
then on (`Document.Built`). A change adds, removes or replaces blocks, removes a row, or numbers
all nodes anew (`Document.Change`). What was removed may come back, since any block may be added,
with whatever numbers it has: it gets new ones.

* `Document.Numbered.apply`: a change keeps the numbers of all nodes apart;
* `Document.Built.unique_numbers`: so they are at the end of every history.
-/

namespace DocTemplate

namespace Document

/-- A change of a document. -/
inductive Change where
  /-- A block at the end of the body. -/
  | addBlock (b : Block)
  /-- New numbers for all nodes. -/
  | assignIds
  /-- The removal of a paragraph or a table. -/
  | removeBlock (id : NodeId)
  /-- The removal of a row. -/
  | removeRow (id : NodeId)
  /-- Other blocks in the place of neighbours, numbered before they get there. -/
  | replaceBlocks (ids : List NodeId) (replacement : List Block)

/-- The document after a change. What is not there is neither removed nor replaced. -/
def Change.apply : Change → Document → Document
  | addBlock b, doc => doc.addBlock b
  | assignIds, doc => doc.assignIds
  | removeBlock id, doc => ((doc.removeBlock? id).map Prod.snd).getD doc
  | removeRow id, doc => ((doc.removeRow? id).map Prod.snd).getD doc
  | replaceBlocks ids replacement, doc =>
    let (numbered, doc) := doc.numberBlocks replacement
    ((doc.replaceBlocks? ids numbered).map Prod.snd).getD doc

/-- The document of a body, its nodes being numbered. -/
def ofBody (body : List Block) : Document :=
  ({ body } : Document).assignIds

/-- The documents that can be made and changed. -/
inductive Built : Document → Prop
  /-- An empty document. -/
  | empty : Built {}
  /-- The document of a body. -/
  | ofBody (body : List Block) : Built (ofBody body)
  /-- The document of a snapshot. -/
  | ofText {s : String} {doc : Document} (h : ofText s = .ok doc) : Built doc
  /-- A document that is changed. -/
  | change {doc : Document} (c : Change) (h : Built doc) : Built (c.apply doc)

/-! ## Numbers -/

theorem numbered_assignIds (doc : Document) : doc.assignIds.Numbered := by
  refine ⟨doc.nodup_outline_assignIds, fun x hx => ?_⟩
  have hid : x.id ∈ doc.assignIds.outline.map Placed.id := List.mem_map_of_mem hx
  rw [map_id_outline_assignIds, List.mem_range'_1] at hid
  exact ⟨hid.1, Nat.lt_one_add_iff.1 hid.2⟩

namespace Numbered

variable {doc : Document} (h : doc.Numbered)

include h

/-- Numbers that are given and not used change nothing. -/
theorem of_le {last : Nat} (hle : doc.lastId ≤ last) :
    ({ doc with lastId := last } : Document).Numbered :=
  ⟨h.nodup, fun x hx => (h.bounds x hx).imp_right fun hid => hid.trans hle⟩

theorem addBlock (b : Block) : (doc.addBlock b).Numbered := by
  obtain ⟨⟨last, hle, hdoc⟩, hids, -⟩ := doc.numberBlocks_spec [b]
  rw [hdoc] at hids
  have hadd : doc.addBlock b =
      { doc with body := doc.body ++ (doc.numberBlocks [b]).1, lastId := last } := by
    rw [Document.addBlock, ← Prod.eta (doc.numberBlocks [b]), hdoc]
  have hex : ({ doc with lastId := last } : Document).Exchange []
      (Block.outlineOf (doc.numberBlocks [b]).1 []) (doc.addBlock b) := by
    refine ⟨⟨doc.outline, [], by simp [outline], ?_⟩, _, hadd⟩
    rw [hadd]
    simp [outline]
  exact hex.numbered h hle hids

theorem removeBlock (id : NodeId) : ((Change.removeBlock id).apply doc).Numbered := by
  rw [Change.apply]
  cases hremoved : doc.removeBlock? id with
  | none => exact h
  | some removed => exact (Loses.of_removeBlock? (b := removed.1) hremoved).numbered h

theorem removeRow (id : NodeId) : ((Change.removeRow id).apply doc).Numbered := by
  rw [Change.apply]
  cases hremoved : doc.removeRow? id with
  | none => exact h
  | some removed => exact (Loses.of_removeRow? hremoved).numbered h

theorem replaceBlocks (ids : List NodeId) (replacement : List Block) :
    ((Change.replaceBlocks ids replacement).apply doc).Numbered := by
  obtain ⟨⟨last, hle, hdoc⟩, hids, -⟩ := doc.numberBlocks_spec replacement
  rw [hdoc] at hids
  have happly : (Change.replaceBlocks ids replacement).apply doc =
      ((({ doc with lastId := last } : Document).replaceBlocks? ids
        (doc.numberBlocks replacement).1).map Prod.snd).getD { doc with lastId := last } := by
    rw [← hdoc]
    rfl
  rw [happly]
  cases hreplaced : ({ doc with lastId := last } : Document).replaceBlocks? ids
      (doc.numberBlocks replacement).1 with
  | none => exact h.of_le hle
  | some replaced =>
    obtain ⟨-, around, hex⟩ := exchange_of_replaceBlocks? hreplaced
    exact hex.numbered h hle hids

/-- A change keeps the numbers of all nodes apart. -/
theorem apply (c : Change) : (c.apply doc).Numbered := by
  cases c with
  | addBlock b => exact h.addBlock b
  | assignIds => exact numbered_assignIds doc
  | removeBlock id => exact h.removeBlock id
  | removeRow id => exact h.removeRow id
  | replaceBlocks ids replacement => exact h.replaceBlocks ids replacement

end Numbered

theorem Built.numbered {doc : Document} (h : doc.Built) : doc.Numbered := by
  induction h with
  | empty => exact ⟨List.nodup_nil, fun x hx => absurd hx (List.not_mem_nil)⟩
  | ofBody body => exact numbered_assignIds _
  | ofText h =>
    obtain ⟨j, -, hdoc⟩ := Option.bind_eq_some_iff.1 (ofText_eq_ok_iff.1 h)
    obtain ⟨raw, rfl, -⟩ := exists_of_ofJson? hdoc
    exact numbered_assignIds raw
  | change c _ ih => exact ih.apply c

/-- In every document that can be made and changed, no two paragraphs, tables or rows have the
    same number, and all have one, which is none above the last one given. -/
theorem Built.unique_numbers {doc : Document} (h : doc.Built) :
    (doc.outline.map Placed.id).Nodup ∧ ∀ x ∈ doc.outline, 0 < x.id ∧ x.id ≤ doc.lastId :=
  ⟨h.numbered.nodup, h.numbered.bounds⟩

/-- A table is removed and added again, with new numbers. -/
theorem Built.unique_numbers_of_moved_table :
    let doc := Document.ofBody
      [.table { rows := [.ofTexts ["a"], .ofTexts ["b"]] }, .paragraph (.ofText "c")]
    let removed := ((doc.removeBlock? 1).map Prod.fst).getD default
    let moved := (Change.addBlock removed).apply ((Change.removeBlock 1).apply doc)
    moved.Built ∧ removed.ids = [1, 2, 3, 4, 5] ∧
      moved.outline.map Placed.id = [6, 7, 8, 9, 10, 11] ∧
      (moved.outline.map Placed.id).Nodup := by
  intro doc removed moved
  have hbuilt : moved.Built := ((Built.ofBody _).change _).change _
  exact ⟨hbuilt, by decide, by decide, (Built.unique_numbers hbuilt).1⟩

end Document

end DocTemplate
