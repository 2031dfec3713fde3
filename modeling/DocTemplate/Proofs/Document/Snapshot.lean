import DocTemplate.Proofs.Document.Snapshot.Part
import Mathlib.Data.List.MinMax

/-!
# Snapshots are read back

What is read of the snapshot of a document is the document, numbered anew, as long as it is not
nested too deep: a snapshot may be written at any depth, and is read to `Reader.maxDepth` only.

* `Document.ofText_write`: what is read of a snapshot;
* `Document.depth_toJson_le_of_nesting`: nineteen tables inside each other are not too deep;
* `Document.ofText_write_of_ofText`: what is read once is read again from its own snapshot;
* `Document.ofText_tower`: twenty tables inside each other are too deep.
-/

namespace DocTemplate

open Json

/-! ## The depth of a snapshot -/

namespace Paragraph

/-- The deepest part of a paragraph is an item of a run. -/
theorem depth_toJson_le_six (p : Paragraph) : p.toJson.depth ≤ 6 := by
  have hrun : ∀ r : Run, r.toJson.depth ≤ 3 := by
    intro r
    have hcontent : (Json.arr (r.content.map RunItem.toJson)).depth ≤ 2 :=
      depth_arr_map_le fun item _ => item.depth_toJson.le
    exact depth_obj_le (by simp [hcontent])
  have hitem : ∀ item ∈ p.content, item.toJson.depth ≤ 4 := by
    intro item _
    cases item with
    | run r => exact depth_ofChoice_le (Nat.lt_succ_of_le (hrun r))
    | _ => exact depth_ofChoice_le (Nat.succ_pos 3)
  exact depth_obj_le (by simp [members, depth_arr_map_le hitem])

end Paragraph

theorem depth_paragraphs_le (ps : List Paragraph) :
    (Json.arr (ps.map Paragraph.toJson)).depth ≤ 7 :=
  depth_arr_map_le fun p _ => p.depth_toJson_le_six

theorem Comment.depth_toJson_le_eight (c : Comment) : c.toJson.depth ≤ 8 := by
  obtain ⟨id, author, content, parent⟩ := c
  have hcontent := depth_paragraphs_le content
  refine depth_obj_le ?_
  cases parent <;> simp [hcontent]

theorem Note.depth_toJson_le_eight (n : Note) : n.toJson.depth ≤ 8 :=
  depth_obj_le (by simp [depth_paragraphs_le n.content])

/-- How many tables are nested inside each other in the block. -/
def Block.nesting : Block → Nat :=
  fold (fun _ => 0) fun t => t.items.foldr max 0 + 1

@[simp] theorem Block.nesting_paragraph (p : Paragraph) : (paragraph p).nesting = 0 := by
  simp [nesting]

theorem Block.nesting_table (t : Table Block) :
    (table t).nesting = (t.map nesting).items.foldr max 0 + 1 := by
  simp [nesting]

theorem Block.nesting_lt_of_mem {t : Table Block} {b : Block} (h : b ∈ t.items) :
    b.nesting < (table t).nesting := by
  have hmem : b.nesting ∈ (t.map nesting).items := by
    rw [Table.items_map]
    exact List.mem_map_of_mem h
  rw [nesting_table]
  exact Nat.lt_succ_of_le (List.le_max_of_le' 0 hmem (Nat.le_refl _))

/-- Around what is in a cell there are the content, the cell, the cells, the row, the rows and
    the table. -/
theorem Table.depth_toJson_le_add_six {α : Type} {write : α → Json} {t : Table α} {d : Nat}
    (h : ∀ a ∈ t.items, (write a).depth ≤ d) : (t.map write).toJson.depth ≤ d + 6 := by
  have hcell : ∀ r ∈ t.rows, ∀ c ∈ r.cells, (c.map write).toJson.depth ≤ d + 2 := by
    intro r hr c hc
    have hcontent : (Json.arr (c.content.map write)).depth ≤ d + 1 := depth_arr_map_le fun a ha =>
      h a (Table.mem_items.2 ⟨r, hr, c, hc, ha⟩)
    exact depth_obj_le (by simp [Cell.map, hcontent])
  have hrow : ∀ r ∈ t.rows, (r.map write).toJson.depth ≤ d + 4 := by
    intro r hr
    have hcells := depth_arr_map_le (hcell r hr)
    exact depth_obj_le (by simpa [Row.map, Function.comp_def] using hcells)
  have hrows := depth_arr_map_le hrow
  exact depth_obj_le (by simpa [map, Function.comp_def] using hrows)

theorem Block.depth_toJson_le_of_nesting (b : Block) : b.toJson.depth ≤ 6 * b.nesting + 6 := by
  induction b using Block.induction with
  | paragraph p =>
    obtain ⟨hpos, hp⟩ := depth_obj_le_iff.1 p.depth_toJson_le_six
    rw [toJson_paragraph, nesting_paragraph]
    exact depth_obj_le_iff.2 ⟨hpos, List.forall_mem_cons.2 ⟨hpos, hp⟩⟩
  | table t ih =>
    rw [toJson_table]
    refine Table.depth_toJson_le_add_six fun b hb => (ih b hb).trans ?_
    have := nesting_lt_of_mem hb
    omega

namespace Document

variable (doc : Document)

theorem isExact_toJson : doc.toJson.IsExact := by
  have harr : ∀ {α : Type} {write : α → Json} (as : List α), (∀ a, (write a).IsExact) →
      (Json.arr (as.map write)).IsExact := fun as h =>
    areExact_iff.2 (List.forall_mem_map.2 fun a _ => h a)
  exact ⟨harr doc.body Block.isExact_toJson, harr doc.comments Comment.isExact_toJson,
    harr doc.footnotes Note.isExact_toJson, harr doc.endnotes Note.isExact_toJson,
    SectionLayout.isExact_toJson? doc.finalSection, trivial⟩

/-- The numbers of the nodes are not written. -/
theorem toJson_unnumbered : doc.unnumbered.toJson = doc.toJson := by
  have hparagraphs : ∀ ps : List Paragraph,
      (ps.map Paragraph.unnumbered).map Paragraph.toJson = ps.map Paragraph.toJson := by
    intro ps
    rw [List.map_map]
    rfl
  simp [toJson, unnumbered, Function.comp_def, Block.toJson_unnumbered, Comment.toJson,
    Comment.unnumbered, Note.toJson, Note.unnumbered, hparagraphs]

theorem ofJson?_toJson : ofJson? doc.toJson = some doc.unnumbered.assignIds := by
  have hbody := list?_map fun b (_ : b ∈ doc.body) => b.ofJson?_toJson
  have hcomments := list?_map fun c (_ : c ∈ doc.comments) => c.ofJson?_toJson
  have hnotes : ∀ ns : List Note, list? Note.ofJson? (.arr (ns.map Note.toJson)) =
      some (ns.map Note.unnumbered) := fun ns => list?_map fun n _ => n.ofJson?_toJson
  rw [ofJson?, toJson, fields?_obj]
  · simp [hbody, hcomments, hnotes, unnumbered]
  · rfl
  · decide

/-- Only the body of a document can be nested deep. -/
theorem depth_toJson_le_of_body {d : Nat} (hd : 8 ≤ d) (h : ∀ b ∈ doc.body, b.toJson.depth ≤ d) :
    doc.toJson.depth ≤ d + 2 := by
  have hcomments : (Json.arr (doc.comments.map Comment.toJson)).depth ≤ d + 1 :=
    depth_arr_map_le fun c _ => c.depth_toJson_le_eight.trans hd
  have hnotes : ∀ ns : List Note, (Json.arr (ns.map Note.toJson)).depth ≤ d + 1 := fun ns =>
    depth_arr_map_le fun n _ => n.depth_toJson_le_eight.trans hd
  have hsection : (SectionLayout.toJson? doc.finalSection).depth ≤ d + 1 := by
    rw [SectionLayout.depth_toJson?]
    split <;> omega
  exact depth_obj_le (by simp [depth_arr_map_le h, hcomments, hnotes, hsection])

/-- Nineteen tables inside each other are not too deep. -/
theorem depth_toJson_le_of_nesting (h : ∀ b ∈ doc.body, b.nesting < 20) :
    doc.toJson.depth ≤ Reader.maxDepth := by
  refine (doc.depth_toJson_le_of_body (d := 120) (by decide) fun b hb => ?_).trans (by decide)
  have := b.depth_toJson_le_of_nesting
  have := h b hb
  omega

/-- Nothing is read of a body with a block that was too deep. -/
theorem ofJson?_cut (h : Reader.maxDepth < doc.toJson.depth) :
    ofJson? (cut Reader.maxDepth doc.toJson) = none := by
  obtain ⟨b, hb, hdeep⟩ : ∃ b ∈ doc.body, Reader.maxDepth - 2 < b.toJson.depth := by
    by_contra hnot
    push Not at hnot
    exact absurd (doc.depth_toJson_le_of_body (by decide) hnot) (Nat.not_le.2 h)
  have hread : Block.ofJson? (cut (Reader.maxDepth - 2) b.toJson) = none := by
    have hheld : hold? (cut (Reader.maxDepth - 2) b.toJson) = none := by
      rw [hold?, isReadable_cut hdeep]
      rfl
    rw [Block.ofJson?, hheld]
    rfl
  have hbody : list? Block.ofJson? (cut (Reader.maxDepth - 1) (.arr (doc.body.map Block.toJson))) =
      none := by
    rw [cut, Reader.nested, if_neg (by decide), cutItems_eq_map, List.map_map]
    exact list?_eq_none (List.mem_map.2 ⟨b, hb, rfl⟩) hread
  rw [ofJson?, toJson, cut, Reader.nested, if_neg (by decide), fields?_obj]
  · simp [cutMembers, hbody]
  · rfl
  · decide

/-- What a text holds that stands for the document. -/
theorem ofText_of_read? {s : String} (h : read? s = some (cut Reader.maxDepth doc.toJson)) :
    ofText s = if doc.toJson.depth ≤ Reader.maxDepth then .ok doc.unnumbered.assignIds
      else .error .badSnapshot := by
  rw [ofText, h, Option.bind_some]
  by_cases hle : doc.toJson.depth ≤ Reader.maxDepth
  · rw [cut_eq_self hle, ofJson?_toJson, if_pos hle]
  · rw [ofJson?_cut doc (Nat.lt_of_not_le hle), if_neg hle]

/-- A snapshot in either format is read as the document, numbered anew, unless it is too deep. -/
theorem ofText_write {write : Json → String} (h : write ∈ [compact, pretty]) :
    ofText (write doc.toJson) = if doc.toJson.depth ≤ Reader.maxDepth then
      .ok doc.unnumbered.assignIds else .error .badSnapshot := by
  simp only [List.mem_cons, List.not_mem_nil, or_false] at h
  rcases h with rfl | rfl
  · exact doc.ofText_of_read? (read?_compact doc.isExact_toJson)
  · exact doc.ofText_of_read? (read?_pretty doc.isExact_toJson)

/-! ## What is read is read again -/

theorem ofText_eq_ok_iff {doc : Document} {s : String} :
    ofText s = .ok doc ↔ (read? s).bind ofJson? = some doc := by
  cases h : (read? s).bind ofJson? <;> simp [ofText, h]

/-- A document that is read is one without numbers that has been numbered, and is written no
    deeper than it was. -/
theorem exists_of_ofJson? {j : Json} {doc : Document} (h : ofJson? j = some doc) :
    ∃ raw : Document, doc = raw.assignIds ∧ raw.unnumbered = raw ∧
      raw.toJson.depth ≤ j.depth := by
  obtain ⟨fs, hfs, h⟩ := Option.bind_eq_some_iff.1 h
  obtain ⟨hpos, hlt⟩ := depth_lt_of_fields? hfs
  split at h
  · obtain ⟨body, hbody, h⟩ := Option.bind_eq_some_iff.1 h
    obtain ⟨comments, hcomments, h⟩ := Option.bind_eq_some_iff.1 h
    obtain ⟨footnotes, hfootnotes, h⟩ := Option.bind_eq_some_iff.1 h
    obtain ⟨endnotes, hendnotes, h⟩ := Option.bind_eq_some_iff.1 h
    obtain ⟨finalSection, hsection, h⟩ := Option.bind_eq_some_iff.1 h
    obtain rfl := Option.some.inj h
    obtain ⟨v₁, rfl, hbody⟩ := Option.bind_eq_some_iff.1 hbody
    obtain ⟨v₂, rfl, hcomments⟩ := Option.bind_eq_some_iff.1 hcomments
    obtain ⟨v₃, rfl, hfootnotes⟩ := Option.bind_eq_some_iff.1 hfootnotes
    obtain ⟨v₄, rfl, hendnotes⟩ := Option.bind_eq_some_iff.1 hendnotes
    refine ⟨_, rfl, ?_, ?_⟩
    · rw [unnumbered, map_eq_of_list? hbody fun _ _ h => (Block.depth_toJson_le h).2,
        map_eq_of_list? hcomments fun _ _ h => (Comment.depth_toJson_le h).2,
        map_eq_of_list? hfootnotes fun _ _ h => (Note.depth_toJson_le h).2,
        map_eq_of_list? hendnotes fun _ _ h => (Note.depth_toJson_le h).2]
    · have h₁ := depth_le_of_list? hbody fun _ _ h => (Block.depth_toJson_le h).1
      have h₂ := depth_le_of_list? hcomments fun _ _ h => (Comment.depth_toJson_le h).1
      have h₃ := depth_le_of_list? hfootnotes fun _ _ h => (Note.depth_toJson_le h).1
      have h₄ := depth_le_of_list? hendnotes fun _ _ h => (Note.depth_toJson_le h).1
      have h₅ := SectionLayout.depth_toJson?_lt hsection hpos fun v hv => hlt v (by simp_all)
      simp only [toJson, depth_obj_le_iff, List.forall_mem_cons]
      exact ⟨hpos, h₁.trans_lt (hlt v₁ (by simp)), h₂.trans_lt (hlt v₂ (by simp)),
        h₃.trans_lt (hlt v₃ (by simp)), h₄.trans_lt (hlt v₄ (by simp)), h₅, by simp⟩
  · cases h

/-- A document that is read from any text is read again from its own snapshot. -/
theorem ofText_write_of_ofText {doc : Document} {s : String} (h : ofText s = .ok doc)
    {write : Json → String} (hwrite : write ∈ [compact, pretty]) :
    ofText (write doc.toJson) = .ok doc := by
  obtain ⟨j, hj, hdoc⟩ := Option.bind_eq_some_iff.1 (ofText_eq_ok_iff.1 h)
  obtain ⟨raw, rfl, hraw, hdepth⟩ := exists_of_ofJson? hdoc
  have htoJson : raw.assignIds.toJson = raw.toJson := by
    rw [← toJson_unnumbered, unnumbered_assignIds, toJson_unnumbered]
  rw [ofText_write _ hwrite, if_pos (htoJson ▸ hdepth.trans (depth_le_of_read? hj)),
    unnumbered_assignIds, hraw]

/-- Snapshots lose nothing but numbers. In either format the snapshot of a document is read if
    and only if it is not too deep, and nineteen tables inside each other are not. What is read
    has all fields of the document, and the numbers that the document gets when it is numbered
    anew, from 1 on in reading order. And what is read from any text is read again from its own
    snapshot. -/
theorem snapshot_keeps_document (doc : Document) :
    (∀ write ∈ [compact, pretty], ofText (write doc.toJson) =
      if doc.toJson.depth ≤ Reader.maxDepth then .ok doc.unnumbered.assignIds
      else .error .badSnapshot) ∧
    ((∀ b ∈ doc.body, b.nesting < 20) → doc.toJson.depth ≤ Reader.maxDepth) ∧
    doc.unnumbered.assignIds.unnumbered = doc.unnumbered ∧
    doc.unnumbered.assignIds.body = doc.assignIds.body ∧
    doc.unnumbered.assignIds.outline.map Placed.id =
      List.range' 1 doc.unnumbered.assignIds.lastId ∧
    ∀ s, ofText s = .ok doc → ∀ write ∈ [compact, pretty],
      ofText (write doc.toJson) = .ok doc := by
  refine ⟨fun write hwrite => doc.ofText_write hwrite, doc.depth_toJson_le_of_nesting, ?_,
    doc.assignIds_unnumbered ▸ rfl, map_id_outline_assignIds _, fun s h write hwrite => ofText_write_of_ofText h hwrite⟩
  rw [unnumbered_assignIds, unnumbered_unnumbered]

/-- A table with a comment on its text. -/
theorem snapshot_keeps_document_of_table :
    let doc : Document := {
      body := [.table { id := 1, rows := [{ id := 2, cells := [
        { content := [.paragraph { Paragraph.ofText "€" with id := 3 }] }] }] }]
      comments := [{ id := 7, content := [.ofText "why?"], parent := some 18446744073709551615 }]
      lastId := 3 }
    (∀ b ∈ doc.body, b.nesting < 20) ∧
      (∃ s, ofText s = .ok doc ∧ ofText (compact doc.toJson) = .ok doc) := by
  intro doc
  have hnesting : ∀ b ∈ doc.body, b.nesting < 20 := by
    simp [doc, Block.nesting_table, Table.map, Row.map, Cell.map, Table.items, Row.items]
  have hdepth := (snapshot_keeps_document doc).2.1 hnesting
  have hread : ofText (compact doc.toJson) = .ok doc :=
    (doc.ofText_write (by simp)).trans (if_pos hdepth)
  exact ⟨hnesting, _, hread, (snapshot_keeps_document doc).2.2.2.2.2 _ hread _ (by simp)⟩

end Document

/-! ## Snapshots that are too deep -/

/-- A text in tables, one in the other. -/
def Block.tower : Nat → Block
  | 0 => .paragraph (.ofText "deep")
  | n + 1 => .table { rows := [{ cells := [{ content := [tower n] }] }] }

theorem Block.depth_tower (n : Nat) : (tower n).toJson.depth = 6 * n + 6 := by
  induction n with
  | zero =>
    rw [tower, toJson_paragraph]
    simp [Paragraph.ofText, Paragraph.members, Inline.toJson, ofChoice, Run.toJson, Run.ofText,
      Json.depth, depthMembers, depthItems]
  | succ n ih =>
    rw [tower, toJson_table]
    simp [Table.toJson, Table.map, Row.toJson, Row.map, Cell.toJson, Cell.map, Json.depth,
      depthMembers, depthItems, ih]
    omega

/-- A document of a text in twenty tables has a snapshot in either format that is not read. -/
theorem Document.ofText_tower :
    ofText (compact ({ body := [.tower 20] } : Document).toJson) = .error .badSnapshot ∧
      ofText (pretty ({ body := [.tower 20] } : Document).toJson) = .error .badSnapshot := by
  have hdeep : ¬ ({ body := [.tower 20] } : Document).toJson.depth ≤ Reader.maxDepth := by
    simp [toJson, Json.depth, depthMembers, depthItems, Block.depth_tower, SectionLayout.toJson?,
      Reader.maxDepth]
  exact ⟨(ofText_write _ (by simp)).trans (if_neg hdeep),
    (ofText_write _ (by simp)).trans (if_neg hdeep)⟩

end DocTemplate
