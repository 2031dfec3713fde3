import DocTemplate.Proofs.Document.Similarity

/-!
# Documents without their numbers

A document without the numbers of its nodes (`Document.unnumbered`) is all that numbering
depends on, and all that numbering keeps.

* `Block.Similar.unnumbered_eq`: similar blocks are the same without their numbers;
* `Document.assignIds_unnumbered`, `Document.unnumbered_assignIds`: a document may lose its
  numbers before or after it is numbered.
-/

namespace DocTemplate

section Layers

variable {α β : Type}

/-- A table is numbered as it is without its numbers. -/
theorem Table.numbered_unnumbered (t : Table (Numbering α)) :
    t.unnumbered.numbered = t.numbered := by
  simp only [numbered, unnumbered, List.mapM_map]
  rfl

theorem Table.unnumbered_unnumbered (t : Table α) : t.unnumbered.unnumbered = t.unnumbered := by
  simp [unnumbered, Row.unnumbered]

theorem Table.map_unnumbered (f : α → β) (t : Table α) :
    t.unnumbered.map f = (t.map f).unnumbered := by
  simp [unnumbered, map, Row.unnumbered, Row.map]

theorem Table.map_map {γ : Type} (f : α → β) (g : β → γ) (t : Table α) :
    (t.map f).map g = t.map fun a => g (f a) := by
  simp [map, Row.map, Cell.map]

/-- The items of two tables are the same if those of one table are changed alike. -/
theorem Table.map_congr {f g : α → β} {t : Table α} (h : ∀ a ∈ t.items, f a = g a) :
    t.map f = t.map g :=
  (Table.related_map.2 (Table.related_self (fun _ => rfl) h)).eq

end Layers

namespace Block

/-- The block without the numbers of its nodes. -/
def unnumbered : Block → Block :=
  fold (fun p => paragraph p.unnumbered) fun t => table t.unnumbered

@[simp] theorem unnumbered_paragraph (p : Paragraph) :
    (paragraph p).unnumbered = paragraph p.unnumbered := by
  simp [unnumbered]

@[simp] theorem unnumbered_table (t : Table Block) :
    (table t).unnumbered = table (t.map unnumbered).unnumbered := by
  rw [unnumbered, fold_table]

theorem Similar.unnumbered_eq {b b' : Block} (h : b.Similar b') : b'.unnumbered = b.unnumbered :=
  (Related.fold (S := Eq) h (fun _ _ hpq => congrArg paragraph hpq.symm)
    fun _ _ ht => congrArg table ht.unnumbered_eq.symm).symm

theorem unnumbered_unnumbered (b : Block) : b.unnumbered.unnumbered = b.unnumbered := by
  induction b using Block.induction with
  | paragraph p => simp [Paragraph.unnumbered]
  | table t ih =>
    rw [unnumbered_table, unnumbered_table, Table.map_unnumbered, Table.map_map,
      Table.map_congr ih, Table.unnumbered_unnumbered]

theorem numbered_unnumbered (b : Block) : b.unnumbered.numbered = b.numbered := by
  induction b using Block.induction with
  | paragraph p => simp [numbered, Paragraph.unnumbered]
  | table t ih =>
    have hitems : (t.map unnumbered).unnumbered.map numbered = (t.map numbered).unnumbered := by
      rw [Table.map_unnumbered, Table.map_map, Table.map_congr ih]
    rw [unnumbered_table]
    simp only [numbered, fold_table] at hitems ⊢
    rw [hitems, Table.numbered_unnumbered]

end Block

/-- The comment without the numbers of its paragraphs. -/
def Comment.unnumbered (c : Comment) : Comment :=
  { c with content := c.content.map Paragraph.unnumbered }

/-- The note without the numbers of its paragraphs. -/
def Note.unnumbered (n : Note) : Note :=
  { n with content := n.content.map Paragraph.unnumbered }

namespace Document

variable (doc : Document)

/-- The document without the numbers of its nodes. -/
def unnumbered : Document where
  body := doc.body.map Block.unnumbered
  comments := doc.comments.map Comment.unnumbered
  footnotes := doc.footnotes.map Note.unnumbered
  endnotes := doc.endnotes.map Note.unnumbered
  finalSection := doc.finalSection

theorem unnumbered_unnumbered : doc.unnumbered.unnumbered = doc.unnumbered := by
  have hparagraphs : ∀ ps : List Paragraph,
      (ps.map Paragraph.unnumbered).map Paragraph.unnumbered = ps.map Paragraph.unnumbered := by
    intro ps
    rw [List.map_map]
    rfl
  simp [unnumbered, Block.unnumbered_unnumbered, Comment.unnumbered, Note.unnumbered, hparagraphs]

/-- A document gets the same numbers if its nodes had others before. -/
theorem assignIds_unnumbered : doc.unnumbered.assignIds =
    { doc.unnumbered with body := doc.assignIds.body, lastId := doc.assignIds.lastId } := by
  have hmap : (doc.body.map Block.unnumbered).mapM Block.numbered =
      doc.body.mapM Block.numbered := by
    simp only [List.mapM_map, Function.comp_def, Block.numbered_unnumbered]
  have hrun : doc.unnumbered.assignIds =
      { doc.unnumbered with
        body := (((doc.body.map Block.unnumbered).mapM Block.numbered).run 0).1
        lastId := (((doc.body.map Block.unnumbered).mapM Block.numbered).run 0).2 } := rfl
  rw [hrun, hmap]
  rfl

/-- Numbers that are given make no other difference. -/
theorem unnumbered_assignIds : doc.assignIds.unnumbered = doc.unnumbered := by
  have hbody : doc.assignIds.body.map Block.unnumbered = doc.body.map Block.unnumbered :=
    (similar_numberBlocks { doc with lastId := 0 } doc.body).map_eq fun _ _ hb => hb.unnumbered_eq
  rw [unnumbered, hbody]
  rfl

end Document

end DocTemplate
