import DocTemplate.Directive.Repetition
import DocTemplate.Proofs.Directive.Revision
import DocTemplate.Proofs.Document.Relation
import DocTemplate.Proofs.Placeholder.Blocks

/-!
# Repetitions

A repetition makes copies of its template, all of whose nodes have new numbers, and
exchanges the template for them. What it evaluates are the texts of its template,
once for each item.

* `Repetition.yields_copies`: the copies have the next numbers;
* `Repetition.yields_perform`: the template is exchanged for them;
* `Repetition.run_perform_congr`: two fillers do the same to a draft if they render the
  placeholders of the template alike.
-/

namespace DocTemplate

/-- Anchors have no text. -/
theorem Paragraph.text_keepAnchors (p : Paragraph) (keep : CommentId → Bool) :
    (p.keepAnchors keep).text = p.text := by
  rw [← String.toList_inj, toList_text, toList_text, keepAnchors]
  induction p.content with
  | nil => rfl
  | cons item items ih =>
    rw [List.filter_cons]
    split
    · rw [List.flatMap_cons, List.flatMap_cons, ih]
    · have hchars : item.chars = [] := by
        cases item <;> simp_all [Inline.commentId?, Inline.chars]
      rw [List.flatMap_cons, hchars, ih]
      rfl

/-- The texts of the paragraphs of some blocks, in reading order. -/
def Block.textsOf (blocks : List Block) : List String :=
  (paragraphsOf blocks).map Paragraph.text

theorem Block.textsOf_eq_flatMap (blocks : List Block) :
    textsOf blocks = (blocks.flatMap texts).map Paragraph.text := by
  simp only [textsOf, paragraphsOf, List.map_flatMap]
  refine List.flatMap_congr fun b _ => ?_
  rw [texts, List.map_map]
  rfl

theorem Block.textsOf_withoutAnchors (blocks : List Block) :
    textsOf (blocks.map withoutAnchors) = textsOf blocks := by
  have hmap : paragraphsOf (blocks.map withoutAnchors) =
      (paragraphsOf blocks).map fun p => p.keepAnchors fun _ => false :=
    paragraphsOf_mapParagraphs _ blocks
  rw [textsOf, textsOf, hmap, List.map_map]
  exact List.map_congr_left fun p _ => p.text_keepAnchors _

namespace Repetition

/-! ## Section breaks -/

theorem endWith_cons_cons (layout : SectionLayout) (b b' : Block) (bs : List Block) :
    endWith layout (b :: b' :: bs) = b :: endWith layout (b' :: bs) := by
  rw [endWith, endWith, List.getLast?_cons_cons]
  cases (b' :: bs).getLast? with
  | none => rfl
  | some last => cases last <;> rfl

/-- Related blocks that end with the same section break. -/
theorem related_endWith {I : NodeId → NodeId → Prop} {R : Paragraph → Paragraph → Prop}
    (layout : SectionLayout)
    (hR : ∀ p q, R p q → R { p with style := { p.style with sectionBreak := some layout } }
      { q with style := { q.style with sectionBreak := some layout } })
    {blocks blocks' : List Block} (h : List.Forall₂ (Block.Related I R) blocks blocks') :
    List.Forall₂ (Block.Related I R) (endWith layout blocks) (endWith layout blocks') := by
  induction h with
  | nil => exact .nil
  | @cons b b' bs bs' hb hbs ih =>
    cases hbs with
    | nil =>
      cases b with
      | paragraph p =>
        obtain ⟨q, rfl, hpq⟩ := Block.related_paragraph.1 hb
        exact .cons (Block.related_paragraph.2 ⟨_, rfl, hR p q hpq⟩) .nil
      | table t =>
        obtain ⟨t', rfl, ht⟩ := Block.related_table.1 hb
        exact .cons hb .nil
    | cons hc hcs =>
      rw [endWith_cons_cons, endWith_cons_cons]
      exact .cons hb ih

variable {f g : Filler} {template blocks : List Block} {d d' : Draft}

theorem ids_endWith (layout : SectionLayout) (blocks : List Block) :
    (endWith layout blocks).flatMap Block.ids = blocks.flatMap Block.ids := by
  rw [endWith]
  split
  · next p hlast =>
    obtain ⟨init, rfl⟩ := List.getLast?_eq_some_iff.1 hlast
    simp [Block.ids, Placed.id, Node.id]
  · rfl

/-- A copy is what filling makes of the template with new numbers. -/
theorem exists_of_yields_copy {item : Value} (h : (copy f template item).Yields d blocks d') :
    ∃ tally,
      f.fillBlocks item (d.document.numberBlocks (template.map Block.withoutAnchors)).1 =
        .ok (blocks, tally) ∧
      d' = ⟨(d.document.numberBlocks (template.map Block.withoutAnchors)).2,
        d.report.addExpressions tally.resolved tally.recovered⟩ := by
  rw [copy] at h
  obtain ⟨numbered, d₁, hnum, h⟩ := Revision.yields_bind.1 h
  obtain ⟨rfl, rfl⟩ := Revision.yields_edit.1 hnum
  obtain ⟨⟨filled, tally⟩, d₂, hfill, h⟩ := Revision.yields_bind.1 h
  obtain ⟨u, d₃, hcount, h⟩ := Revision.yields_bind.1 h
  obtain ⟨rfl, rfl⟩ := Revision.yields_pure.1 h
  obtain rfl := Revision.yields_count.1 hcount
  obtain ⟨hblocks, rfl⟩ := Revision.yields_liftM.1 hfill
  exact ⟨tally, hblocks, rfl⟩

/-- A copy has the next numbers. -/
theorem yields_copy {item : Value} (h : (copy f template item).Yields d blocks d') :
    ∃ last, d.document.lastId ≤ last ∧ d'.document = { d.document with lastId := last } ∧
      blocks.flatMap Block.ids =
        List.range' (d.document.lastId + 1) (last - d.document.lastId) := by
  obtain ⟨tally, hblocks, rfl⟩ := exists_of_yields_copy h
  obtain ⟨⟨last, hle, hdoc⟩, hids, -⟩ :=
    d.document.numberBlocks_spec (template.map Block.withoutAnchors)
  refine ⟨last, hle, hdoc, ?_⟩
  rw [Filler.ids_fillBlocks hblocks, hids, hdoc]

/-- Copies have the next numbers. -/
theorem yields_copies {layout : Option SectionLayout} {items : List Value}
    (h : (copies f template layout items).Yields d blocks d') :
    ∃ last, d.document.lastId ≤ last ∧ d'.document = { d.document with lastId := last } ∧
      blocks.flatMap Block.ids =
        List.range' (d.document.lastId + 1) (last - d.document.lastId) := by
  fun_induction copies f template layout items generalizing d blocks with
  | case1 =>
    obtain ⟨rfl, rfl⟩ := Revision.yields_pure.1 h
    exact ⟨d'.document.lastId, Nat.le_refl _, rfl, by simp⟩
  | case2 item => exact yields_copy h
  | case3 item items hitems ih =>
    obtain ⟨first, d₁, hfirst, h⟩ := Revision.yields_bind.1 h
    obtain ⟨rest, d₂, hrest, h⟩ := Revision.yields_bind.1 h
    obtain ⟨rfl, rfl⟩ := Revision.yields_pure.1 h
    obtain ⟨last, hle, hdoc, hids⟩ := yields_copy hfirst
    obtain ⟨last', hle', hdoc', hids'⟩ := ih hrest
    rw [hdoc] at hle' hdoc' hids'
    refine ⟨last', Nat.le_trans hle hle', hdoc', ?_⟩
    have hfirstIds : (layout.elim first fun layout => endWith layout first).flatMap Block.ids =
        first.flatMap Block.ids := by
      cases layout with
      | none => rfl
      | some layout => exact ids_endWith layout first
    dsimp only at hle' hids'
    rw [List.flatMap_append, hfirstIds, hids, hids', Numbering.next_append_next hle hle']

/-- The next numbers are new. -/
theorem lt_of_ids {lastId last : Nat}
    (h : blocks.flatMap Block.ids = List.range' (lastId + 1) (last - lastId)) {id : NodeId}
    (hid : id ∈ blocks.flatMap Block.ids) : lastId < id := by
  rw [h, List.mem_range'_1] at hid
  exact hid.1

/-- A repetition makes copies, and puts them in the place of the template if there is one. -/
theorem exists_of_yields_perform {i : Instruction} {items : List Value}
    (h : (perform f (.repeatBlocks i items)).Yields d () d') :
    ∃ generated d₁, (copies f (i.site.region.attached d.document) (restoredBreak i.site.region)
        items).Yields d generated d₁ ∧
      ((i.site.region.attached d.document = [] ∧ d' = d₁) ∨
        i.site.region.attached d.document ≠ [] ∧ ∃ removed doc,
          d₁.document.replaceBlocks? ((i.site.region.attached d.document).map Block.id) generated =
            some (removed, doc) ∧
          d' = ⟨doc, { d₁.report with
            blocksRepeated := d₁.report.blocksRepeated + UInt32.ofNat generated.length }⟩) := by
  rw [perform] at h
  obtain ⟨doc, d₁, hdoc, h⟩ := Revision.yields_bind.1 h
  obtain ⟨rfl, rfl⟩ := Revision.yields_document.1 hdoc
  obtain ⟨generated, d₂, hcopies, h⟩ := Revision.yields_bind.1 h
  refine ⟨generated, d₂, hcopies, ?_⟩
  cases htemplate : i.site.region.attached d₁.document with
  | nil =>
    rw [htemplate] at h
    exact .inl ⟨rfl, (Revision.yields_pure.1 h).2⟩
  | cons b bs =>
    rw [htemplate] at h
    obtain ⟨replaced, d₃, hreplace, h⟩ := Revision.yields_bind.1 h
    rcases Revision.yields_edit?.1 hreplace with ⟨removed, doc, hr, rfl, rfl⟩ | ⟨-, rfl, -⟩
    · exact .inr ⟨List.cons_ne_nil b bs, removed, doc, hr, Revision.yields_count.1 h⟩
    · exact absurd h Revision.yields_throw

/-- The copies have new numbers, so what is exchanged is the template for new nodes. -/
theorem yields_perform {i : Instruction} {items : List Value}
    (h : (perform f (.repeatBlocks i items)).Yields d () d') :
    ∃ last, d.document.lastId ≤ last ∧
      ((i.site.region.attached d.document = [] ∧
          d'.document = { d.document with lastId := last }) ∨
        i.site.region.attached d.document ≠ [] ∧ ∃ removed generated around,
          removed.map Block.id = (i.site.region.attached d.document).map Block.id ∧
          generated.flatMap Block.ids =
            List.range' (d.document.lastId + 1) (last - d.document.lastId) ∧
          ({ d.document with lastId := last } : Document).Exchange (Block.outlineOf removed around)
            (Block.outlineOf generated around) d'.document) := by
  obtain ⟨generated, d₁, hcopies, h⟩ := exists_of_yields_perform h
  obtain ⟨last, hle, hlast, hids⟩ := yields_copies hcopies
  refine ⟨last, hle, ?_⟩
  obtain ⟨hnil, rfl⟩ | ⟨hne, removed, doc, hr, rfl⟩ := h
  · exact .inl ⟨hnil, hlast⟩
  · rw [hlast] at hr
    obtain ⟨hmap, around, hex⟩ := Document.exchange_of_replaceBlocks? hr
    exact .inr ⟨hne, removed, generated, around, hmap, hids, hex⟩

/-! ## What a repetition evaluates -/

variable {evaluated : Value → String → Prop}

theorem run_copy_congr (h : f.Alike g evaluated) {item : Value}
    (ht : ∀ text ∈ Block.textsOf template, evaluated item text) (d : Draft) :
    (copy g template item).run d = (copy f template item).run d := by
  refine Revision.run_bind_congr rfl fun numbered d₁ hnum => ?_
  obtain ⟨rfl, rfl⟩ := Revision.yields_edit.1 hnum
  have htexts : Block.textsOf (d.document.numberBlocks (template.map Block.withoutAnchors)).1 =
      Block.textsOf template := by
    obtain ⟨-, -, htexts⟩ := d.document.numberBlocks_spec (template.map Block.withoutAnchors)
    rw [Block.textsOf_eq_flatMap, htexts, ← Block.textsOf_eq_flatMap, Block.textsOf_withoutAnchors]
  have hblocks : g.fillBlocks item (d.document.numberBlocks (template.map Block.withoutAnchors)).1 =
      f.fillBlocks item (d.document.numberBlocks (template.map Block.withoutAnchors)).1 := by
    refine Filler.fillBlocks_congr h fun p hp => ht _ ?_
    rw [← htexts]
    exact List.mem_map_of_mem hp
  simp only [hblocks]

theorem run_copies_congr (h : f.Alike g evaluated) {layout : Option SectionLayout}
    {items : List Value}
    (ht : ∀ item ∈ items, ∀ text ∈ Block.textsOf template, evaluated item text) (d : Draft) :
    (copies g template layout items).run d = (copies f template layout items).run d := by
  fun_induction copies f template layout items generalizing d with
  | case1 => rfl
  | case2 item => exact run_copy_congr h (ht item List.mem_cons_self) d
  | case3 item items hitems ih =>
    rw [copies.eq_3 _ _ _ _ _ hitems]
    refine Revision.run_bind_congr (run_copy_congr h (ht item List.mem_cons_self) d)
      fun first d₁ _ => ?_
    refine Revision.run_bind_congr ?_ fun rest d₂ _ => rfl
    exact ih (fun item hitem => ht item (List.mem_cons_of_mem _ hitem)) d₁

/-- A repetition evaluates the texts of its template in the scopes of its items. -/
theorem run_perform_congr (h : f.Alike g evaluated) {i : Instruction} {items : List Value}
    {d : Draft}
    (ht : ∀ item ∈ items, ∀ text ∈ Block.textsOf (i.site.region.attached d.document),
      evaluated item text) :
    (perform g (.repeatBlocks i items)).run d = (perform f (.repeatBlocks i items)).run d := by
  refine Revision.run_bind_congr rfl fun doc d₁ hdoc => ?_
  obtain ⟨rfl, rfl⟩ := Revision.yields_document.1 hdoc
  exact Revision.run_bind_congr (run_copies_congr h ht d₁) fun generated d₂ _ => rfl

end Repetition

end DocTemplate
