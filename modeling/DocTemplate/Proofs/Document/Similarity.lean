import DocTemplate.Comment.Removal
import DocTemplate.Proofs.Document.Graft
import DocTemplate.Proofs.Document.Relation
import DocTemplate.Proofs.Placeholder.Blocks

/-!
# Blocks up to numbers

Blocks are *similar* if only the numbers of their nodes may differ (`Block.Similar`). A block
that is numbered is similar to what it was, and what is made of similar blocks is similar,
whether placeholders are filled or others take the place of some of them.

A block is *plain* if it says nothing of numbers and of comments (`Block.plain`). Similar
blocks are the same when made plain.

* `Document.similar_numberBlocks`: numbering;
* `Filler.similar_fillBlocks`: filling placeholders;
* `Block.similar_graft`: grafts of similar blocks;
* `Block.map_plain_eq_of_similar`: plain blocks.
-/

namespace DocTemplate

section Layers

variable {α β : Type} {I : NodeId → NodeId → Prop} {R : α → β → Prop}

theorem Table.Related.flatMap {γ δ : Type} {S : γ → δ → Prop} {t : Table α} {t' : Table β}
    {f : α → List γ} {g : β → List δ} (h : t.Related I R t')
    (hfg : ∀ a b, R a b → List.Forall₂ S (f a) (g b)) : (t.flatMap f).Related I S (t'.flatMap g) where
  id := h.id
  styleId := h.styleId
  rows := by
    refine List.forall₂_map_left_iff.2 (List.forall₂_map_right_iff.2 (h.rows.imp fun r r' hr => ?_))
    refine ⟨hr.id, List.forall₂_map_left_iff.2 (List.forall₂_map_right_iff.2
      (hr.cells.imp fun c c' hc => ⟨hc.gridSpan, ?_⟩))⟩
    exact List.rel_flatMap hc.content fun a b hab => hfg a b hab

/-- The row with the number zero. -/
def Row.unnumbered (r : Row α) : Row α :=
  { r with id := 0 }

/-- The table with the number zero, for its rows as well. -/
def Table.unnumbered (t : Table α) : Table α :=
  { t with id := 0, rows := t.rows.map Row.unnumbered }

theorem Table.Related.unnumbered_eq {t t' : Table α} (h : t.Related I Eq t') :
    t'.unnumbered = t.unnumbered := by
  obtain ⟨id, rows, styleId⟩ := t
  obtain ⟨id', rows', styleId'⟩ := t'
  obtain ⟨-, hstyle, hrows⟩ := h
  have hmap : rows'.map Row.unnumbered = rows.map Row.unnumbered := by
    refine (List.forall₂_eq_eq_eq ▸ List.forall₂_map_left_iff.2 (List.forall₂_map_right_iff.2
      (hrows.imp fun r r' hr => ?_)) : rows.map Row.unnumbered = rows'.map Row.unnumbered).symm
    obtain ⟨rowId, cells⟩ := r
    obtain ⟨rowId', cells'⟩ := r'
    obtain rfl : cells = cells' := by
      refine List.forall₂_eq_eq_eq ▸ hr.cells.imp fun c c' hc => ?_
      obtain ⟨content, gridSpan⟩ := c
      obtain ⟨content', gridSpan'⟩ := c'
      obtain ⟨hspan, hcontent⟩ := hc
      obtain rfl : content = content' := List.forall₂_eq_eq_eq ▸ hcontent
      rw [show gridSpan' = gridSpan from hspan]
    rfl
  simp only [unnumbered]
  rw [hmap, show styleId' = styleId from hstyle]

end Layers

namespace Block

variable {I : NodeId → NodeId → Prop} {R : Paragraph → Paragraph → Prop}

/-- What is in a block is in a related one with the same numbers, if that has its
    paragraphs. -/
theorem Related.mem_subblocks {b b' x : Block} (h : Related Eq R b b') (hx : x ∈ b.subblocks)
    (hR : ∀ p ∈ x.paragraphs, ∀ q, R p q → q = p) : x ∈ b'.subblocks := by
  have hself : ∀ {b' : Block}, Related Eq R x b' → x ∈ b'.subblocks := by
    intro b' h
    rw [(h.imp_of_mem fun p hp q hpq => (hR p hp q hpq).symm : Related Eq Eq x b').eq]
    exact self_mem_subblocks b'
  induction b using Block.induction generalizing b' with
  | paragraph p =>
    obtain rfl : x = paragraph p := by simpa using hx
    exact hself h
  | table t ih =>
    rw [subblocks_table, List.mem_cons] at hx
    rcases hx with rfl | hx
    · exact hself h
    · obtain ⟨t', rfl, ht⟩ := related_table.1 h
      obtain ⟨b, hb, hx⟩ := List.mem_flatMap.1 hx
      obtain ⟨b', hb', hrel⟩ := ht.items.exists_of_mem_left hb
      exact subblocks_subset hb' (ih b hb hrel hx)

/-- The blocks differ in their numbers only. -/
def Similar : Block → Block → Prop :=
  Related (fun _ _ => True) fun p q => q.unnumbered = p.unnumbered

theorem Similar.refl (b : Block) : b.Similar b :=
  Related.refl (I := fun _ _ => True) (R := fun p q => q.unnumbered = p.unnumbered)
    (fun _ => trivial) (fun _ => rfl) b

theorem similar_refl (bs : List Block) : List.Forall₂ Similar bs bs :=
  List.forall₂_same.2 fun b _ => .refl b

/-- Grafts are similar if they put similar blocks in the same places. -/
theorem similar_graft {g g' : NodeId → Option (List Block)}
    (h : ∀ id, Option.Rel (List.Forall₂ Similar) (g id) (g' id)) (b : Block) :
    List.Forall₂ Similar (b.graft g) (b.graft g') := by
  have hgetD : ∀ {blocks blocks' : List Block} (id : NodeId), List.Forall₂ Similar blocks blocks' →
      List.Forall₂ Similar ((g id).getD blocks) ((g' id).getD blocks') := by
    intro blocks blocks' id hblocks
    have hid := h id
    generalize g id = x, g' id = y at hid
    cases hid with
    | none => exact hblocks
    | some h => exact h
  induction b using Block.induction with
  | paragraph p =>
    rw [graft_paragraph, graft_paragraph]
    exact hgetD _ (similar_refl _)
  | table t ih =>
    rw [graft_table, graft_table]
    refine hgetD _ (.cons (related_table.2 ⟨_, rfl, ?_⟩) .nil)
    have ht : t.Related (fun _ _ => True) (fun b b' => b ∈ t.items ∧ b' = b) t :=
      Table.related_self (fun _ => trivial) fun b hb => ⟨hb, rfl⟩
    exact ht.flatMap fun b b' hb => hb.2 ▸ ih b hb.1

/-! ## Plain blocks -/

end Block

/-- The paragraph without its number and without anchors of comments. -/
def Paragraph.plain (p : Paragraph) : Paragraph :=
  (p.keepAnchors fun _ => false).unnumbered

namespace Block

/-- The block without numbers and anchors of comments. -/
def plain : Block → Block :=
  fold (fun p => paragraph p.plain) fun t => table t.unnumbered

@[simp] theorem plain_paragraph (p : Paragraph) : (paragraph p).plain = paragraph p.plain := by
  simp [plain]

@[simp] theorem plain_table (t : Table Block) :
    (table t).plain = table (t.map plain).unnumbered := by
  rw [plain, fold_table]

/-- Blocks of one shape are the same when made plain if their paragraphs are. -/
theorem Related.plain_eq {b b' : Block}
    (h : Related (fun _ _ => True) (fun p q => q.plain = p.plain) b b') : b'.plain = b.plain := by
  refine h.induction (fun p q hpq => ?_) (fun t t' ht => ?_)
  · rw [plain_paragraph, plain_paragraph, hpq]
  · rw [plain_table, plain_table]
    refine congrArg table (Table.Related.unnumbered_eq (I := fun _ _ => True) ?_)
    exact Table.related_map.2 (ht.imp_of_mem fun _ _ _ hb => hb.2.symm)

theorem map_plain_eq_of_similar {bs bs' : List Block} (h : List.Forall₂ Similar bs bs') :
    bs'.map plain = bs.map plain := by
  have hplain : ∀ {p q : Paragraph}, q.unnumbered = p.unnumbered → q.plain = p.plain := by
    intro p q hpq
    exact congrArg (fun p : Paragraph => p.keepAnchors fun _ => false) hpq
  induction h with
  | nil => rfl
  | cons h _ ih => rw [List.map_cons, List.map_cons, ih, (h.imp fun _ _ => hplain).plain_eq]

end Block

/-! ## Numbering -/

namespace Numbering

variable {α β : Type} {R : α → β → Prop}

theorem forall₂_mapM {f : α → Numbering β} {as : List α}
    (h : ∀ a ∈ as, ∀ last, R a ((f a).run last).1) (last : Nat) :
    List.Forall₂ R as ((as.mapM f).run last).1 := by
  induction as generalizing last with
  | nil => exact .nil
  | cons a as ih =>
    rw [List.mapM_cons]
    exact .cons (h a List.mem_cons_self last) (ih (fun a ha => h a (List.mem_cons_of_mem _ ha)) _)

end Numbering

theorem Row.related_numbered {r : Row Block} (h : ∀ b ∈ r.items, ∀ last,
    b.Similar (b.numbered.run last).1) (last : Nat) :
    r.Related (fun _ _ => True) Block.Similar ((r.map Block.numbered).numbered.run last).1 := by
  refine ⟨trivial, ?_⟩
  change List.Forall₂ _ r.cells (((r.cells.map (Cell.map Block.numbered)).mapM
    fun cell : Cell (Numbering Block) => do
      let content ← cell.content.mapM fun item => item
      return (⟨content, cell.gridSpan⟩ : Cell Block)).run (last + 1)).1
  rw [List.mapM_map]
  refine Numbering.forall₂_mapM (fun c hc last => ⟨rfl, ?_⟩) _
  change List.Forall₂ _ c.content (((c.content.map Block.numbered).mapM fun item => item).run last).1
  rw [List.mapM_map]
  exact Numbering.forall₂_mapM (fun b hb => h b (List.mem_flatMap.2 ⟨c, hc, hb⟩)) _

theorem Block.similar_numbered (b : Block) (last : Nat) : b.Similar (b.numbered.run last).1 := by
  induction b using Block.induction generalizing last with
  | paragraph p =>
    rw [numbered, fold_paragraph]
    exact related_paragraph.2 ⟨_, rfl, rfl⟩
  | table t ih =>
    rw [numbered, fold_table]
    refine related_table.2 ⟨_, rfl, trivial, rfl, ?_⟩
    change List.Forall₂ _ t.rows
      (((t.rows.map (Row.map Block.numbered)).mapM Row.numbered).run (last + 1)).1
    rw [List.mapM_map]
    exact Numbering.forall₂_mapM (fun r hr => Row.related_numbered fun b hb =>
      ih b (List.mem_flatMap.2 ⟨r, hr, hb⟩)) _

theorem Document.similar_numberBlocks (doc : Document) (blocks : List Block) :
    List.Forall₂ Block.Similar blocks (doc.numberBlocks blocks).1 :=
  Numbering.forall₂_mapM (fun b _ => b.similar_numbered) _

/-! ## Filling -/

namespace Filler

variable (f : Filler) (scope : Value)

/-- Filling a paragraph has nothing to do with its number. -/
theorem agree_fillParagraph {p q : Paragraph} (h : q.unnumbered = p.unnumbered) :
    Except.Agree (fun a b => b.1.unnumbered = a.1.unnumbered ∧ b.2 = a.2)
      (f.fillParagraph scope p) (f.fillParagraph scope q) := by
  obtain ⟨id, content, style⟩ := p
  obtain ⟨id', content', style'⟩ := q
  obtain ⟨rfl, rfl⟩ : content' = content ∧ style' = style := by simpa [Paragraph.unnumbered] using h
  refine (Except.agree_refl (R := Eq) (fun _ => rfl) _).bind fun state _ h => ?_
  subst h
  exact .ok ⟨rfl, rfl⟩

/-- Similar blocks are filled alike. -/
theorem similar_fillBlocks {bs bs' : List Block} (h : List.Forall₂ Block.Similar bs bs') :
    Except.Agree (fun a b => List.Forall₂ Block.Similar a.1 b.1 ∧ b.2 = a.2)
      (f.fillBlocks scope bs) (f.fillBlocks scope bs') := by
  refine (Simulation.lockstep (ε := Error) (fun s t : Tally => t = s)).walkAll
    (fun around around' p q _ hpq tally _ htally => ?_) h {} {} rfl
  subst htally
  rw [run_visit, run_visit]
  exact (f.agree_fillParagraph scope hpq).map fun _ _ h => ⟨h.1, congrArg (Tally.add _) h.2⟩

end Filler

end DocTemplate
