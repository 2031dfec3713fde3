import DocTemplate.Proofs.Directive.Contiguity
import DocTemplate.Proofs.Document.Similarity
import Mathlib.Algebra.GroupWithZero.Nat

/-!
# Expansion

What repetitions make of the blocks of a document can be said without any numbering and
without an order of edits. A *slice* is a row of neighbouring blocks together with the items
that it is repeated for (`Slice`). It has one copy for each item (`Slice.copies`), and the
*expansion* of the document has the copies of every slice in its place, and all other
paragraphs filled (`Slice.expand`).

Repetitions one after the other come to that, up to numbers, where no two slices have a node
in common: each of them finds its slice as it was, whatever the others have put in the places
of theirs.

* `Repetition.similar_copies`: what a repetition makes of a template;
* `Slice.Pasted`: what holds after some repetitions, and `Slice.Pasted.perform`: a further one;
* `Slice.pasted_forM`: all repetitions.
-/

namespace DocTemplate

/-- Neighbouring blocks to be repeated. -/
structure Slice where
  /-- What comes before them in their container. -/
  before : List Block
  /-- The blocks. -/
  template : List Block
  /-- What comes after them in their container. -/
  after : List Block
  /-- What they are repeated for. -/
  items : List Value

namespace Slice

variable (s : Slice)

/-- The numbers of the blocks. -/
def ids : List NodeId :=
  s.template.map Block.id

/-- The numbers of the paragraphs in the blocks. -/
def paragraphIds : List NodeId :=
  (Block.paragraphsOf s.template).map Paragraph.id

/-- The section break of the paragraph right before the blocks. -/
def precedingBreak : Option SectionLayout :=
  (s.before.getLast?.bind Block.paragraph?).bind fun p => p.style.sectionBreak

/-- The number of section breaks that the blocks hold, not counting those in tables. -/
def breakCount : Nat :=
  ((s.template.filterMap Block.paragraph?).filter Paragraph.endsSection).length

/-- The section break that every copy but the last one ends with. -/
def layout : Option SectionLayout :=
  if s.breakCount % 2 = 1 then s.precedingBreak else none

/-- The copy for an item. -/
def copy (f : Filler) (item : Value) : Except Error (List Block) :=
  (f.fillBlocks item (s.template.map Block.withoutAnchors)).map Prod.fst

/-- Some copies one after the other, all but the last one with a section break at its end. -/
def join (layout : Option SectionLayout) (copies : List (List Block)) : List Block :=
  (copies.dropLast.map fun copy => layout.elim copy fun l => Repetition.endWith l copy).flatten ++
    copies.getLast?.getD []

/-- The copies for all items, one after the other. -/
def copies (f : Filler) : Except Error (List Block) := do
  return join s.layout (← s.items.mapM (s.copy f))

/-- The copies of some slices, in the places of these. -/
def paste (placed : List (Slice × List Block)) (id : NodeId) : Option (List Block) :=
  placed.findSome? fun (s, copies) => Block.swap s.ids copies id

/-- The blocks with the copies of slices in the places of these, and with all paragraphs
    outside of slices filled. -/
def expand (f : Filler) (scope : Value) (slices : List Slice) (blocks : List Block) :
    Except Error (List Block) := do
  let placed ← slices.mapM fun s => do return (s, ← s.copies f)
  let outside ← Block.walkAll (fun _ p =>
    if p.id ∈ slices.flatMap paragraphIds then return p
    else do return (← f.fillParagraph scope p).1) blocks
  return outside.flatMap (Block.graft (paste placed))

end Slice

/-! ## The copies -/

namespace Repetition

variable {f : Filler} {d d' : Draft} {blocks : List Block}

theorem length_endWith (layout : SectionLayout) (blocks : List Block) :
    (endWith layout blocks).length = blocks.length := by
  rw [endWith]
  split
  · next p hlast =>
    obtain ⟨init, rfl⟩ := List.getLast?_eq_some_iff.1 hlast
    simp
  · rfl

/-- Similar blocks that end with the same section break. -/
theorem similar_endWith (layout : SectionLayout) {blocks blocks' : List Block}
    (h : List.Forall₂ Block.Similar blocks blocks') :
    List.Forall₂ Block.Similar (endWith layout blocks) (endWith layout blocks') :=
  related_endWith layout (fun _ _ hpq => congrArg (fun p : Paragraph =>
    { p with style := { p.style with sectionBreak := some layout } }) hpq) h

/-- A copy is what filling the template makes of it. -/
theorem similar_copy {s : Slice} {item : Value}
    (h : (copy f s.template item).Yields d blocks d') :
    (∃ blocks', s.copy f item = .ok blocks' ∧ List.Forall₂ Block.Similar blocks' blocks) ∧
      blocks.length = s.template.length ∧ d'.report.blocksRepeated = d.report.blocksRepeated := by
  obtain ⟨tally, hblocks, rfl⟩ := exists_of_yields_copy h
  have hnumber := d.document.similar_numberBlocks (s.template.map Block.withoutAnchors)
  obtain ⟨⟨blocks', tally'⟩, hblocks', hsimilar, -⟩ :=
    (f.similar_fillBlocks item hnumber).exists_of_eq_ok hblocks
  have hlength : blocks'.length = (s.template.map Block.withoutAnchors).length :=
    Filler.length_fillBlocks hblocks'
  refine ⟨⟨blocks', by rw [Slice.copy, hblocks']; rfl, hsimilar⟩, ?_, rfl⟩
  rw [← hsimilar.length_eq, hlength, List.length_map]

/-- Copies one after the other are those for the items, joined. -/
theorem similar_copies {s : Slice} {layout : Option SectionLayout} {items : List Value}
    (h : (copies f s.template layout items).Yields d blocks d') :
    (∃ copies', items.mapM (s.copy f) = .ok copies' ∧
        List.Forall₂ Block.Similar (Slice.join layout copies') blocks) ∧
      blocks.length = items.length * s.template.length ∧
      d'.report.blocksRepeated = d.report.blocksRepeated := by
  generalize htemplate : s.template = template at h
  fun_induction copies f template layout items generalizing d blocks with
  | case1 =>
    obtain ⟨rfl, rfl⟩ := Revision.yields_pure.1 h
    exact ⟨⟨[], rfl, .nil⟩, by simp, rfl⟩
  | case2 item =>
    subst htemplate
    obtain ⟨⟨blocks', hcopy, hsimilar⟩, hlength, hcount⟩ := similar_copy h
    refine ⟨⟨[blocks'], ?_, by simpa [Slice.join] using hsimilar⟩, by simpa using hlength, hcount⟩
    exact Except.mapM_eq_ok_iff.2 (.cons hcopy .nil)
  | case3 item items hitems ih =>
    obtain ⟨first, d₁, hfirst, h⟩ := Revision.yields_bind.1 h
    obtain ⟨rest, d₂, hrest, h⟩ := Revision.yields_bind.1 h
    obtain ⟨rfl, rfl⟩ := Revision.yields_pure.1 h
    obtain ⟨⟨copies', hcopies, hsimilar'⟩, hlength', hcount'⟩ := ih hrest
    subst htemplate
    obtain ⟨⟨blocks', hcopy, hsimilar⟩, hlength, hcount⟩ := similar_copy hfirst
    have hmapM := Except.mapM_eq_ok_iff.2 (.cons hcopy (Except.mapM_eq_ok_iff.1 hcopies))
    refine ⟨⟨blocks' :: copies', hmapM, ?_⟩, ?_, hcount'.trans hcount⟩
    · -- The break stands before the second copy, and there is one.
      obtain ⟨second, others, rfl⟩ : ∃ second others, copies' = second :: others := by
        cases hmapM' : copies' with
        | nil =>
          rw [hmapM', Except.mapM_eq_ok_iff, List.forall₂_nil_right_iff] at hcopies
          exact absurd hcopies hitems
        | cons second others => exact ⟨second, others, rfl⟩
      have hjoin : Slice.join layout (blocks' :: second :: others) =
          (layout.elim blocks' fun l => endWith l blocks') ++ Slice.join layout (second :: others) := by
        simp [Slice.join]
      have hend : List.Forall₂ Block.Similar (layout.elim blocks' fun l => endWith l blocks')
          (layout.elim first fun l => endWith l first) := by
        cases layout with
        | none => exact hsimilar
        | some l => exact similar_endWith l hsimilar
      rw [hjoin]
      exact List.rel_append hend hsimilar'
    · have hend : (layout.elim first fun l => endWith l first).length = first.length := by
        cases layout with
        | none => rfl
        | some l => exact length_endWith l first
      rw [List.length_append, hend, hlength, hlength', List.length_cons, Nat.succ_mul, Nat.add_comm]

/-- What a repetition does to a document in which no number is given twice. -/
theorem graft_perform {i : Instruction} {items : List Value} (hnumbered : d.document.Numbered)
    (hne : i.site.region.attached d.document ≠ [])
    (h : (perform f (.repeatBlocks i items)).Yields d () d') :
    ∃ generated d₁, (copies f (i.site.region.attached d.document) (restoredBreak i.site.region)
        items).Yields d generated d₁ ∧
      d'.document = { d₁.document with body := d.document.body.flatMap (Block.graft
        (Block.swap ((i.site.region.attached d.document).map Block.id) generated)) } ∧
      d'.report.blocksRepeated = d₁.report.blocksRepeated + UInt32.ofNat generated.length := by
  obtain ⟨generated, d₁, hcopies, ⟨hnil, -⟩ | ⟨-, removed, doc, hr, rfl⟩⟩ :=
    exists_of_yields_perform h
  · exact absurd hnil hne
  · obtain ⟨last, -, hlast, -⟩ := yields_copies hcopies
    have hnodup : (d₁.document.body.flatMap Block.ids).Nodup := by
      rw [hlast, ← Block.map_id_outlineOf _ []]
      exact hnumbered.nodup
    refine ⟨generated, d₁, hcopies, ?_, rfl⟩
    rw [Document.replaceBlocks?_eq_graft hnodup hr, hlast]

end Repetition

/-! ## Repetitions one after the other -/

namespace Slice

/-- The numbers of all nodes in the blocks. -/
def nodes (s : Slice) : List NodeId :=
  s.template.flatMap Block.ids

theorem ids_subset_nodes (s : Slice) : s.ids ⊆ s.nodes :=
  Block.map_id_subset_flatMap_ids s.template

/-- The slice is in the document. -/
structure IsIn (s : Slice) (doc : Document) : Prop where
  ne_nil : s.template ≠ []
  subset : s.template ⊆ doc.body.flatMap Block.subblocks

theorem IsIn.le_lastId {s : Slice} {doc : Document} (h : s.IsIn doc) (hnumbered : doc.Numbered) :
    ∀ id ∈ s.ids, id ≤ doc.lastId := by
  intro id hid
  obtain ⟨b, hb, rfl⟩ := List.mem_map.1 hid
  obtain ⟨B, hB, hbB⟩ := List.mem_flatMap.1 (h.subset hb)
  have hmem : b.id ∈ doc.outline.map Placed.id := by
    rw [Document.outline, Block.map_id_outlineOf]
    exact List.mem_flatMap.2 ⟨B, hB, Block.id_mem_ids_of_mem_subblocks hbB⟩
  obtain ⟨x, hx, hxid⟩ := List.mem_map.1 hmem
  rw [← hxid]
  exact (hnumbered.bounds x hx).2

/-- The slice is what a repetition is about. -/
structure IsOf (s : Slice) (r : Instruction × List Value) : Prop where
  ids : s.ids = r.1.site.region.blocks
  layout : s.layout = Repetition.restoredBreak r.1.site.region
  items : s.items = r.2

theorem paste_eq_none_iff {placed : List (Slice × List Block)} {id : NodeId} :
    paste placed id = none ↔ ∀ x ∈ placed, id ∉ x.1.ids := by
  simp [paste, List.findSome?_eq_none_iff, Block.swap_eq_none_iff]

/-- Some slices of a document have been repeated, and nothing else was done. -/
structure Pasted (f : Filler) (start : Draft) (placed : List (Slice × List Block)) (d : Draft) :
    Prop where
  body : d.document.body = start.document.body.flatMap (Block.graft (paste placed))
  numbered : d.document.Numbered
  lastId_le : start.document.lastId ≤ d.document.lastId
  copies : ∀ x ∈ placed,
    ∃ copies, x.1.copies f = .ok copies ∧ List.Forall₂ Block.Similar copies x.2
  lt : ∀ x ∈ placed, ∀ id ∈ x.2.flatMap Block.ids, start.document.lastId < id
  count : d.report.blocksRepeated = start.report.blocksRepeated +
    UInt32.ofNat (placed.map fun x => x.1.items.length * x.1.template.length).sum

variable {f : Filler} {start d d' : Draft} {placed : List (Slice × List Block)} {s : Slice}

theorem pasted_nil (h : start.document.Numbered) : Pasted f start [] start where
  body := by
    have hnone : ∀ x ∈ start.document.body.flatMap Block.subblocks, paste [] x.id = none :=
      fun _ _ => rfl
    rw [Block.flatMap_graft_of_none hnone]
  numbered := h
  lastId_le := Nat.le_refl _
  copies := by simp
  lt := by simp
  count := by simp

/-- A slice is still as it was, if others have been repeated that it has no node in common
    with. -/
theorem Pasted.attached_eq (h : Pasted f start placed d) (hnumbered : start.document.Numbered)
    (hs : s.IsIn start.document) (hplaced : ∀ x ∈ placed, x.1.IsIn start.document)
    (hdisjoint : ∀ x ∈ placed, x.1.nodes.Disjoint s.nodes) {r : Region} (hr : s.ids = r.blocks) :
    r.attached d.document = s.template := by
  have hnodup : ∀ {doc : Document}, doc.Numbered → (doc.body.flatMap Block.ids).Nodup := by
    intro doc hdoc
    rw [← Block.map_id_outlineOf _ []]
    exact hdoc.nodup
  have hnode : ∀ b ∈ s.template, d.document.node? b.id = some b := by
    intro b hb
    have hbnodes : b.ids ⊆ s.nodes := fun id hid => List.mem_flatMap.2 ⟨b, hb, hid⟩
    refine (Document.node?_eq_some_iff (hnodup h.numbered)).2 ⟨?_, rfl⟩
    obtain ⟨B, hB, hbB⟩ := List.mem_flatMap.1 (hs.subset hb)
    rw [h.body, List.flatMap_assoc]
    refine List.mem_flatMap.2 ⟨B, hB, Block.mem_subblocks_graft hbB (fun y hy => ?_)
      fun y hy hby => ?_⟩
    · exact paste_eq_none_iff.2 fun x hx hid => hdisjoint x hx (x.1.ids_subset_nodes hid)
        (hbnodes (Block.id_mem_ids_of_mem_subblocks hy))
    · -- A block around it that is repeated would have it in common with the other slice.
      refine paste_eq_none_iff.2 fun x hx hid => ?_
      obtain ⟨z, hz, hzid⟩ := List.mem_map.1 hid
      obtain rfl := Block.eq_of_mem_subblocks (hnodup hnumbered) ((hplaced x hx).subset hz)
        (List.mem_flatMap.2 ⟨B, hB, hy⟩) hzid
      exact hdisjoint x hx (List.mem_flatMap.2 ⟨z, hz, Block.id_mem_ids_of_mem_subblocks hby⟩)
        (hbnodes b.id_mem_ids)
  rw [Region.attached, ← hr, ids, List.filterMap_map]
  refine (List.filterMap_congr (g := some) fun b hb => ?_).trans List.filterMap_some
  exact hnode b hb

/-- One more repetition. -/
theorem Pasted.perform (h : Pasted f start placed d) (hnumbered : start.document.Numbered)
    (hs : s.IsIn start.document) (hplaced : ∀ x ∈ placed, x.1.IsIn start.document)
    (hdisjoint : ∀ x ∈ placed, x.1.nodes.Disjoint s.nodes) {r : Instruction × List Value}
    (hr : s.IsOf r) (hy : (Repetition.perform f (.repeatBlocks r.1 r.2)).Yields d () d') :
    ∃ copies, Pasted f start (placed ++ [(s, copies)]) d' := by
  have hattached := h.attached_eq hnumbered hs hplaced hdisjoint hr.ids
  obtain ⟨generated, d₁, hcopies, hdoc, hcount⟩ :=
    Repetition.graft_perform h.numbered (hattached ▸ hs.ne_nil) hy
  rw [hattached] at hcopies hdoc
  rw [← hr.layout, ← hr.items] at hcopies
  obtain ⟨⟨copies', hcopies', hsimilar⟩, hlength, hcount'⟩ := Repetition.similar_copies hcopies
  obtain ⟨last, hle, hlast, hids⟩ := Repetition.yields_copies hcopies
  have hlt : ∀ id ∈ generated.flatMap Block.ids, start.document.lastId < id := fun id hid =>
    Nat.lt_of_le_of_lt h.lastId_le (Repetition.lt_of_ids hids hid)
  have hlastId : d'.document.lastId = last := by rw [hdoc, hlast]
  refine ⟨generated, ?_, Repetition.numbered_perform hy h.numbered, ?_, ?_, ?_, ?_⟩
  · -- What was pasted before has none of the numbers of the slice.
    have hleave : ∀ id blocks, paste placed id = some blocks →
        blocks.flatMap (Block.graft (Block.swap s.ids generated)) = blocks := by
      intro id blocks hpaste
      obtain ⟨x, hx, hswap⟩ := List.exists_of_findSome?_eq_some hpaste
      refine Block.flatMap_graft_swap_of_disjoint fun id' hid' hid'' => ?_
      rcases Block.eq_or_eq_nil_of_swap hswap with rfl | rfl
      · exact Nat.not_le.2 (h.lt x hx id' hid'') (hs.le_lastId hnumbered id' hid')
      · cases hid''
    have hpaste : paste (placed ++ [(s, generated)]) = fun id =>
        (paste placed id).or (Block.swap s.ids generated id) := by
      funext id
      simp [paste]
    rw [hpaste, ← Block.flatMap_graft_graft hleave, ← h.body, hdoc]
    rfl
  · exact (h.lastId_le.trans hle).trans_eq hlastId.symm
  · intro x hx
    rcases List.mem_append.1 hx with hx | hx
    · exact h.copies x hx
    · obtain rfl := List.mem_singleton.1 hx
      refine ⟨join s.layout copies', ?_, hsimilar⟩
      rw [Slice.copies, hcopies']
      rfl
  · intro x hx
    rcases List.mem_append.1 hx with hx | hx
    · exact h.lt x hx
    · obtain rfl := List.mem_singleton.1 hx
      exact hlt
  · rw [hcount, hcount', h.count, hlength, UInt32.add_assoc, ← UInt32.ofNat_add]
    simp

/-- All repetitions, one after the other. -/
theorem Pasted.forM (hnumbered : start.document.Numbered) {rs : List (Instruction × List Value)}
    {slices : List Slice} (hof : List.Forall₂ IsOf slices rs)
    (hin : ∀ s ∈ slices, s.IsIn start.document)
    (hplaced : ∀ x ∈ placed, x.1.IsIn start.document)
    (hdisjoint : (placed.map Prod.fst ++ slices).Pairwise fun s s' => s.nodes.Disjoint s'.nodes)
    (h : Pasted f start placed d)
    (hy : (rs.forM fun r => Repetition.perform f (.repeatBlocks r.1 r.2)).Yields d () d') :
    ∃ placed', placed'.map Prod.fst = placed.map Prod.fst ++ slices ∧ Pasted f start placed' d' := by
  induction hof generalizing placed d with
  | nil =>
    obtain ⟨-, rfl⟩ := Revision.yields_pure.1 hy
    exact ⟨placed, by simp, h⟩
  | @cons s r slices rs hr _ ih =>
    obtain ⟨u, d₁, hr', hy⟩ := Revision.yields_bind.1 hy
    have hs := hin s List.mem_cons_self
    obtain ⟨copies, hpasted⟩ := h.perform hnumbered hs hplaced (fun x hx =>
      (List.pairwise_append.1 hdisjoint).2.2 _ (List.mem_map_of_mem hx) _ List.mem_cons_self) hr hr'
    have hplaced' : ∀ x ∈ placed ++ [(s, copies)], x.1.IsIn start.document := by
      intro x hx
      rcases List.mem_append.1 hx with hx | hx
      · exact hplaced x hx
      · obtain rfl := List.mem_singleton.1 hx
        exact hs
    obtain ⟨placed', hmap, hpasted'⟩ := ih (fun s hs => hin s (List.mem_cons_of_mem _ hs)) hplaced'
      (by simpa using hdisjoint) hpasted hy
    exact ⟨placed', by simpa using hmap, hpasted'⟩

/-- Similar copies are pasted alike. -/
theorem rel_paste {placed placed' : List (Slice × List Block)}
    (h : List.Forall₂ (fun x y => x.1 = y.1 ∧ List.Forall₂ Block.Similar x.2 y.2) placed placed')
    (id : NodeId) : Option.Rel (List.Forall₂ Block.Similar) (paste placed id) (paste placed' id) := by
  induction h with
  | nil => exact .none
  | @cons x y placed placed' hxy _ ih =>
    obtain ⟨s, copies⟩ := x
    obtain ⟨s', copies'⟩ := y
    obtain ⟨heq, hcopies⟩ := hxy
    obtain rfl : s = s' := heq
    rw [paste, paste, List.findSome?_cons, List.findSome?_cons]
    dsimp only
    by_cases hid : id ∈ s.ids
    · rw [Block.swap, Block.swap, if_pos hid, if_pos hid]
      refine Option.Rel.some ?_
      split
      · exact hcopies
      · exact .nil
    · rw [Block.swap, Block.swap, if_neg hid, if_neg hid]
      exact ih

/-- What has been pasted is what the expansion has in the places of the slices. -/
theorem Pasted.exists_expand (h : Pasted f start placed d) {scope : Value} {blocks : List Block}
    (hwalk : Block.walkAll (fun _ p =>
      if p.id ∈ (placed.map Prod.fst).flatMap paragraphIds then Except.ok p
      else do return (← f.fillParagraph scope p).1) blocks = .ok start.document.body) :
    ∃ body, expand f scope (placed.map Prod.fst) blocks = .ok body ∧
      List.Forall₂ Block.Similar body d.document.body := by
  obtain ⟨placed', hmapM, hsimilar⟩ : ∃ placed',
      (placed.map Prod.fst).mapM (fun s => do return (s, ← s.copies f)) = Except.ok placed' ∧
        List.Forall₂ (fun x y => x.1 = y.1 ∧ List.Forall₂ Block.Similar x.2 y.2) placed' placed := by
    have hplaced : List.Forall₂ Eq placed placed := List.forall₂_same.2 fun _ _ => rfl
    obtain ⟨placed', hplaced', hsimilar⟩ := hplaced.exists_forall₂
      (S := fun x y => (do return (x.1, ← x.1.copies f)) = Except.ok (ε := Error) y)
      (T := fun x y => y.1 = x.1 ∧ List.Forall₂ Block.Similar y.2 x.2) (by
        rintro x hx _ rfl
        obtain ⟨copies, hcopies, hsimilar⟩ := h.copies x hx
        exact ⟨(x.1, copies), by rw [hcopies]; rfl, rfl, hsimilar⟩)
    refine ⟨placed', ?_, hsimilar.flip⟩
    rw [List.mapM_map]
    exact Except.mapM_eq_ok_iff.2 hplaced'
  refine ⟨start.document.body.flatMap (Block.graft (paste placed')), ?_, ?_⟩
  · exact Except.bind_eq_ok.2 ⟨placed', hmapM, Except.bind_eq_ok.2 ⟨_, hwalk, rfl⟩⟩
  · rw [h.body]
    have hself : List.Forall₂ Eq start.document.body start.document.body :=
      List.forall₂_same.2 fun _ _ => rfl
    refine List.rel_flatMap hself ?_
    rintro b _ rfl
    exact Block.similar_graft (rel_paste hsimilar) b

end Slice

end DocTemplate
