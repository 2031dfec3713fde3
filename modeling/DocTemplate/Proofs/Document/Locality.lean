import DocTemplate.Proofs.Directive.Revision
import DocTemplate.Proofs.Document.Address
import DocTemplate.Proofs.Document.Parallel

/-!
# Edits at one place

An edit by number changes one place of a document: what fills a hole before the edit and after
it differs by some neighbours, and what is around the hole is the same (`Document.Swaps`). Where
no number is given twice, the numbers say which place that is. So an edit is made exactly if the
numbers are there, and otherwise the draft stays as it is (`Revision.IsEdit`).

* `Document.exists_modifyTable?`, `Document.exists_swaps_modifyParagraph?`: changes;
* `Document.removeBlock?_eq_some_iff`, `Document.removeRow?_eq_some_iff`: removals;
* `Document.replaceBlocks?_eq_some_iff`: the replacement of neighbours;
* `Document.isEdit_of_nodup`: when each of them is made, and what it changes.
-/

namespace DocTemplate

namespace Document

/-- Some neighbours, at one place, are exchanged for others. All else stays. -/
def Swaps (doc : Document) (old new : List Block) (doc' : Document) : Prop :=
  ∃ (hole : Hole) (before after : List Block), doc.body = hole.fill (before ++ old ++ after) ∧
    doc' = { doc with body := hole.fill (before ++ new ++ after) }

/-- A row of one table is taken out. All else stays. -/
def DropsRow (doc : Document) (row : Row Block) (doc' : Document) : Prop :=
  ∃ (t : Table Block) (above below : List (Row Block)), t.rows = above ++ row :: below ∧
    doc.Swaps [.table t] [.table { t with rows := above ++ below }] doc'

/-- The list is the body, or the content of a cell. -/
def IsContainer (doc : Document) (xs : List Block) : Prop :=
  ∃ hole : Hole, doc.body = hole.fill xs

variable {doc doc' : Document} {id : NodeId} {hole : Hole} {before after : List Block} {b : Block}

/-- One block is exchanged. -/
theorem swaps_singleton_iff {new : List Block} : doc.Swaps [b] new doc' ↔
    ∃ (hole : Hole) (before after : List Block), doc.body = hole.fill (before ++ b :: after) ∧
      doc' = { doc with body := hole.fill (before ++ new ++ after) } := by
  simp only [Swaps, List.append_assoc, List.singleton_append]

theorem modifySiblings?_fill {xs : List Block} (hbody : doc.body = hole.fill xs) (k : Nat)
    (f : Nat → List Block → List Block) :
    doc.modifySiblings? (hole.path ++ [k]) f = some { doc with body := hole.fill (f k xs) } := by
  rw [modifySiblings?, List.getLast?_concat, Option.bind_some, List.dropLast_concat, hbody,
    hole.modifyContainer?_fill, Option.map_some]

/-- A block at a path may be changed there, and all else stays. -/
theorem modifyBlock?_fill (hbody : doc.body = hole.fill (before ++ b :: after)) (f : Block → Block) :
    doc.modifyBlock? (hole.path ++ [before.length]) f =
      some { doc with body := hole.fill (before ++ f b :: after) } := by
  rw [modifyBlock?, modifySiblings?_fill hbody]
  simp [List.modify_eq_take_drop]

/-! ## Changes -/

/-- Related blocks in a hole make related blocks. -/
theorem related_fill {R : Paragraph → Paragraph → Prop} (hR : ∀ p, R p p) (hole : Hole)
    {xs ys : List Block} (h : List.Forall₂ (Block.Related Eq R) xs ys) :
    List.Forall₂ (Block.Related Eq R) (hole.fill xs) (hole.fill ys) := by
  have hrefl : ∀ b, Block.Related Eq R b b := Block.Related.refl (fun _ => rfl) hR
  have hblocks : ∀ bs, List.Forall₂ (Block.Related Eq R) bs bs := fun bs =>
    List.forall₂_same.2 fun b _ => hrefl b
  have hcells : ∀ cs, List.Forall₂ (Cell.Related (Block.Related Eq R)) cs cs := fun cs =>
    List.forall₂_same.2 fun c _ => ⟨rfl, hblocks c.content⟩
  have hrows : ∀ rs, List.Forall₂ (Row.Related Eq (Block.Related Eq R)) rs rs := fun rs =>
    List.forall₂_same.2 fun r _ => ⟨rfl, hcells r.cells⟩
  induction hole with
  | nil => exact h
  | cons l hole ih =>
    refine List.rel_append (hblocks l.before) (.cons ?_ (hblocks l.after))
    refine Block.related_table.2 ⟨_, rfl, rfl, rfl, ?_⟩
    refine List.rel_append (hrows l.above) (.cons ⟨rfl, ?_⟩ (hrows l.below))
    exact List.rel_append (hcells l.left) (.cons ⟨rfl, ih⟩ (hcells l.right))

/-- If one block is exchanged for a related one, then the documents are related. -/
theorem Swaps.related {R : Paragraph → Paragraph → Prop} (hR : ∀ p, R p p) {b' : Block}
    (h : doc.Swaps [b] [b'] doc') (hb : b.Related Eq R b') : doc.Related R doc' := by
  obtain ⟨hole, before, after, hbody, rfl⟩ := h
  have hsiblings : ∀ bs, List.Forall₂ (Block.Related Eq R) bs bs := fun bs =>
    List.forall₂_same.2 fun b _ => Block.Related.refl (fun _ => rfl) hR b
  refine ⟨?_, rfl, rfl, rfl, rfl, rfl⟩
  rw [hbody]
  exact related_fill hR hole (List.rel_append (List.rel_append (hsiblings before) (.cons hb .nil))
    (hsiblings after))

/-- A paragraph that a number leads to may be changed there, and all else stays. The number leads
    to the changed one then, if that has the same number. -/
theorem exists_swaps_modifyParagraph? {p : Paragraph} (h : doc.paragraph? id = some p)
    {f : Paragraph → Paragraph} (hid : (f p).id = p.id) :
    ∃ doc', doc.modifyParagraph? id f = some doc' ∧
      doc.Swaps [.paragraph p] [.paragraph (f p)] doc' ∧ doc'.paragraph? id = some (f p) := by
  obtain ⟨b, hnode, hb⟩ := Option.bind_eq_some_iff.1 h
  obtain ⟨path, hpath, hat⟩ := Option.bind_eq_some_iff.1 hnode
  cases b with
  | table t => cases hb
  | paragraph p' =>
    obtain rfl := Option.some.inj hb
    obtain ⟨hole, before, after, rfl, hbody⟩ := block?_eq_some_iff.1 hat
    have hchange := modifyBlock?_fill hbody fun _ => Block.paragraph (f p')
    generalize hdoc : { doc with body := hole.fill (before ++ Block.paragraph (f p') :: after) } = doc'
      at hchange
    have hbody' : doc'.body = hole.fill (before ++ .paragraph (f p') :: after) := hdoc ▸ rfl
    have hswaps : doc.Swaps [.paragraph p'] [.paragraph (f p')] doc' :=
      swaps_singleton_iff.2 ⟨hole, before, after, hbody, by rw [← hdoc]; simp⟩
    refine ⟨doc', ?_, hswaps, ?_⟩
    · simp [modifyParagraph?, hpath, hat, Block.paragraph?, hchange]
    · -- The paragraphs have the same numbers at the same places, so the search ends there again.
      have hrelated := hswaps.related (R := fun p q => q.id = p.id) (fun _ => rfl)
        (Block.related_paragraph.2 ⟨_, rfl, hid⟩)
      have hpath' := (hrelated.locate?_eq (fun _ _ h => h) id).trans hpath
      rw [paragraph?, node?, hpath', Option.bind_some, (isAt_fill hbody').block?]
      rfl

/-- A table that a number leads to may be changed there, and all else stays. -/
theorem exists_modifyTable? {t : Table Block} (h : doc.table? id = some t)
    (f : Table Block → Table Block) : ∃ doc', doc.modifyTable? id f = some doc' ∧
      doc.Swaps [.table t] [.table (f t)] doc' := by
  obtain ⟨path, hpath, hat⟩ := Option.bind_eq_some_iff.1 (table?_eq_some_iff.1 h)
  obtain ⟨hole, before, after, rfl, hbody⟩ := block?_eq_some_iff.1 hat
  refine ⟨_, ?_, swaps_singleton_iff.2 ⟨hole, before, after, hbody, rfl⟩⟩
  simp [modifyTable?, hpath, hat, Block.table?, modifyBlock?_fill hbody]

/-! ## Removals -/

theorem removeBlock?_fill (hpath : doc.locate? id = some (hole.path ++ [before.length]))
    (hbody : doc.body = hole.fill (before ++ b :: after)) :
    doc.removeBlock? id = some (b, { doc with body := hole.fill (before ++ after) }) := by
  rw [removeBlock?, hpath, Option.bind_some, (isAt_fill hbody).block?, Option.bind_some,
    modifySiblings?_fill hbody, Option.map_some]
  simp [List.eraseIdx_append_of_length_le]

theorem removeRow?_fill {t : Table Block} {above below : List (Row Block)} {row : Row Block}
    (hpath : doc.locateRow? id = some (hole.path ++ [before.length], above.length))
    (hbody : doc.body = hole.fill (before ++ .table t :: after))
    (hrows : t.rows = above ++ row :: below) :
    doc.removeRow? id = some (row, { doc with
      body := hole.fill (before ++ .table { t with rows := above ++ below } :: after) }) := by
  have hrow : t.rows[above.length]? = some row := by simp [hrows]
  have herase : t.rows.eraseIdx above.length = above ++ below := by
    simp [hrows, List.eraseIdx_append_of_length_le]
  simp only [removeRow?, hpath, (isAt_fill hbody).block?, Block.table?, hrow, herase,
    modifyBlock?_fill hbody, Option.bind_some, Option.map_some]

section Nodup

variable (hnodup : (doc.outline.map Placed.id).Nodup)

include hnodup

theorem locate?_fill (hbody : doc.body = hole.fill (before ++ b :: after)) :
    doc.locate? b.id = some (hole.path ++ [before.length]) :=
  (locate?_eq_some_iff hnodup).2 ⟨b, (isAt_fill hbody).block?, rfl⟩

/-- A block is removed exactly if it has the number, from where it is. -/
theorem removeBlock?_eq_some_iff :
    doc.removeBlock? id = some (b, doc') ↔ b.id = id ∧ doc.Swaps [b] [] doc' := by
  constructor
  · intro h
    obtain ⟨path, hpath, -⟩ := Option.bind_eq_some_iff.1 h
    obtain ⟨x, hx, rfl⟩ := (locate?_eq_some_iff hnodup).1 hpath
    obtain ⟨hole, before, after, rfl, hbody⟩ := block?_eq_some_iff.1 hx
    obtain ⟨rfl, rfl⟩ := Prod.mk.inj (Option.some.inj ((removeBlock?_fill hpath hbody).symm.trans h))
    exact ⟨rfl, swaps_singleton_iff.2 ⟨hole, before, after, hbody, by rw [List.append_nil]⟩⟩
  · rintro ⟨rfl, hswaps⟩
    obtain ⟨hole, before, after, hbody, rfl⟩ := swaps_singleton_iff.1 hswaps
    rw [removeBlock?_fill (locate?_fill hnodup hbody) hbody, List.append_nil]

/-- A row is removed exactly if it has the number, from the table that it is in. -/
theorem removeRow?_eq_some_iff {row : Row Block} :
    doc.removeRow? id = some (row, doc') ↔ row.id = id ∧ doc.DropsRow row doc' := by
  constructor
  · intro h
    obtain ⟨⟨path, i⟩, hpath, -⟩ := Option.bind_eq_some_iff.1 h
    obtain ⟨t, x, ht, hx, rfl⟩ := (locateRow?_eq_some_iff hnodup).1 hpath
    obtain ⟨hole, before, after, rfl, hbody⟩ := block?_eq_some_iff.1 ht
    obtain ⟨above, below, hrows, rfl⟩ := exists_append_of_getElem? hx
    obtain ⟨rfl, rfl⟩ :=
      Prod.mk.inj (Option.some.inj ((removeRow?_fill hpath hbody hrows).symm.trans h))
    exact ⟨rfl, t, above, below, hrows,
      swaps_singleton_iff.2 ⟨hole, before, after, hbody, by simp⟩⟩
  · rintro ⟨rfl, t, above, below, hrows, hswaps⟩
    obtain ⟨hole, before, after, hbody, rfl⟩ := swaps_singleton_iff.1 hswaps
    have hpath : doc.locateRow? row.id = some (hole.path ++ [before.length], above.length) :=
      (locateRow?_eq_some_iff hnodup).2
        ⟨t, row, (isAt_fill hbody).block?, by simp [hrows], rfl⟩
    rw [removeRow?_fill hpath hbody hrows, List.append_assoc, List.singleton_append]

/-! ## Replacements -/

/-- Neighbours are replaced if the first one is found where they are. -/
theorem replaceBlocks?_fill {removed replacement : List Block} (hne : removed ≠ [])
    (hbody : doc.body = hole.fill (before ++ removed ++ after)) :
    doc.replaceBlocks? (removed.map Block.id) replacement = some (removed,
      { doc with body := hole.fill (before ++ replacement ++ after) }) := by
  -- The search is for the first number only; the others are compared with what follows it.
  obtain ⟨first, rest, rfl⟩ := List.exists_cons_of_ne_nil hne
  have hat : doc.body = hole.fill (before ++ first :: (rest ++ after)) := by simpa using hbody
  have hremoved : ((before ++ first :: (rest ++ after)).drop before.length).take
      ((first :: rest).map Block.id).length = first :: rest := by
    simp
  have htake : (before ++ first :: (rest ++ after)).take before.length = before := by simp
  have hdrop : (before ++ first :: (rest ++ after)).drop
      (before.length + ((first :: rest).map Block.id).length) = after := by
    rw [← List.drop_drop, List.drop_left]
    simp
  simp only [replaceBlocks?, List.head?_map, List.head?_cons, Option.map_some, Option.bind_some,
    locate?_fill hnodup hat, List.getLast?_concat, (isAt_fill hat).siblings?]
  rw [hremoved, if_pos rfl, modifySiblings?_fill hat, htake, hdrop, Option.map_some]

/-- Blocks are replaced exactly if they are neighbours and have the numbers, in this order. -/
theorem replaceBlocks?_eq_some_iff {ids : List NodeId} {replacement removed : List Block} :
    doc.replaceBlocks? ids replacement = some (removed, doc') ↔
      ids ≠ [] ∧ removed.map Block.id = ids ∧ doc.Swaps removed replacement doc' := by
  constructor
  · intro h
    obtain ⟨path, xs, k, b, hat, hne, rfl, hxs, hmodify⟩ := exists_of_replaceBlocks? h
    obtain ⟨hole, before, after, rfl, -, hsiblings, hbody⟩ := hat.exists_hole
    rw [← hsiblings] at hbody
    rw [modifySiblings?_fill hbody, Option.some.injEq] at hmodify
    exact ⟨by simpa using hne, rfl, hole, xs.take k, xs.drop (k + (removed.map Block.id).length),
      by rw [← hxs, hbody], hmodify.symm⟩
  · rintro ⟨hne, rfl, hole, before, after, hbody, rfl⟩
    exact replaceBlocks?_fill hnodup (by simpa using hne) hbody

/-! ## Where an edit is possible -/

/-- A block is in the document if it is at some place. -/
theorem mem_subblocks_iff_exists_hole : b ∈ doc.body.flatMap Block.subblocks ↔
    ∃ (hole : Hole) (before after : List Block),
      doc.body = hole.fill (before ++ b :: after) := by
  constructor
  · intro hb
    obtain ⟨path, hpath⟩ := exists_block?_of_mem_subblocks hnodup hb
    obtain ⟨hole, before, after, -, hbody⟩ := block?_eq_some_iff.1 hpath
    exact ⟨hole, before, after, hbody⟩
  · rintro ⟨hole, before, after, hbody⟩
    exact mem_subblocks_of_block? (isAt_fill hbody).block?

theorem exists_swaps_iff : (∃ b doc', b.id = id ∧ doc.Swaps [b] [] doc') ↔
    ∃ b ∈ doc.body.flatMap Block.subblocks, b.id = id := by
  constructor
  · rintro ⟨b, doc', hid, hswaps⟩
    obtain ⟨hole, before, after, hbody, -⟩ := swaps_singleton_iff.1 hswaps
    exact ⟨b, (mem_subblocks_iff_exists_hole hnodup).2 ⟨hole, before, after, hbody⟩, hid⟩
  · rintro ⟨b, hb, hid⟩
    obtain ⟨hole, before, after, hbody⟩ := (mem_subblocks_iff_exists_hole hnodup).1 hb
    exact ⟨b, _, hid, swaps_singleton_iff.2 ⟨hole, before, after, hbody, rfl⟩⟩

theorem exists_dropsRow_iff : (∃ row doc', row.id = id ∧ doc.DropsRow row doc') ↔
    ∃ t row, .table t ∈ doc.body.flatMap Block.subblocks ∧ row ∈ t.rows ∧ row.id = id := by
  constructor
  · rintro ⟨row, doc', hid, t, above, below, hrows, hswaps⟩
    obtain ⟨hole, before, after, hbody, -⟩ := swaps_singleton_iff.1 hswaps
    exact ⟨t, row, (mem_subblocks_iff_exists_hole hnodup).2 ⟨hole, before, after, hbody⟩,
      by simp [hrows], hid⟩
  · rintro ⟨t, row, ht, hrow, hid⟩
    obtain ⟨hole, before, after, hbody⟩ := (mem_subblocks_iff_exists_hole hnodup).1 ht
    obtain ⟨above, below, hrows⟩ := List.append_of_mem hrow
    exact ⟨row, _, hid, t, above, below, hrows,
      swaps_singleton_iff.2 ⟨hole, before, after, hbody, rfl⟩⟩

end Nodup

theorem exists_replacement_iff {ids : List NodeId} {replacement : List Block} :
    (∃ removed doc', ids ≠ [] ∧ removed.map Block.id = ids ∧
      doc.Swaps removed replacement doc') ↔
    ids ≠ [] ∧ ∃ xs, doc.IsContainer xs ∧ ids <:+: xs.map Block.id := by
  constructor
  · rintro ⟨removed, doc', hne, rfl, hole, before, after, hbody, -⟩
    exact ⟨hne, _, ⟨hole, hbody⟩, before.map Block.id, after.map Block.id, by simp⟩
  · rintro ⟨hne, xs, ⟨hole, hbody⟩, pre, post, hxs⟩
    obtain ⟨ys, after, rfl, hys, -⟩ := List.map_eq_append_iff.1 hxs.symm
    obtain ⟨before, removed, rfl, -, hremoved⟩ := List.map_eq_append_iff.1 hys
    exact ⟨removed, _, hne, hremoved, hole, before, after, hbody, rfl⟩

end Document

/-! ## Edits of a draft -/

/-- An edit of a draft is made whenever it is possible, and makes one change of the document, with
    what it takes out as the outcome. If it is not possible, then the draft stays as it is. -/
structure Revision.IsEdit {α : Type} (edit : Document → Option (α × Document)) (d : Draft)
    (possible : Prop) (change : α → Document → Prop) : Prop where
  isPossible : (∃ a d', (edit? edit).Yields d (some a) d') ↔ possible
  made (a : α) (d' : Draft) : (edit? edit).Yields d (some a) d' ↔
    ∃ doc, change a doc ∧ d' = { d with document := doc }
  unmade (d' : Draft) : (edit? edit).Yields d none d' ↔ ¬ possible ∧ d' = d

theorem Revision.IsEdit.of_iff {α : Type} {edit : Document → Option (α × Document)} {d : Draft}
    {possible : Prop} {change : α → Document → Prop}
    (hchange : ∀ a doc, edit d.document = some (a, doc) ↔ change a doc)
    (hpossible : (∃ a doc, change a doc) ↔ possible) : IsEdit edit d possible change where
  isPossible := by
    simp [yields_edit?, ← hpossible, hchange]
  made a d' := by
    simp [yields_edit?, hchange]
  unmade d' := by
    have hnone : edit d.document = none ↔ ¬ possible := by
      simp [← hpossible, ← hchange, Option.eq_none_iff_forall_ne_some]
    simp [yields_edit?, hnone]

namespace Document

/-- Where no number is given twice, an edit by number changes exactly one place, that of the
    number. -/
theorem isEdit_of_nodup {d : Draft} (hnodup : (d.document.outline.map Placed.id).Nodup) :
    (∀ id, Revision.IsEdit (removeBlock? · id) d
      (∃ b ∈ d.document.body.flatMap Block.subblocks, b.id = id)
      fun b doc => b.id = id ∧ d.document.Swaps [b] [] doc) ∧
    (∀ id, Revision.IsEdit (removeRow? · id) d
      (∃ t row, .table t ∈ d.document.body.flatMap Block.subblocks ∧ row ∈ t.rows ∧ row.id = id)
      fun row doc => row.id = id ∧ d.document.DropsRow row doc) ∧
    ∀ ids replacement, Revision.IsEdit (replaceBlocks? · ids replacement) d
      (ids ≠ [] ∧ ∃ xs, d.document.IsContainer xs ∧ ids <:+: xs.map Block.id)
      fun removed doc => ids ≠ [] ∧ removed.map Block.id = ids ∧
        d.document.Swaps removed replacement doc :=
  ⟨fun _ => .of_iff (fun _ _ => removeBlock?_eq_some_iff hnodup) (exists_swaps_iff hnodup),
    fun _ => .of_iff (fun _ _ => removeRow?_eq_some_iff hnodup) (exists_dropsRow_iff hnodup),
    fun _ _ => .of_iff (fun _ _ => replaceBlocks?_eq_some_iff hnodup) exists_replacement_iff⟩

/-- A table in a cell may be removed, and a row of it, and two paragraphs in that row replaced. But
    the table is not a row, and the paragraphs are not in the other order. -/
theorem isEdit_folded : (folded.outline.map Placed.id).Nodup ∧
    (∃ b doc, b.id = 6 ∧ folded.Swaps [b] [] doc) ∧
    (∃ row doc, row.id = 8 ∧ folded.DropsRow row doc) ∧
    (∃ removed doc, removed.map Block.id = [9, 10] ∧
      folded.Swaps removed [.paragraph { id := 12 }] doc) ∧
    (¬ ∃ t row, .table t ∈ folded.body.flatMap Block.subblocks ∧ row ∈ t.rows ∧ row.id = 6) ∧
    ¬ ∃ xs, folded.IsContainer xs ∧ [10, 9] <:+: xs.map Block.id := by
  have hnodup : (folded.outline.map Placed.id).Nodup := by decide +kernel
  obtain ⟨hblock, hrow, hreplace⟩ := @isEdit_of_nodup ⟨folded, {}⟩ hnodup
  refine ⟨hnodup, ?_, ?_, ?_, ?_, ?_⟩
  · obtain ⟨doc, hdoc, -⟩ := ((hblock 6).made _ _).1 rfl
    exact ⟨_, doc, hdoc⟩
  · obtain ⟨doc, hdoc, -⟩ := ((hrow 8).made _ _).1 rfl
    exact ⟨_, doc, hdoc⟩
  · obtain ⟨doc, ⟨-, hdoc⟩, -⟩ := ((hreplace [9, 10] [.paragraph { id := 12 }]).made _ _).1 rfl
    exact ⟨_, doc, hdoc⟩
  · exact (((hrow 6).unmade _).1 rfl).1
  · exact fun h => (((hreplace [10, 9] []).unmade _).1 rfl).1 ⟨by decide, h⟩

end Document

end DocTemplate
