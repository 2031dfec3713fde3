import DocTemplate.Proofs.Document.Place

/-!
# Edits in the outline

An edit by number exchanges one segment of the outline for another, and leaves
the rest of the document alone (`Document.Exchange`). What is said here of each
edit is which segment that is: the block or the row with the number, or the
blocks with the numbers.

* `Document.exchange_of_removeBlock?`, `Document.exchange_of_removeRow?`: a removal
  exchanges a node and what is in it for nothing;
* `Document.exchange_of_replaceBlocks?`: a replacement exchanges some neighbours
  for others, with the same cells around;
* `Document.exchange_of_modifyParagraph?`, `Document.exchange_of_modifyTable?`: a
  change of a block is one at its place.
-/

namespace DocTemplate

namespace Document

/-- The document `doc'` is `doc` with a segment of its outline exchanged for another. -/
structure Exchange (doc : Document) (old new : List Placed) (doc' : Document) : Prop where
  outline : ∃ pre post, doc.outline = pre ++ old ++ post ∧ doc'.outline = pre ++ new ++ post
  frame : ∃ body, doc' = { doc with body }

variable {doc doc' : Document} {id : NodeId}

namespace Exchange

variable {old new : List Placed}

theorem lastId (h : doc.Exchange old new doc') : doc'.lastId = doc.lastId := by
  obtain ⟨body, rfl⟩ := h.frame
  rfl

theorem comments (h : doc.Exchange old new doc') : doc'.comments = doc.comments := by
  obtain ⟨body, rfl⟩ := h.frame
  rfl

theorem subset (h : doc.Exchange old new doc') : old ⊆ doc.outline := by
  obtain ⟨pre, post, hout, -⟩ := h.outline
  intro e he
  rw [hout]
  simp [he]

/-- What the segments have in common at either end is not exchanged. -/
theorem shrink {pre post : List Placed} (h : doc.Exchange (pre ++ old ++ post) (pre ++ new ++ post) doc') :
    doc.Exchange old new doc' := by
  obtain ⟨before, after, hold, hnew⟩ := h.outline
  refine ⟨⟨before ++ pre, post ++ after, ?_, ?_⟩, h.frame⟩
  · simpa using hold
  · simpa using hnew

end Exchange

/-- A node at a path is a segment of the outline, with its place. -/
theorem IsAt.exists_exchange {path : Path} {xs : List Block} {k : Nat} {b : Block}
    (h : doc.IsAt path xs k b) : ∃ around, b.outline around ⊆ doc.outline ∧
      ∀ f blocks, xs.take k ++ blocks ++ xs.drop (k + 1) = f k xs →
        ∃ body, doc.modifySiblings? path f = some { doc with body } ∧
          doc.Exchange (b.outline around) (Block.outlineOf blocks around) { doc with body } := by
  obtain ⟨pre, post, around, hout, hmodify⟩ := h.exists_segment
  obtain ⟨as, bs, rfl, rfl⟩ := exists_append_of_getElem? h.block
  have hout : doc.outline = (pre ++ Block.outlineOf as around) ++ b.outline around ++
      (Block.outlineOf bs around ++ post) := by
    simp [hout]
  refine ⟨around, fun e he => by rw [hout]; simp [he], fun f blocks hf => ?_⟩
  obtain ⟨body, hbody, hout'⟩ := hmodify f
  refine ⟨body, hbody, ⟨_, _, hout, ?_⟩, body, rfl⟩
  have hf : f as.length (as ++ b :: bs) = as ++ blocks ++ bs := by
    rw [← hf]
    simp [List.drop_append]
  change Block.outlineOf body [] = _
  rw [hout', hf]
  simp

/-- A block at a path may be changed there. -/
theorem IsAt.exists_exchange_modifyBlock? {path : Path} {xs : List Block} {k : Nat} {b : Block}
    (h : doc.IsAt path xs k b) : ∃ around, ∀ b', ∃ d, doc.modifyBlock? path (fun _ => b') = some d ∧
      doc.Exchange (b.outline around) (b'.outline around) d := by
  obtain ⟨around, -, hmodify⟩ := h.exists_exchange
  refine ⟨around, fun b' => ?_⟩
  obtain ⟨hlt, -⟩ := List.getElem?_eq_some_iff.1 h.block
  obtain ⟨body, hbody, hex⟩ := hmodify (fun i blocks => blocks.modify i fun _ => b') [b']
    (by simp [List.modify_eq_take_cons_drop hlt])
  exact ⟨_, hbody, by simpa using hex⟩

/-- The node of a number is in the outline. -/
theorem node_mem_outline {b : Block} (h : doc.node? id = some b) :
    b.id = id ∧ ∃ around, b.outline around ⊆ doc.outline := by
  obtain ⟨path, hpath, hb⟩ := Option.bind_eq_some_iff.1 h
  obtain ⟨xs, k, b', hat, hid⟩ := exists_isAt hpath
  obtain rfl := Option.some.inj (hat.block?.symm.trans hb)
  obtain ⟨around, hsub, -⟩ := hat.exists_exchange
  exact ⟨hid, around, hsub⟩

/-- The paragraph of a number is in the outline. -/
theorem paragraph_mem_outline {p : Paragraph} (h : doc.paragraph? id = some p) :
    p.id = id ∧ ∃ around, ⟨.paragraph p, around⟩ ∈ doc.outline := by
  obtain ⟨b, hb, hp⟩ := Option.bind_eq_some_iff.1 h
  obtain ⟨hid, around, hsub⟩ := node_mem_outline hb
  cases b with
  | table t => cases hp
  | paragraph q =>
    obtain rfl := Option.some.inj hp
    exact ⟨hid, around, hsub (Block.node_mem_outline _ around)⟩

theorem table?_eq_some_iff {t : Table Block} :
    doc.table? id = some t ↔ doc.node? id = some (.table t) := by
  rw [table?, Option.bind_eq_some_iff]
  constructor
  · rintro ⟨b, hb, ht⟩
    cases b with
    | paragraph p => cases ht
    | table t' => rw [hb, Option.some.inj ht]
  · exact fun h => ⟨_, h, rfl⟩

/-- A number has a node if a paragraph or a table has the number. -/
theorem isSome_node?_iff :
    (doc.node? id).isSome ↔ ∃ e ∈ doc.outline, e.node.isBlock ∧ e.id = id := by
  cases hpath : doc.locate? id with
  | none =>
    have hnone : doc.node? id = none := by simp [node?, hpath]
    refine iff_of_false (by simp [hnone]) ?_
    rintro ⟨e, he, hblock, hid⟩
    exact locate?_eq_none_iff.1 hpath e he hblock hid
  | some path =>
    obtain ⟨xs, k, b, hat, hid⟩ := exists_isAt hpath
    obtain ⟨around, hsub, -⟩ := hat.exists_exchange
    have hsome : doc.node? id = some b := by simp [node?, hpath, hat.block?]
    refine iff_of_true (by simp [hsome]) ⟨_, hsub (b.node_mem_outline around), ?_, ?_⟩
    · cases b <;> rfl
    · exact b.id_node.trans hid

/-! ## Removals -/

theorem exchange_of_removeBlock? {b : Block} (h : doc.removeBlock? id = some (b, doc')) :
    b.id = id ∧ ∃ around, doc.Exchange (b.outline around) [] doc' := by
  obtain ⟨path, hpath, h⟩ := Option.bind_eq_some_iff.1 h
  obtain ⟨removed, hb, h⟩ := Option.bind_eq_some_iff.1 h
  obtain ⟨d, hd, h⟩ := Option.map_eq_some_iff.1 h
  obtain ⟨rfl, rfl⟩ := Prod.mk.inj h
  obtain ⟨xs, k, b', hat, hid⟩ := exists_isAt hpath
  obtain rfl := Option.some.inj (hat.block?.symm.trans hb)
  obtain ⟨around, -, hmodify⟩ := hat.exists_exchange
  obtain ⟨body, hbody, hex⟩ := hmodify (fun i blocks => blocks.eraseIdx i) []
    (by simp [List.eraseIdx_eq_take_drop_succ])
  obtain rfl := Option.some.inj (hbody.symm.trans hd)
  exact ⟨hid, around, hex⟩

/-- A removal fails only if no paragraph or table has the number. -/
theorem removeBlock?_eq_none_iff : doc.removeBlock? id = none ↔ doc.locate? id = none := by
  cases hpath : doc.locate? id with
  | none => simp [removeBlock?, hpath]
  | some path =>
    obtain ⟨xs, k, b, hat, -⟩ := exists_isAt hpath
    obtain ⟨around, -, hmodify⟩ := hat.exists_exchange
    obtain ⟨body, hbody, -⟩ := hmodify (fun i blocks => blocks.eraseIdx i) []
      (by simp [List.eraseIdx_eq_take_drop_succ])
    simp [removeBlock?, hpath, hat.block?, hbody]

theorem exchange_of_removeRow? {row : Row Block} (h : doc.removeRow? id = some (row, doc')) :
    row.id = id ∧ ∃ table around,
      doc.Exchange (row.outline Block.outline around table) [] doc' := by
  obtain ⟨⟨path, j⟩, hpath, h⟩ := Option.bind_eq_some_iff.1 h
  obtain ⟨t, ht, h⟩ := Option.bind_eq_some_iff.1 h
  obtain ⟨removed, hrow, h⟩ := Option.bind_eq_some_iff.1 h
  obtain ⟨d, hd, h⟩ := Option.map_eq_some_iff.1 h
  obtain ⟨rfl, rfl⟩ := Prod.mk.inj h
  obtain ⟨xs, k, t', row', hat, hrow', hid⟩ := exists_isAt_of_locateRow? hpath
  rw [hat.block?] at ht
  obtain rfl := Option.some.inj ht
  obtain rfl := Option.some.inj (hrow'.symm.trans hrow)
  obtain ⟨around, hmodify⟩ := hat.exists_exchange_modifyBlock?
  obtain ⟨d', hd', hex⟩ := hmodify (.table { t' with rows := t'.rows.eraseIdx j })
  obtain rfl := Option.some.inj (hd'.symm.trans hd)
  obtain ⟨pre, post, hall, -, herase⟩ := @Table.exists_segment _ Block.outline around _ _ _ hrow
  rw [Block.outline_table, Block.outline_table, hall, herase] at hex
  have hsegment : doc.Exchange (pre ++ row'.outline Block.outline around t'.id ++ post)
      (pre ++ [] ++ post) d' := by simpa using hex
  exact ⟨hid, t'.id, around, hsegment.shrink⟩

/-! ## Replacements -/

/-- The blocks that are replaced are neighbours in the container of the first one, and others
    take their place there. -/
theorem exists_of_replaceBlocks? {ids : List NodeId} {replacement removed : List Block}
    (h : doc.replaceBlocks? ids replacement = some (removed, doc')) :
    ∃ path xs k b, doc.IsAt path xs k b ∧ removed ≠ [] ∧ removed.map Block.id = ids ∧
      xs = xs.take k ++ removed ++ xs.drop (k + ids.length) ∧
        (doc.modifySiblings? path fun _ blocks =>
          blocks.take k ++ replacement ++ blocks.drop (k + ids.length)) = some doc' := by
  obtain ⟨first, hfirst, h⟩ := Option.bind_eq_some_iff.1 h
  obtain ⟨path, hpath, h⟩ := Option.bind_eq_some_iff.1 h
  obtain ⟨start, hstart, h⟩ := Option.bind_eq_some_iff.1 h
  obtain ⟨siblings, hsiblings, h⟩ := Option.bind_eq_some_iff.1 h
  obtain ⟨xs, k, b, hat, -⟩ := exists_isAt hpath
  obtain rfl := Option.some.inj (hat.last.symm.trans hstart)
  obtain rfl := Option.some.inj (hat.siblings?.symm.trans hsiblings)
  simp only [Option.ite_none_right_eq_some] at h
  obtain ⟨hids, h⟩ := h
  obtain ⟨d, hd, h⟩ := Option.map_eq_some_iff.1 h
  obtain ⟨rfl, rfl⟩ := Prod.mk.inj h
  refine ⟨path, xs, k, b, hat, fun hnil => ?_, hids, ?_, hd⟩
  · rw [← hids, hnil] at hfirst
    cases hfirst
  · rw [List.append_assoc, ← List.drop_drop, List.take_append_drop, List.take_append_drop]

theorem exchange_of_replaceBlocks? {ids : List NodeId} {replacement removed : List Block}
    (h : doc.replaceBlocks? ids replacement = some (removed, doc')) :
    removed.map Block.id = ids ∧ ∃ around,
      doc.Exchange (Block.outlineOf removed around) (Block.outlineOf replacement around) doc' := by
  obtain ⟨path, xs, k, b, hat, -, hids, hxs, hmodify⟩ := exists_of_replaceBlocks? h
  obtain ⟨pre, post, around, hout, hsegment⟩ := hat.exists_segment
  obtain ⟨body, hbody, hout'⟩ := hsegment fun _ blocks =>
    blocks.take k ++ replacement ++ blocks.drop (k + ids.length)
  obtain rfl := Option.some.inj (hbody.symm.trans hmodify)
  refine ⟨hids, around, ⟨pre ++ Block.outlineOf (xs.take k) around,
    Block.outlineOf (xs.drop (k + ids.length)) around ++ post, ?_, ?_⟩, body, rfl⟩
  · -- The siblings are those before the blocks, the blocks, and those after them.
    have hsplit : Block.outlineOf xs around = Block.outlineOf (xs.take k) around ++
        (Block.outlineOf removed around ++
          Block.outlineOf (xs.drop (k + ids.length)) around) := by
      rw [← Block.outlineOf_append, ← Block.outlineOf_append, ← List.append_assoc, ← hxs]
    rw [hout, hsplit]
    simp only [List.append_assoc]
  · change Block.outlineOf body [] = _
    rw [hout']
    simp

/-! ## Changes -/

theorem exchange_of_modifyParagraph? {f : Paragraph → Paragraph}
    (h : doc.modifyParagraph? id f = some doc') :
    ∃ p around, doc.paragraph? id = some p ∧
      doc.Exchange [⟨.paragraph p, around⟩] [⟨.paragraph (f p), around⟩] doc' := by
  obtain ⟨path, hpath, h⟩ := Option.bind_eq_some_iff.1 h
  obtain ⟨p, hp, h⟩ := Option.bind_eq_some_iff.1 h
  obtain ⟨xs, k, b, hat, -⟩ := exists_isAt hpath
  have hnode : doc.paragraph? id = some p := by
    simpa [paragraph?, node?, hpath] using hp
  obtain ⟨b', hb', hp⟩ := Option.bind_eq_some_iff.1 hp
  obtain rfl := Option.some.inj (hat.block?.symm.trans hb')
  cases b with
  | table t => cases hp
  | paragraph q =>
    obtain rfl := Option.some.inj hp
    obtain ⟨around, hmodify⟩ := hat.exists_exchange_modifyBlock?
    obtain ⟨d, hd, hex⟩ := hmodify (.paragraph (f q))
    obtain rfl := Option.some.inj (hd.symm.trans h)
    exact ⟨q, around, hnode, by simpa using hex⟩

/-- The paragraph is changed then. -/
theorem mem_outline_of_modifyParagraph? {f : Paragraph → Paragraph} {p : Paragraph}
    (h : doc.modifyParagraph? id f = some doc') (hp : doc.paragraph? id = some p) :
    ∃ around, ⟨.paragraph (f p), around⟩ ∈ doc'.outline := by
  obtain ⟨p', around, hp', hexchange⟩ := exchange_of_modifyParagraph? h
  obtain rfl := Option.some.inj (hp'.symm.trans hp)
  obtain ⟨pre, post, -, hout⟩ := hexchange.outline
  exact ⟨around, by simp [hout]⟩

/-- The paragraph of a number can be changed. -/
theorem exists_modifyParagraph? {p : Paragraph} (h : doc.paragraph? id = some p)
    (f : Paragraph → Paragraph) : ∃ doc', doc.modifyParagraph? id f = some doc' := by
  obtain ⟨b, hnode, hp⟩ := Option.bind_eq_some_iff.1 h
  obtain ⟨path, hpath, hb⟩ := Option.bind_eq_some_iff.1 hnode
  obtain ⟨xs, k, b', hat, -⟩ := exists_isAt hpath
  obtain ⟨around, hmodify⟩ := hat.exists_exchange_modifyBlock?
  obtain ⟨doc', hdoc, -⟩ := hmodify (.paragraph (f p))
  exact ⟨doc', by simp [modifyParagraph?, hpath, hb, hp, hdoc]⟩

theorem exchange_of_modifyTable? {f : Table Block → Table Block}
    (h : doc.modifyTable? id f = some doc') :
    ∃ t around, doc.table? id = some t ∧
      doc.Exchange ((Block.table t).outline around) ((Block.table (f t)).outline around) doc' := by
  obtain ⟨path, hpath, h⟩ := Option.bind_eq_some_iff.1 h
  obtain ⟨t, ht, h⟩ := Option.bind_eq_some_iff.1 h
  obtain ⟨xs, k, b, hat, -⟩ := exists_isAt hpath
  have hnode : doc.table? id = some t := by
    simpa [table?, node?, hpath] using ht
  obtain ⟨b', hb', ht⟩ := Option.bind_eq_some_iff.1 ht
  obtain rfl := Option.some.inj (hat.block?.symm.trans hb')
  cases b with
  | paragraph p => cases ht
  | table t' =>
    obtain rfl := Option.some.inj ht
    obtain ⟨around, hmodify⟩ := hat.exists_exchange_modifyBlock?
    obtain ⟨d, hd, hex⟩ := hmodify (.table (f t'))
    obtain rfl := Option.some.inj (hd.symm.trans h)
    exact ⟨t', around, hnode, hex⟩

end Document

end DocTemplate
