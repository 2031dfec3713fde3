import DocTemplate.Proofs.Document.Edit
import DocTemplate.Proofs.Document.Numbering
import DocTemplate.Proofs.Except
import Mathlib.Data.List.Nodup

/-!
# Descent

What edits make of a document whose nodes are numbered up to `n`: nodes go, nodes
with new numbers come, and of a node that stays only the paragraph changes. So the
*original* nodes of the edited document, those numbered up to `n`, are some of the
nodes that were there, with the same cells around and in the same order
(`Document.Descends`). How a paragraph may change is a parameter `R` of the relation.

* `Document.Exchange.descends`: an exchange of segments is a step of descent if it
  brings no original node that was not there;
* `Document.Descends.trans`: steps add up;
* `Document.Descends.locate?_eq_none`: what is gone does not come back;
* `Document.Exchange.not_mem`: what is exchanged for new nodes is gone;
* `Document.exists_table_of_around`: the table around a node that stays, stays.
-/

namespace DocTemplate

/-- Whether the node has one of the first `n` numbers. -/
def Placed.isOriginal (n : Nat) (e : Placed) : Bool :=
  0 < e.id && e.id ≤ n

theorem Placed.isOriginal_iff {n : Nat} {e : Placed} : e.isOriginal n ↔ 0 < e.id ∧ e.id ≤ n := by
  simp [isOriginal]

theorem Placed.isOriginal_eq_false {n : Nat} {e : Placed} (h : n < e.id) :
    e.isOriginal n = false := by
  rw [Bool.eq_false_iff, ne_eq, isOriginal_iff]
  exact fun ho => Nat.not_le.2 h ho.2

/-- The same node at the same place, with a change to it if it is a paragraph. -/
inductive Placed.Becomes (R : List CellPosition → Paragraph → Paragraph → Prop) :
    Placed → Placed → Prop
  | paragraph {p q : Paragraph} {around : List CellPosition} (hid : q.id = p.id)
      (h : R around p q) : Becomes R ⟨.paragraph p, around⟩ ⟨.paragraph q, around⟩
  | table {id : NodeId} {around : List CellPosition} :
      Becomes R ⟨.table id, around⟩ ⟨.table id, around⟩
  | row {id : NodeId} {around : List CellPosition} :
      Becomes R ⟨.row id, around⟩ ⟨.row id, around⟩

variable {R : List CellPosition → Paragraph → Paragraph → Prop} {n : Nat}

namespace Placed.Becomes

variable {e e' e'' : Placed}

theorem refl (hrefl : ∀ a p, R a p p) (e : Placed) : Becomes R e e := by
  rcases e with ⟨p | id | id, around⟩
  · exact .paragraph rfl (hrefl around p)
  · exact .table
  · exact .row

theorem trans (htrans : ∀ a p q r, R a p q → R a q r → R a p r) (h : Becomes R e e')
    (h' : Becomes R e' e'') : Becomes R e e'' := by
  cases h with
  | paragraph hid h =>
    cases h' with
    | paragraph hid' h' => exact .paragraph (hid'.trans hid) (htrans _ _ _ _ h h')
  | table => exact h'
  | row => exact h'

/-- A change of the paragraph may be known by less. -/
theorem imp {R' : List CellPosition → Paragraph → Paragraph → Prop}
    (hR : ∀ a p q, R a p q → R' a p q) (h : Becomes R e e') : Becomes R' e e' := by
  cases h with
  | paragraph hid h => exact .paragraph hid (hR _ _ _ h)
  | table => exact .table
  | row => exact .row

theorem id_eq (h : Becomes R e e') : e'.id = e.id := by
  cases h with
  | paragraph hid _ => exact hid
  | table => rfl
  | row => rfl

theorem around_eq (h : Becomes R e e') : e'.around = e.around := by
  cases h <;> rfl

theorem isBlock_eq (h : Becomes R e e') : e'.node.isBlock = e.node.isBlock := by
  cases h <;> rfl

theorem eq_of_table {id : NodeId} {around : List CellPosition}
    (h : Becomes R e ⟨.table id, around⟩) : e = ⟨.table id, around⟩ := by
  cases h
  rfl

theorem table_eq {id : NodeId} {around : List CellPosition}
    (h : Becomes R ⟨.table id, around⟩ e') : e' = ⟨.table id, around⟩ := by
  cases h
  rfl

/-- A node that may only become itself is unchanged. -/
theorem eq (h : Becomes (fun _ p q => q = p) e e') : e' = e := by
  cases h with
  | paragraph _ h => rw [h]
  | table => rfl
  | row => rfl

/-- Nodes that become others keep their numbers. -/
theorem map_id_eq {es es' : List Placed} (h : List.Forall₂ (Becomes R) es es') :
    es'.map Placed.id = es.map Placed.id := by
  induction h with
  | nil => rfl
  | cons he _ ih => rw [List.map_cons, List.map_cons, he.id_eq, ih]

end Placed.Becomes

/-- The numbers of the original nodes among some nodes. -/
def Placed.originalIds (n : Nat) (es : List Placed) : List NodeId :=
  (es.filter (isOriginal n)).map id

theorem Placed.originalIds_eq_filter (es : List Placed) :
    originalIds n es = (es.map id).filter fun i => 0 < i && i ≤ n := by
  rw [List.filter_map]
  rfl

theorem Placed.originalIds_congr {es es' : List Placed} (h : es'.map id = es.map id) :
    originalIds n es' = originalIds n es := by
  rw [originalIds_eq_filter, originalIds_eq_filter, h]

/-- Where no original number is there twice, it names one node. -/
theorem Placed.eq_of_id_eq {es : List Placed} (hnodup : (originalIds n es).Nodup) {e e' : Placed}
    (he : e ∈ es) (he' : e' ∈ es) (ho : e.isOriginal n) (hid : e'.id = e.id) : e' = e := by
  have ho' : e'.isOriginal n := by rw [isOriginal, hid]; exact ho
  exact List.inj_on_of_nodup_map hnodup (List.mem_filter.2 ⟨he', ho'⟩)
    (List.mem_filter.2 ⟨he, ho⟩) hid

/-- The nodes `es'` are what edits make of the nodes `es`, as far as the original
    ones go; the changes of paragraphs are in `R`. -/
structure Placed.Descend (R : List CellPosition → Paragraph → Paragraph → Prop) (n : Nat)
    (es es' : List Placed) : Prop where
  mem : ∀ e' ∈ es', e'.isOriginal n → ∃ e ∈ es, e.Becomes R e'
  ids : (Placed.originalIds n es').Sublist (Placed.originalIds n es)

namespace Placed.Descend

variable {es es' es'' fs fs' : List Placed}

theorem refl (hrefl : ∀ a p, R a p p) (es : List Placed) : Descend R n es es where
  mem e he _ := ⟨e, he, .refl hrefl e⟩
  ids := .refl _

theorem trans (htrans : ∀ a p q r, R a p q → R a q r → R a p r) (h : Descend R n es es')
    (h' : Descend R n es' es'') : Descend R n es es'' where
  mem e'' he'' ho := by
    obtain ⟨e', he', hb'⟩ := h'.mem e'' he'' ho
    have ho' : e'.isOriginal n := by rw [isOriginal, ← hb'.id_eq]; exact ho
    obtain ⟨e, he, hb⟩ := h.mem e' he' ho'
    exact ⟨e, he, hb.trans htrans hb'⟩
  ids := h'.ids.trans h.ids

theorem append (h : Descend R n es es') (h' : Descend R n fs fs') :
    Descend R n (es ++ fs) (es' ++ fs') where
  mem e' he' ho := by
    rcases List.mem_append.1 he' with he' | he'
    · obtain ⟨e, he, hb⟩ := h.mem e' he' ho
      exact ⟨e, List.mem_append_left _ he, hb⟩
    · obtain ⟨e, he, hb⟩ := h'.mem e' he' ho
      exact ⟨e, List.mem_append_right _ he, hb⟩
  ids := by
    simp only [originalIds, List.filter_append, List.map_append]
    exact h.ids.append h'.ids

theorem cons (hrefl : ∀ a p, R a p p) (e : Placed) (h : Descend R n es es') :
    Descend R n (e :: es) (e :: es') :=
  append (.refl hrefl [e]) h

/-- Nodes may go. -/
theorem of_sublist (hrefl : ∀ a p, R a p p) (h : es'.Sublist es) : Descend R n es es' where
  mem e he _ := ⟨e, h.subset he, .refl hrefl e⟩
  ids := (h.filter _).map _

/-- New nodes may take the place of any others. -/
theorem of_new (hnew : ∀ e ∈ es', e.isOriginal n = false) : Descend R n es es' where
  mem e' he' ho := by
    rw [hnew e' he'] at ho
    cases ho
  ids := by
    have hfilter : es'.filter (isOriginal n) = [] := by
      rw [List.filter_eq_nil_iff]
      intro e he
      simp [hnew e he]
    simp [originalIds, hfilter]

/-- The same nodes, with changes to the paragraphs. -/
theorem of_becomes (h : List.Forall₂ (Becomes R) es es') : Descend R n es es' where
  mem _ he' _ := h.exists_of_mem_right he'
  ids := by rw [originalIds_congr (Becomes.map_id_eq h)]

end Placed.Descend

namespace Document

variable {doc doc' doc'' : Document}

/-- The document `doc'` is what edits make of `doc`, as far as the nodes numbered up
    to `n` go. -/
structure Descends (R : List CellPosition → Paragraph → Paragraph → Prop) (n : Nat)
    (doc doc' : Document) : Prop where
  lastId_le : doc.lastId ≤ doc'.lastId
  comments : doc'.comments = doc.comments
  nodes : Placed.Descend R n doc.outline doc'.outline

namespace Descends

theorem refl (hrefl : ∀ a p, R a p p) (doc : Document) : doc.Descends R n doc where
  lastId_le := Nat.le_refl _
  comments := rfl
  nodes := .refl hrefl _

theorem trans (htrans : ∀ a p q r, R a p q → R a q r → R a p r) (h : doc.Descends R n doc')
    (h' : doc'.Descends R n doc'') : doc.Descends R n doc'' where
  lastId_le := Nat.le_trans h.lastId_le h'.lastId_le
  comments := h'.comments.trans h.comments
  nodes := h.nodes.trans htrans h'.nodes

/-- The changes of paragraphs may be known by less. -/
theorem imp {R' : List CellPosition → Paragraph → Paragraph → Prop} (h : doc.Descends R n doc')
    (hR : ∀ a p q, R a p q → R' a p q) : doc.Descends R' n doc' where
  lastId_le := h.lastId_le
  comments := h.comments
  nodes := {
    mem := fun e' he' ho =>
      let ⟨e, he, hbecomes⟩ := h.nodes.mem e' he' ho
      ⟨e, he, hbecomes.imp hR⟩
    ids := h.nodes.ids }

/-- New numbers for nodes that are not in the document yet. -/
theorem of_lastId (hrefl : ∀ a p, R a p p) {last : Nat} (h : doc.lastId ≤ last) :
    doc.Descends R n { doc with lastId := last } where
  lastId_le := h
  comments := rfl
  nodes := .refl hrefl _

end Descends

/-! ## Exchanges -/

namespace Exchange

variable {old new : List Placed}

/-- An exchange is a step of descent if that is what happens to the segment. -/
theorem descends (hrefl : ∀ a p, R a p p) (h : doc.Exchange old new doc')
    (hnodes : Placed.Descend R n old new) : doc.Descends R n doc' where
  lastId_le := Nat.le_of_eq h.lastId.symm
  comments := h.comments
  nodes := by
    obtain ⟨pre, post, hold, hnew⟩ := h.outline
    rw [hold, hnew]
    exact ((Placed.Descend.refl hrefl pre).append hnodes).append (.refl hrefl post)

/-- What is exchanged for new nodes is gone, if no number was there twice. -/
theorem not_mem (h : doc.Exchange old new doc') (hnodup : (Placed.originalIds n doc.outline).Nodup)
    (hnew : ∀ e ∈ new, e.isOriginal n = false) {e : Placed} (he : e ∈ old)
    (ho : e.isOriginal n) : ∀ e' ∈ doc'.outline, e'.id ≠ e.id := by
  intro e' he' hid
  have ho' : e'.isOriginal n := by rw [Placed.isOriginal, hid]; exact ho
  obtain ⟨pre, post, hold, hnew'⟩ := h.outline
  have hsplit : Placed.originalIds n doc.outline = Placed.originalIds n pre ++
      Placed.originalIds n old ++ Placed.originalIds n post := by
    simp [Placed.originalIds, hold]
  rw [hsplit, List.nodup_append, List.nodup_append] at hnodup
  have hmid : e.id ∈ Placed.originalIds n old :=
    List.mem_map_of_mem (List.mem_filter.2 ⟨he, ho⟩)
  rw [hnew', List.mem_append, List.mem_append] at he'
  rcases he' with (he' | he') | he'
  · exact hnodup.1.2.2 _ (List.mem_map_of_mem (List.mem_filter.2 ⟨he', ho'⟩)) _ hmid hid
  · rw [hnew e' he'] at ho'
    cases ho'
  · exact hnodup.2.2 _ (List.mem_append_right _ hmid) _
      (List.mem_map_of_mem (List.mem_filter.2 ⟨he', ho'⟩)) hid.symm

end Exchange

/-! ## Tables -/

/-- The tables with original numbers are those in the outline. -/
theorem isSome_table?_iff (hnodup : (Placed.originalIds n doc.outline).Nodup) {id : NodeId}
    (hpos : 0 < id) (hle : id ≤ n) :
    (doc.table? id).isSome ↔ ∃ around, ⟨.table id, around⟩ ∈ doc.outline := by
  constructor
  · intro h
    obtain ⟨t, ht⟩ := Option.isSome_iff_exists.1 h
    obtain ⟨hid, around, hsub⟩ := node_mem_outline (table?_eq_some_iff.1 ht)
    have hmem := hsub (Block.node_mem_outline (.table t) around)
    have hid : t.id = id := hid
    rw [Block.node, hid] at hmem
    exact ⟨around, hmem⟩
  · rintro ⟨around, hmem⟩
    obtain ⟨b, hb⟩ := Option.isSome_iff_exists.1 (isSome_node?_iff.2 ⟨_, hmem, rfl, rfl⟩)
    obtain ⟨hid, around', hsub⟩ := node_mem_outline hb
    have heq := Placed.eq_of_id_eq hnodup hmem (hsub (b.node_mem_outline around'))
      (Placed.isOriginal_iff.2 ⟨hpos, hle⟩) (b.id_node.trans hid)
    cases b with
    | paragraph p => cases heq
    | table t => exact Option.isSome_iff_exists.2 ⟨t, table?_eq_some_iff.2 hb⟩

namespace Descends

/-- The original numbers are still there once at most. -/
theorem nodup_originalIds (h : doc.Descends R n doc')
    (hnodup : (Placed.originalIds n doc.outline).Nodup) :
    (Placed.originalIds n doc'.outline).Nodup :=
  h.nodes.ids.nodup hnodup

/-- A table that is left was there. -/
theorem isSome_table? (h : doc.Descends R n doc') (hnodup : (Placed.originalIds n doc.outline).Nodup)
    {id : NodeId} (hpos : 0 < id) (hle : id ≤ n) (hleft : (doc'.table? id).isSome) :
    (doc.table? id).isSome := by
  obtain ⟨around, hmem⟩ := (isSome_table?_iff (h.nodup_originalIds hnodup) hpos hle).1 hleft
  obtain ⟨e, he, hbecomes⟩ := h.nodes.mem _ hmem (Placed.isOriginal_iff.2 ⟨hpos, hle⟩)
  rw [hbecomes.eq_of_table] at he
  exact (isSome_table?_iff hnodup hpos hle).2 ⟨around, he⟩

/-- What is gone does not come back. -/
theorem locate?_eq_none (h : doc.Descends R n doc') {id : NodeId} (hpos : 0 < id) (hle : id ≤ n)
    (hgone : doc.locate? id = none) : doc'.locate? id = none := by
  rw [locate?_eq_none_iff] at hgone ⊢
  rintro e' he' hblock rfl
  obtain ⟨e, he, hbecomes⟩ := h.nodes.mem e' he' (Placed.isOriginal_iff.2 ⟨hpos, hle⟩)
  exact hgone e he (hbecomes.isBlock_eq ▸ hblock) hbecomes.id_eq.symm

/-- The number of a table that is gone is that of no block. -/
theorem locate?_eq_none_of_table? (h : doc.Descends R n doc')
    (hnodup : (Placed.originalIds n doc.outline).Nodup) {id : NodeId} (hpos : 0 < id) (hle : id ≤ n)
    (hthere : (doc.table? id).isSome) (hgone : doc'.table? id = none) : doc'.locate? id = none := by
  rw [locate?_eq_none_iff]
  rintro e' he' - hid
  obtain ⟨e, he, hbecomes⟩ := h.nodes.mem e' he' (Placed.isOriginal_iff.2 (by simp [hid, hpos, hle]))
  obtain ⟨around, hmem⟩ := (isSome_table?_iff hnodup hpos hle).1 hthere
  -- It is still the table, so the table is not gone.
  obtain rfl := Placed.eq_of_id_eq hnodup hmem he (Placed.isOriginal_iff.2 ⟨hpos, hle⟩)
    (hbecomes.id_eq.symm.trans hid)
  rw [hbecomes.table_eq] at he'
  have hleft := (isSome_table?_iff (h.nodup_originalIds hnodup) hpos hle).2 ⟨around, he'⟩
  simp [hgone] at hleft

end Descends


/-- The table of a cell around a node is in the document. -/
theorem exists_table_of_around {e : Placed} (he : e ∈ doc.outline) {position : CellPosition}
    (hp : position ∈ e.around) : ∃ a, ⟨.table position.table, a⟩ ∈ doc.outline := by
  obtain ⟨b, hb, he⟩ := List.mem_flatMap.1 he
  rcases Block.around_of_mem_outline he hp with h | ⟨a, ha⟩
  · cases h
  · exact ⟨a, List.mem_flatMap.2 ⟨b, hb, ha⟩⟩

end Document

end DocTemplate
