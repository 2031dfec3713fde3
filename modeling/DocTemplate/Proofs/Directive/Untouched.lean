import DocTemplate.Proofs.Comment.Region
import DocTemplate.Proofs.Directive.Display
import DocTemplate.Proofs.Document.Retention

/-!
# Paragraphs that no edit is about

An edit names by number what it is about: the paragraph that it removes or in which it replaces
words, the blocks that it repeats, the table that it removes or fills. A document retains
paragraphs with other numbers through the move (`Move.retains`). The removal of a row and the
filling of a table need no more than that: they change what is in cells, and the paragraphs are
in none. The new nodes of a repetition or a filling have new numbers.

* `Edit.Spares`: the numbers of an edit are others;
* `Edit.spares_of_accept`: they are those of the site of its instruction;
* `Move.retains`: the move with such an edit.
-/

namespace DocTemplate

/-- An edit is not about the nodes with some numbers. Of the blocks in the region of an
    instruction about a table, it is only about tables. -/
def Edit.Spares (ids : List NodeId) : Edit → Prop
  | removeParagraph id | removeTable id | replaceWord id _ _ => id ∉ ids
  | repeatBlocks i _ => ∀ id ∈ i.site.region.blocks, id ∉ ids
  | fillTable i _ | dropTable i => ∀ position ∈ i.site.cell, position.table ∉ ids
  | removeRow _ | custom _ => True

/-- What a built-in handler makes of an instruction is about the paragraph of the site, the table
    around it, or, of a repetition, the blocks in the region. -/
theorem Edit.spares_of_accept {settings : Settings} {handler : Handler} {i : Instruction}
    {edit : Edit} {ids : List NodeId} (hh : handler ∈ Registry.builtin.handlers)
    (h : handler.accept settings i = .ok (some edit)) (hparagraph : i.site.paragraph ∉ ids)
    (hcell : ∀ position ∈ i.site.cell, position.table ∉ ids)
    (hblocks : handler = .repetition → ∀ id ∈ i.site.region.blocks, id ∉ ids) :
    edit.Spares ids := by
  rcases Registry.mem_builtin.1 hh with rfl | rfl | rfl | rfl
  · rcases Display.cases_of_accept (show Display.accept settings i = _ from h) with
      rfl | ⟨position, hposition, rfl | rfl⟩
    · exact hparagraph
    · exact trivial
    · exact hcell position hposition
  · obtain ⟨items, hedit⟩ := Repetition.exists_of_accept
      (show Repetition.accept settings i = _ from h)
    cases hedit
    exact hblocks rfl
  · obtain ⟨-, text, rfl⟩ := WordReplacement.exists_of_accept h
    exact hparagraph
  · rcases TableFill.eq_of_accept h with ⟨data, rfl⟩ | rfl
    · exact hcell
    · exact hcell

variable {f : Filler} {ps : List Paragraph} {d d' : Draft} {edit : Edit}

namespace Display

theorem retains_removeParagraph (hr : d.document.Retains ps)
    (hedit : edit.Spares (ps.map Paragraph.id)) (h : (removeParagraph edit).Yields d () d') :
    d'.document.Retains ps := by
  cases edit with
  | removeParagraph id =>
    exact Revision.document_of_edit? (P := fun doc => doc.Retains ps) hr
      (fun _ _ hdoc => hr.removeBlock? hdoc hedit) h
  | _ =>
    obtain ⟨-, rfl⟩ := Revision.yields_pure.1 h
    exact hr

theorem retains_removeRow (hr : d.document.Retains ps) (h : (removeRow edit).Yields d () d') :
    d'.document.Retains ps := by
  cases edit with
  | removeRow id =>
    exact Revision.document_of_edit? (P := fun doc => doc.Retains ps) hr
      (fun _ _ hdoc => hr.removeRow? hdoc) h
  | _ =>
    obtain ⟨-, rfl⟩ := Revision.yields_pure.1 h
    exact hr

theorem retains_removeTable (hr : d.document.Retains ps)
    (hedit : edit.Spares (ps.map Paragraph.id)) (h : (removeTable edit).Yields d () d') :
    d'.document.Retains ps := by
  cases edit with
  | removeTable id =>
    exact Revision.document_of_edit? (P := fun doc => doc.Retains ps) hr
      (fun _ _ hdoc => hr.removeBlock? hdoc hedit) h
  | _ =>
    obtain ⟨-, rfl⟩ := Revision.yields_pure.1 h
    exact hr

end Display

/-- The template is gone and the copies are new. -/
theorem Repetition.retains_perform (hr : d.document.Retains ps)
    (hedit : edit.Spares (ps.map Paragraph.id)) (hps : ∀ p ∈ ps, p.id ≤ d.document.lastId)
    (h : (perform f edit).Yields d () d') : d'.document.Retains ps := by
  cases edit with
  | repeatBlocks i items =>
    obtain ⟨last, -, ⟨-, hdoc⟩ | ⟨-, removed, generated, around, hids, hnew, hex⟩⟩ :=
      yields_perform h
    · rw [hdoc]
      exact hr
    · have hr' : ({ d.document with lastId := last } : Document).Retains ps := hr
      refine hr'.exchange hex (fun x hx => ?_) (fun x hx hid => ?_)
      · obtain ⟨b, hb, hx⟩ := List.mem_flatMap.1 hx
        obtain ⟨b', hb', heq⟩ := List.mem_map.1 (hids ▸ List.mem_map_of_mem hb)
        refine hr'.not_mem_of_block (fun y hy => ?_) ?_ x hx
        · exact hex.subset (List.mem_flatMap.2 ⟨b, hb, hy⟩)
        · rw [← heq]
          exact hedit _ (Region.id_mem_blocks hb')
      · obtain ⟨p, hp, hpid⟩ := List.mem_map.1 hid
        have hgenerated : x.id ∈ generated.flatMap Block.ids := by
          rw [← Block.map_id_outlineOf generated around]
          exact List.mem_map_of_mem hx
        exact absurd (hpid ▸ hps p hp) (Nat.not_le.2 (lt_of_ids hnew hgenerated))
  | _ =>
    obtain ⟨-, rfl⟩ := Revision.yields_pure.1 h
    exact hr

theorem WordReplacement.retains_perform (hr : d.document.Retains ps)
    (hedit : edit.Spares (ps.map Paragraph.id)) (h : (perform f edit).Yields d () d') :
    d'.document.Retains ps := by
  rcases yields_perform h with
    rfl | ⟨paragraph, comment, text, p, items, around, rfl, hp, -, hex⟩
  · exact hr
  · obtain ⟨rfl, -⟩ := Document.paragraph_mem_outline hp
    exact hr.exchange hex (List.forall_mem_singleton.2 hedit) (List.forall_mem_singleton.2 hedit)

namespace TableFill

/-- What an instruction finds is a table, or is around its paragraph. -/
theorem not_mem_of_target? (hr : d.document.Retains ps) {site : Site}
    (hcell : ∀ position ∈ site.cell, position.table ∉ ps.map Paragraph.id) {table : NodeId}
    (h : target? d.document site = some table) : table ∉ ps.map Paragraph.id := by
  rcases Option.or_eq_some_iff.1 h with hfind | ⟨-, hmap⟩
  · have hsome : (d.document.table? table).isSome := by simpa using List.find?_some hfind
    obtain ⟨t, ht⟩ := Option.isSome_iff_exists.1 hsome
    obtain ⟨rfl, around, hsub⟩ := Document.node_mem_outline (Document.table?_eq_some_iff.1 ht)
    exact hr.not_mem_of_table (hsub ((Block.table t).node_mem_outline around))
  · obtain ⟨position, hposition, rfl⟩ := Option.map_eq_some_iff.1 hmap
    exact hcell position hposition

theorem retains_perform (hr : d.document.Retains ps) (hedit : edit.Spares (ps.map Paragraph.id))
    (hps : ∀ p ∈ ps, 0 < p.id ∧ p.id ≤ d.document.lastId) (h : (perform f edit).Yields d () d') :
    d'.document.Retains ps := by
  cases edit with
  | dropTable i =>
    rcases yields_dropTable h with rfl | ⟨table, b, htarget, hremove⟩
    · exact hr
    · exact hr.removeBlock? hremove (not_mem_of_target? hr hedit htarget)
  | fillTable i data =>
    rcases yields_fillTable h with rfl | ⟨table, t, layout, -, ht, hlayout, hfill⟩
    · exact hr
    obtain ⟨last, records, d₁, -, -, -, hdoc | ⟨around, hex⟩⟩ := yields_fill ht hfill
    · rw [hdoc]
      exact hr
    have hr' : ({ d.document with lastId := last } : Document).Retains ps := hr
    have htable : t.id ∉ ps.map Paragraph.id :=
      hr'.not_mem_of_table (hex.subset ((Block.table t).node_mem_outline around))
    refine hr'.exchange hex (hr'.not_mem_of_block hex.subset htable) fun x hx hid => ?_
    -- An original node of the filled table was at the same place before, so it is in a cell.
    have hdescends : d.document.Descends (Paragraph.Edited fun _ => True) d.document.lastId
        d'.document := descends_fill trivial (Nat.le_refl _) ht hlayout hfill
    obtain ⟨p, hp, hpid⟩ := List.mem_map.1 hid
    have hx' : x ∈ d'.document.outline := by
      obtain ⟨pre, post, -, hout⟩ := hex.outline
      rw [hout]
      exact List.mem_append_left _ (List.mem_append_right _ hx)
    obtain ⟨y, hy, hbecomes⟩ := hdescends.nodes.mem x hx'
      (Placed.isOriginal_iff.2 (hpid ▸ hps p hp))
    obtain ⟨q, -, rfl⟩ := hr.exists_of_mem hy (hbecomes.id_eq ▸ hid)
    cases hbecomes
    rcases Block.eq_or_around_of_mem_outline hx rfl with heq | ⟨position, hposition, -⟩
    · cases heq
    · cases hposition
  | _ =>
    obtain ⟨-, rfl⟩ := Revision.yields_pure.1 h
    exact hr

end TableFill

/-- A move that is not about the paragraphs leaves them where and as they are. -/
theorem Move.retains {m : Move} (hm : m.edit.Spares (ps.map Paragraph.id))
    (hps : ∀ p ∈ ps, 0 < p.id ∧ p.id ≤ d.document.lastId) (hr : d.document.Retains ps)
    (h : (m.perform f).Yields d () d') : d'.document.Retains ps := by
  obtain ⟨pass, edit⟩ := m
  cases pass with
  | paragraphs => exact Display.retains_removeParagraph hr hm h
  | rows => exact Display.retains_removeRow hr h
  | tables => exact Display.retains_removeTable hr hm h
  | repetitions => exact Repetition.retains_perform hr hm (fun p hp => (hps p hp).2) h
  | words => exact WordReplacement.retains_perform hr hm h
  | fills => exact TableFill.retains_perform hr hm hps h

end DocTemplate
