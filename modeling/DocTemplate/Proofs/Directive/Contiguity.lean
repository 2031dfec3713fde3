import DocTemplate.Proofs.Directive.Descent
import DocTemplate.Proofs.Document.Siblings

/-!
# Neighbours that stay neighbours

The blocks of a region that are left are *together* in a document if they are neighbours
(`Region.Together`). Removals keep the blocks of every region together, since what is between
two of them can only go. A repetition puts new blocks where those of its own region were, so
it keeps the blocks of all regions together that have no block in common with its own: they
are on one side of the blocks that go, or in another container. And as long as the blocks of
its own region are together, the repetition finds them all in one place.

* `Region.together_of_exchange`: an exchange of other nodes, in the container or elsewhere;
* `Document.Loses.together`: removals;
* `Repetition.together_perform`: repetitions;
* `Repetition.exists_of_fails_perform`: why a repetition fails, if it does.
-/

namespace DocTemplate

/-- Neighbours that avoid what is in the middle are on one side of it. -/
theorem infix_or_infix_of_disjoint {α : Type} {as xs mid ys : List α}
    (h : as <:+: xs ++ mid ++ ys) (hne : mid ≠ []) (hdisjoint : as.Disjoint mid) :
    as <:+: xs ∨ as <:+: ys := by
  have hnil : ∀ bs : List α, bs ⊆ as → bs ⊆ mid → bs = [] := fun bs has hmid =>
    List.eq_nil_iff_forall_not_mem.2 fun b hb => hdisjoint (has hb) (hmid hb)
  rcases List.infix_append_iff.1 h with h | h | ⟨left, right, rfl, hleft, hright⟩
  · rcases List.infix_append_iff.1 h with h | h | ⟨left, right, rfl, hleft, hright⟩
    · exact .inl h
    · rw [hnil as (List.Subset.refl _) h.subset]
      exact .inl (List.nil_infix)
    · rw [hnil right (List.subset_append_right _ _) hright.subset, List.append_nil]
      exact .inl hleft.isInfix
  · exact .inr h
  · -- What comes before the rest would have to end with the end of the middle.
    rcases List.suffix_or_suffix_of_suffix hleft (List.suffix_append _ _) with hmid | hmid
    · rw [hnil left (List.subset_append_left _ _) hmid.subset, List.nil_append]
      exact .inr hright.isInfix
    · exact absurd (hnil mid (fun a ha => List.mem_append_left _ (hmid.subset ha))
        (List.Subset.refl _)) hne

/-! ## Numbered documents -/

namespace Document

/-- All nodes have numbers up to the last one given, and no two the same. -/
structure Numbered (doc : Document) : Prop where
  nodup : (doc.outline.map Placed.id).Nodup
  bounds : ∀ x ∈ doc.outline, 0 < x.id ∧ x.id ≤ doc.lastId

theorem Numbered.nodup_originalIds {doc : Document} (h : doc.Numbered) (n : Nat) :
    (Placed.originalIds n doc.outline).Nodup :=
  List.Sublist.nodup (List.filter_sublist.map _) h.nodup

variable {doc doc' : Document} {old : List Placed}

theorem Loses.numbered (h : doc.Loses doc') (hnumbered : doc.Numbered) : doc'.Numbered := by
  refine ⟨(h.sublist.map Placed.id).nodup hnumbered.nodup, fun x hx => ?_⟩
  rw [h.lastId]
  exact hnumbered.bounds x (h.subset hx)

/-- What new blocks with the next numbers are exchanged for does not matter. -/
theorem Exchange.numbered {last : Nat} {blocks : List Block} {around : List CellPosition}
    (h : ({ doc with lastId := last } : Document).Exchange old (Block.outlineOf blocks around) doc')
    (hnumbered : doc.Numbered) (hle : doc.lastId ≤ last)
    (hids : blocks.flatMap Block.ids = List.range' (doc.lastId + 1) (last - doc.lastId)) :
    doc'.Numbered := by
  obtain ⟨pre, post, hold, hnew⟩ := h.outline
  have hold : doc.outline = pre ++ old ++ post := hold
  have hlast : doc'.lastId = last := h.lastId
  have hnodup := hnumbered.nodup
  rw [hold, List.map_append, List.map_append, List.nodup_append, List.nodup_append] at hnodup
  have hnewIds : ∀ id ∈ blocks.flatMap Block.ids, doc.lastId < id ∧ id ≤ last := by
    intro id hid
    rwa [hids, Numbering.mem_next_iff hle] at hid
  -- The new numbers are above all numbers on both sides.
  have hsides : ∀ x ∈ pre ++ post, 0 < x.id ∧ x.id ≤ doc.lastId := by
    intro x hx
    refine hnumbered.bounds x ?_
    rw [hold]
    simp only [List.mem_append] at hx ⊢
    tauto
  refine ⟨?_, fun x hx => ?_⟩
  · rw [hnew, List.map_append, List.map_append, Block.map_id_outlineOf, List.nodup_append,
      List.nodup_append]
    refine ⟨⟨hnodup.1.1, ?_, ?_⟩, hnodup.2.1, ?_⟩
    · rw [hids]
      exact List.nodup_range'
    · rintro _ hid id' hid' rfl
      obtain ⟨x, hx, rfl⟩ := List.mem_map.1 hid
      exact Nat.not_le.2 (hnewIds _ hid').1 (hsides x (List.mem_append_left _ hx)).2
    · rintro _ hid id' hid' rfl
      rcases List.mem_append.1 hid with hid | hid
      · exact hnodup.2.2 _ (List.mem_append_left _ hid) _ hid' rfl
      · obtain ⟨x, hx, rfl⟩ := List.mem_map.1 hid'
        exact Nat.not_le.2 (hnewIds _ hid).1 (hsides x (List.mem_append_right _ hx)).2
  · rw [hlast]
    rw [hnew, List.mem_append, List.mem_append] at hx
    rcases hx with (hx | hx) | hx
    · exact (hsides x (List.mem_append_left _ hx)).imp_right fun h => Nat.le_trans h hle
    · have hid : x.id ∈ blocks.flatMap Block.ids := by
        rw [← Block.map_id_outlineOf _ around]
        exact List.mem_map_of_mem hx
      exact ⟨Nat.lt_of_le_of_lt (Nat.zero_le _) (hnewIds _ hid).1, (hnewIds _ hid).2⟩
    · exact (hsides x (List.mem_append_right _ hx)).imp_right fun h => Nat.le_trans h hle

end Document

/-! ## Regions -/

namespace Region

variable (r : Region) {doc doc' : Document}

/-- The blocks of the region that are left, by number. -/
def remaining (doc : Document) : List NodeId :=
  r.blocks.filter fun id => (doc.node? id).isSome

theorem map_id_attached : (r.attached doc).map Block.id = r.remaining doc := by
  rw [attached, remaining, List.map_filterMap, ← List.filterMap_eq_filter]
  refine List.filterMap_congr fun id _ => ?_
  cases hnode : doc.node? id with
  | none => simp [Option.guard, hnode]
  | some b => simp [Option.guard, hnode, (Document.node_mem_outline hnode).1]

/-- The blocks of the region that are left are neighbours, in a cell of a table that has one
    of the first `n` numbers. -/
def Together (n : Nat) (doc : Document) : Prop :=
  ∃ around : List CellPosition, (∀ position ∈ around, position.table ≤ n) ∧
    r.remaining doc <:+: doc.siblings around

variable {r} {n : Nat} {around : List CellPosition} {old new : List Placed}

/-- The blocks that are left after an exchange for new nodes were left before, and have not
    gone. -/
theorem remaining_of_exchange (hex : doc.Exchange old new doc') (hblocks : ∀ id ∈ r.blocks, id ≤ n)
    (hnew : ∀ x ∈ new, n < x.id) :
    r.remaining doc' = (r.remaining doc).filter fun id => (doc'.node? id).isSome := by
  rw [remaining, remaining, List.filter_filter]
  refine List.filter_congr fun id hid => Bool.eq_iff_iff.2 ?_
  rw [Bool.and_eq_true]
  refine ⟨fun hsome => ⟨hsome, ?_⟩, And.left⟩
  obtain ⟨x, hx, hblock, rfl⟩ := Document.isSome_node?_iff.1 hsome
  refine Document.isSome_node?_iff.2 ⟨x, ?_, hblock, rfl⟩
  obtain ⟨pre, post, hold, hout⟩ := hex.outline
  rw [hout, List.mem_append, List.mem_append] at hx
  rw [hold, List.mem_append, List.mem_append]
  rcases hx with (hx | hx) | hx
  · exact .inl (.inl hx)
  · exact absurd (hblocks _ hid) (Nat.not_le.2 (hnew x hx))
  · exact .inr hx

/-- The blocks that are left stay neighbours if the new nodes are not in their container, or
    if what they are exchanged for is, and has no block in common with the region. -/
theorem together_of_exchange {last : Nat} (hex : doc.Exchange old new doc')
    (hnodup : (Placed.originalIds last doc.outline).Nodup)
    (hbounds : ∀ x ∈ doc.outline, 0 < x.id ∧ x.id ≤ last) (hnew : ∀ x ∈ new, last < x.id)
    (hblocks : ∀ id ∈ r.blocks, id ≤ last)
    (hexchange : Placed.siblings around new = [] ∨
      Placed.siblings around old ≠ [] ∧ r.blocks.Disjoint (Placed.siblings around old))
    (h : r.remaining doc <:+: doc.siblings around) :
    r.remaining doc' <:+: doc'.siblings around := by
  rw [remaining_of_exchange hex hblocks hnew]
  obtain ⟨pre, post, hold, hout⟩ := hex.outline
  have hkept : ∀ es : List Placed, es ⊆ doc'.outline →
      (Placed.siblings around es).filter (fun id => (doc'.node? id).isSome) =
        Placed.siblings around es := by
    intro es hes
    refine List.filter_eq_self.2 fun id hid => ?_
    obtain ⟨x, hx, hblock, -, rfl⟩ := Placed.mem_siblings_iff.1 hid
    exact Document.isSome_node?_iff.2 ⟨x, hes hx, hblock, rfl⟩
  have hpre := hkept pre fun x hx => by simp [hout, hx]
  have hpost := hkept post fun x hx => by simp [hout, hx]
  rw [Document.siblings, hold, Placed.siblings_append, Placed.siblings_append] at h
  rw [Document.siblings, hout, Placed.siblings_append, Placed.siblings_append]
  rcases hexchange with hnil | ⟨hne, hdisjoint⟩
  · -- The blocks of the container that have gone are among those exchanged.
    have hgone : (Placed.siblings around old).filter (fun id => (doc'.node? id).isSome) = [] := by
      refine List.filter_eq_nil_iff.2 fun id hid hsome => ?_
      obtain ⟨x, hx, -, -, rfl⟩ := Placed.mem_siblings_iff.1 hid
      obtain ⟨y, hy, -, hyid⟩ := Document.isSome_node?_iff.1 hsome
      exact hex.not_mem hnodup (fun e he => Placed.isOriginal_eq_false (hnew e he)) hx
        (Placed.isOriginal_iff.2 (hbounds x (hex.subset hx))) y hy hyid
    have hfilter := h.filter fun id => (doc'.node? id).isSome
    rw [List.filter_append, List.filter_append, hpre, hgone, hpost] at hfilter
    rw [hnil]
    exact hfilter
  · have hremaining : (r.remaining doc).Disjoint (Placed.siblings around old) :=
      fun id hid => hdisjoint (List.mem_of_mem_filter hid)
    rcases infix_or_infix_of_disjoint h hne hremaining with h | h
    · refine (h.filter _).trans ?_
      rw [hpre, List.append_assoc]
      exact (List.prefix_append _ _).isInfix
    · refine (h.filter _).trans ?_
      rw [hpost]
      exact (List.suffix_append _ _).isInfix

end Region

/-! ## Removals -/

/-- The blocks of every region stay together when nodes go. -/
theorem Document.Loses.together {doc doc' : Document} {r : Region} {n : Nat}
    (h : doc.Loses doc') (hnumbered : doc.Numbered) (hblocks : ∀ id ∈ r.blocks, id ≤ doc.lastId)
    (htogether : r.Together n doc) : r.Together n doc' := by
  rcases h with rfl | ⟨old, hex⟩
  · exact htogether
  · obtain ⟨around, haround, h⟩ := htogether
    exact ⟨around, haround, Region.together_of_exchange hex (hnumbered.nodup_originalIds _)
      hnumbered.bounds (by simp) hblocks (.inl rfl) h⟩

/-! ## Repetitions -/

namespace Repetition

variable {f : Filler} {d d' : Draft} {i : Instruction} {items : List Value}

theorem numbered_perform (h : (perform f (.repeatBlocks i items)).Yields d () d')
    (hnumbered : d.document.Numbered) : d'.document.Numbered := by
  obtain ⟨last, hle, ⟨-, hdoc⟩ | ⟨-, removed, generated, around, -, hids, hex⟩⟩ := yields_perform h
  · rw [hdoc]
    exact ⟨hnumbered.nodup, fun x hx => (hnumbered.bounds x hx).imp_right fun h => h.trans hle⟩
  · exact hex.numbered hnumbered hle hids

/-- The siblings of new blocks are these blocks only, as far as cells of old tables go. -/
theorem siblings_of_new {n : Nat} {blocks : List Block} {around inside : List CellPosition}
    (h : ∀ id ∈ blocks.flatMap Block.ids, n < id) (hinside : ∀ position ∈ inside, position.table ≤ n)
    (hne : inside ≠ around) : Placed.siblings inside (Block.outlineOf blocks around) = [] := by
  refine Placed.siblings_eq_nil fun e he hblock heq => ?_
  obtain ⟨b, hb, he⟩ := List.mem_flatMap.1 he
  rcases Block.eq_or_around_of_mem_outline he hblock with rfl | ⟨position, hposition, htable⟩
  · exact hne heq.symm
  · refine absurd (hinside position (heq ▸ hposition)) (Nat.not_le.2 (h _ ?_))
    rw [htable]
    exact List.mem_flatMap.2 ⟨b, hb, b.map_id_outline [] ▸ b.id_mem_map_id_outline []⟩

/-- The blocks of a region stay together when the blocks of another one are repeated. -/
theorem together_perform {r : Region} {n : Nat} (hn : n ≤ d.document.lastId)
    (hnumbered : d.document.Numbered) (hblocks : ∀ id ∈ r.blocks, id ≤ n)
    (hdisjoint : r.blocks.Disjoint i.site.region.blocks)
    (h : (perform f (.repeatBlocks i items)).Yields d () d')
    (htogether : r.Together n d.document) : r.Together n d'.document := by
  obtain ⟨inside, hinside, hpart⟩ := htogether
  obtain ⟨last, hle, ⟨-, hdoc⟩ | ⟨hne, removed, generated, around, hremoved, hids, hex⟩⟩ :=
    yields_perform h
  · rw [hdoc]
    exact ⟨inside, hinside, hpart⟩
  · have hlt : ∀ id ∈ generated.flatMap Block.ids, d.document.lastId < id :=
      fun id hid => lt_of_ids hids hid
    refine ⟨inside, hinside, Region.together_of_exchange hex
      (hnumbered.nodup_originalIds d.document.lastId) hnumbered.bounds (fun x hx => ?_)
      (fun id hid => (hblocks id hid).trans hn) ?_ hpart⟩
    · refine hlt _ ?_
      rw [← Block.map_id_outlineOf _ around]
      exact List.mem_map_of_mem hx
    · by_cases heq : inside = around
      · refine .inr ?_
        rw [heq, Block.siblings_outlineOf, hremoved, Region.map_id_attached]
        rw [ne_eq, ← List.map_eq_nil_iff (f := Block.id), Region.map_id_attached] at hne
        exact ⟨hne, fun id hid hid' => hdisjoint hid (List.mem_of_mem_filter hid')⟩
      · exact .inl (siblings_of_new (fun id hid => Nat.lt_of_le_of_lt hn (hlt id hid)) hinside heq)

/-- A region that is repeated is not there any more, which keeps it together. -/
theorem together_perform_self {n : Nat} (hn : n ≤ d.document.lastId)
    (hnumbered : d.document.Numbered) (hblocks : ∀ id ∈ i.site.region.blocks, 0 < id ∧ id ≤ n)
    (h : (perform f (.repeatBlocks i items)).Yields d () d') :
    i.site.region.Together n d'.document := by
  have hnil : i.site.region.remaining d'.document = [] := by
    refine List.filter_eq_nil_iff.2 fun id hid => ?_
    have hnone := locate?_eq_none hn (hnumbered.nodup_originalIds n) h hid (hblocks id hid).1
      (hblocks id hid).2
    simp [Document.node?, hnone]
  refine ⟨[], by simp, ?_⟩
  rw [hnil]
  exact List.nil_infix

/-! ### Failures -/

/-- A copy is made unless the template cannot be filled. -/
theorem exists_of_fails_copy {template : List Block} {item : Value} {error : Error}
    (h : (copy f template item).Fails d error) :
    ∃ blocks, f.fillBlocks item blocks = .error error := by
  rw [copy] at h
  rcases Revision.fails_bind.1 h with h | ⟨blocks, d₁, -, h⟩
  · exact absurd h Revision.not_fails_edit
  · rcases Revision.fails_bind.1 h with h | ⟨_, d₂, -, h⟩
    · exact ⟨blocks, h⟩
    · exact absurd h (Revision.not_fails_bind Revision.not_fails_count
        fun _ _ => Revision.not_fails_pure)

theorem exists_of_fails_copies {template : List Block} {layout : Option SectionLayout}
    {error : Error} (h : (copies f template layout items).Fails d error) :
    ∃ item blocks, f.fillBlocks item blocks = .error error := by
  fun_induction copies f template layout items generalizing d with
  | case1 => exact absurd h Revision.not_fails_pure
  | case2 item => exact ⟨item, exists_of_fails_copy h⟩
  | case3 item items hitems ih =>
    rcases Revision.fails_bind.1 h with h | ⟨blocks, d₁, -, h⟩
    · exact ⟨item, exists_of_fails_copy h⟩
    · rcases Revision.fails_bind.1 h with h | ⟨rest, d₂, -, h⟩
      · exact ih h
      · exact absurd h Revision.not_fails_pure

/-- As long as the blocks of its region are together, a repetition fails only if the template
    cannot be filled. -/
theorem exists_of_fails_perform {n : Nat} {error : Error} (hnumbered : d.document.Numbered)
    (htogether : i.site.region.Together n d.document)
    (h : (perform f (.repeatBlocks i items)).Fails d error) :
    ∃ item blocks, f.fillBlocks item blocks = .error error := by
  rw [perform] at h
  rcases Revision.fails_bind.1 h with h | ⟨doc, d₁, hdoc, h⟩
  · cases h
  obtain ⟨rfl, rfl⟩ := Revision.yields_document.1 hdoc
  rcases Revision.fails_bind.1 h with h | ⟨generated, d₂, hcopies, h⟩
  · exact exists_of_fails_copies h
  obtain ⟨last, -, hlast, -⟩ := yields_copies hcopies
  cases htemplate : i.site.region.attached d₁.document with
  | nil =>
    rw [htemplate] at h
    exact absurd h Revision.not_fails_pure
  | cons b bs =>
    have hids : (i.site.region.attached d₁.document).map Block.id =
        i.site.region.remaining d₁.document := i.site.region.map_id_attached
    obtain ⟨around, -, hpart⟩ := htogether
    rw [← hids, htemplate] at hpart
    -- Blocks that are together can be replaced.
    have hreplace : ∀ doc : Document, doc.outline = d₁.document.outline →
        doc.replaceBlocks? ((b :: bs).map Block.id) generated ≠ none := by
      intro doc hout
      have hpart : (b :: bs).map Block.id <:+: doc.siblings around := by
        rw [Document.siblings, hout]
        exact hpart
      exact Document.replaceBlocks?_ne_none (hout ▸ hnumbered.nodup) (by simp) hpart generated
    rw [htemplate] at h
    rcases Revision.fails_bind.1 h with h | ⟨replaced, d₃, hreplaced, h⟩
    · exact absurd h Revision.not_fails_edit?
    · rcases Revision.yields_edit?.1 hreplaced with ⟨removed, doc, -, rfl, -⟩ | ⟨hnone, -, -⟩
      · exact absurd h Revision.not_fails_count
      · rw [hlast] at hnone
        exact absurd hnone (hreplace _ rfl)

end Repetition

end DocTemplate
