import DocTemplate.Proofs.Comment.Region
import DocTemplate.Proofs.Document.Graft

/-!
# Extents of ranges

The region of a comment is the smallest sequence of neighbouring blocks around the range of the
comment: an extent (`Document.Extent`) in the deepest container around both of its ends
(`Document.Extent.IsDeepest`). All paragraphs between the ends in reading order are in it, since
the blocks of an extent are a segment of the document.

That is so wherever the anchors are: a range may end before it starts, start or end more than
once, never end, or have its ends in cells of tables in cells.

* `Path.commonContainer_append`: the container that two places have in common is the deepest one;
* `Document.Extent.mem_paragraphsOf_of_isBetween`: what is between the ends is in the extent;
* `Document.isSmallest_regions`: a region for each start of a range, and which one.
-/

namespace DocTemplate

/-! ## The deepest container -/

/-- What is placed in a container is placed behind the path of the container. -/
theorem Block.mem_placedParagraphsOf_append {blocks xs : List Block} {container path : Path}
    {p : Paragraph} (h : container? blocks container = some xs)
    (hp : (path, p) ∈ placedParagraphsOf xs) :
    (container ++ path, p) ∈ placedParagraphsOf blocks := by
  fun_induction container? blocks container with
  | case1 blocks =>
    obtain rfl := Option.some.inj h
    exact hp
  | case2 blocks b r c container t hb ih =>
    obtain ⟨row, hr, h⟩ := Option.bind_eq_some_iff.1 h
    obtain ⟨cell, hc, h⟩ := Option.bind_eq_some_iff.1 h
    exact mem_placedParagraphsOf_cell_iff.2 ⟨t, row, cell, hb, hr, hc, ih cell h⟩
  | case3 => cases h
  | case4 => cases h

/-- Places in a container have that container in common, and what they have in common in it. -/
theorem Path.commonContainer_append {blocks xs : List Block} {container path path' : Path}
    (h : Block.container? blocks container = some xs) (hpath : path ≠ []) (hpath' : path' ≠ []) :
    (container ++ path).commonContainer (container ++ path') =
      container ++ path.commonContainer path' := by
  fun_induction Block.container? blocks container with
  | case1 => rfl
  | case2 blocks b r c container t hb ih =>
    obtain ⟨row, hr, h⟩ := Option.bind_eq_some_iff.1 h
    obtain ⟨cell, hc, h⟩ := Option.bind_eq_some_iff.1 h
    have ih := ih cell h
    -- Another index comes behind the container, so both places are in the cell.
    obtain ⟨i, rest, hrest⟩ :=
      List.exists_cons_of_ne_nil (List.append_ne_nil_of_right_ne_nil container hpath)
    obtain ⟨j, rest', hrest'⟩ :=
      List.exists_cons_of_ne_nil (List.append_ne_nil_of_right_ne_nil container hpath')
    rw [hrest, hrest'] at ih
    simp only [List.cons_append, hrest, hrest']
    rw [commonContainer, if_pos ⟨rfl, rfl, rfl⟩, ih]
  | case3 => cases h
  | case4 => cases h

namespace Document

variable {doc : Document} {p q : Paragraph}

/-- Where no number is given twice, a paragraph has one place. -/
theorem eq_of_mem_placedParagraphs (hnodup : (doc.outline.map Placed.id).Nodup)
    {path path' : Path} (h : (path, p) ∈ doc.placedParagraphs)
    (h' : (path', p) ∈ doc.placedParagraphs) : path = path' := by
  have hids := pairwise_paragraphs hnodup
  rw [← map_snd_placedParagraphs, List.map_map] at hids
  exact congrArg Prod.fst (List.inj_on_of_nodup_map hids h h' rfl)

/-- Every container with both paragraphs is that of the extent, or one around it. -/
def Extent.IsDeepest (e : doc.Extent p q) : Prop :=
  ∀ path blocks, doc.container? path = some blocks →
    p ∈ Block.paragraphsOf blocks → q ∈ Block.paragraphsOf blocks → path <+: e.path

theorem Extent.isDeepest (hnodup : (doc.outline.map Placed.id).Nodup) {e : doc.Extent p q}
    {path path' : Path} (hp : (path, p) ∈ doc.placedParagraphs)
    (hq : (path', q) ∈ doc.placedParagraphs) (he : e.path = path.commonContainer path') :
    e.IsDeepest := by
  intro container blocks hcontainer hpin hqin
  -- Behind the path of the container, the places of both paragraphs go on in it.
  obtain ⟨rest, hrest⟩ := Block.mem_paragraphsOf_iff.1 hpin
  obtain ⟨rest', hrest'⟩ := Block.mem_paragraphsOf_iff.1 hqin
  obtain rfl := eq_of_mem_placedParagraphs hnodup hp
    (Block.mem_placedParagraphsOf_append hcontainer hrest)
  obtain rfl := eq_of_mem_placedParagraphs hnodup hq
    (Block.mem_placedParagraphsOf_append hcontainer hrest')
  obtain ⟨i, rest, -, rfl, -⟩ := Block.exists_of_mem_placedParagraphsOf hrest
  obtain ⟨i', rest', -, rfl, -⟩ := Block.exists_of_mem_placedParagraphsOf hrest'
  rw [he, Path.commonContainer_append hcontainer (List.cons_ne_nil _ _) (List.cons_ne_nil _ _)]
  exact List.prefix_append _ _

end Document

/-! ## Paragraphs between the ends -/

/-- Where no item is in a list twice, a part of it takes up the places behind what is before. -/
theorem mem_middle_iff_of_nodup {α : Type} {before middle after : List α}
    (hnodup : (before ++ middle ++ after).Nodup) {i : Nat} {a : α}
    (ha : (before ++ middle ++ after)[i]? = some a) :
    a ∈ middle ↔ before.length ≤ i ∧ i < before.length + middle.length := by
  constructor
  · intro hmem
    obtain ⟨k, hk, rfl⟩ := List.getElem_of_mem hmem
    have hi := (List.getElem?_eq_some_iff.1 ha).1
    have hget : (before ++ middle ++ after)[before.length + k]? = some middle[k] := by
      rw [List.append_assoc, List.getElem?_append_right (by omega),
        List.getElem?_append_left (by omega), Nat.add_sub_cancel_left, List.getElem?_eq_getElem hk]
    have hik := (List.getElem?_inj hi hnodup).1 (ha.trans hget.symm)
    omega
  · rintro ⟨hle, hlt⟩
    rw [List.append_assoc, List.getElem?_append_right hle,
      List.getElem?_append_left (by omega)] at ha
    exact List.mem_of_getElem? ha

namespace Document

variable {doc : Document} {p q x : Paragraph}

/-- In reading order, a paragraph is between two others, whichever of them is the first one, or it
    is one of them. -/
def IsBetween (doc : Document) (p q x : Paragraph) : Prop :=
  ∃ i j k : Nat, doc.paragraphs[i]? = some p ∧ doc.paragraphs[j]? = some q ∧
    doc.paragraphs[k]? = some x ∧ min i j ≤ k ∧ k ≤ max i j

/-- The paragraphs in the blocks of an extent follow each other. -/
theorem Extent.exists_paragraphs_eq (e : doc.Extent p q) : ∃ before after,
    doc.paragraphs = before ++ Block.paragraphsOf e.covered ++ after := by
  obtain ⟨pre, post, inside, hout, -⟩ := Block.exists_segment e.container []
  refine ⟨pre.filterMap Placed.paragraph? ++ Block.paragraphsOf e.before,
    Block.paragraphsOf e.after ++ post.filterMap Placed.paragraph?, ?_⟩
  rw [paragraphs_eq_outline, outline, hout, List.filterMap_append, List.filterMap_append,
    ← Block.paragraphsOf_eq_outline]
  simp only [Block.paragraphsOf, List.flatMap_append, List.append_assoc]

theorem Extent.ends_mem (e : doc.Extent p q) :
    p ∈ Block.paragraphsOf e.covered ∧ q ∈ Block.paragraphsOf e.covered := by
  obtain ⟨first, last, hfirst, hlast, hends⟩ := e.ends
  have hin : ∀ {b : Block} {x : Paragraph}, b ∈ e.covered → x ∈ b.paragraphs →
      x ∈ Block.paragraphsOf e.covered := fun hb hx => List.mem_flatMap.2 ⟨_, hb, hx⟩
  have hfirst := List.mem_of_mem_head? hfirst
  have hlast := List.mem_of_getLast? hlast
  rcases hends with ⟨hp, hq⟩ | ⟨hp, hq⟩
  · exact ⟨hin hfirst hp, hin hlast hq⟩
  · exact ⟨hin hlast hp, hin hfirst hq⟩

/-- All paragraphs between the ends are in the blocks of the extent. -/
theorem Extent.mem_paragraphsOf_of_isBetween (hnodup : (doc.outline.map Placed.id).Nodup)
    (e : doc.Extent p q) (h : doc.IsBetween p q x) : x ∈ Block.paragraphsOf e.covered := by
  obtain ⟨before, after, hsplit⟩ := e.exists_paragraphs_eq
  have hparagraphs : doc.paragraphs.Nodup := .of_map _ (pairwise_paragraphs hnodup)
  obtain ⟨i, j, k, hi, hj, hk, hle, hge⟩ := h
  rw [hsplit] at hparagraphs hi hj hk
  -- Both ends are among the paragraphs of the extent, so their indices bound that of the third one.
  have hpin := (mem_middle_iff_of_nodup hparagraphs hi).1 e.ends_mem.1
  have hqin := (mem_middle_iff_of_nodup hparagraphs hj).1 e.ends_mem.2
  exact (mem_middle_iff_of_nodup hparagraphs hk).2 (by omega)

theorem nodup_ids (h : (doc.outline.map Placed.id).Nodup) :
    (doc.body.flatMap Block.ids).Nodup := by
  rwa [← Block.map_id_outlineOf _ []]

end Document

/-- A region with the numbers of some blocks of a container has these blocks. -/
theorem Region.attached_eq {doc : Document} {r : Region} {path : Path}
    {siblings blocks : List Block} (hnodup : (doc.outline.map Placed.id).Nodup)
    (hsiblings : doc.container? path = some siblings) (hblocks : blocks ⊆ siblings)
    (hids : r.blocks = blocks.map Block.id) : r.attached doc = blocks := by
  rw [attached, hids, List.filterMap_map]
  refine (List.filterMap_congr (g := some) fun b hb => ?_).trans List.filterMap_some
  refine (Document.node?_eq_some_iff (Document.nodup_ids hnodup)).2 ⟨?_, rfl⟩
  exact Block.mem_subblocks_of_container? hsiblings (hblocks hb)

/-! ## Regions -/

/-- The region of a comment, for a start of its range in a paragraph, is the smallest one. -/
structure Region.IsSmallest (r : Region) (doc : Document) (id : CommentId) (p : Paragraph) :
    Prop where
  spans : ∃ (c : Comment) (e : doc.Extent p (doc.lastEnd id p)), doc.comment? id = some c ∧
    r.Spans { c with id } e ∧ e.IsDeepest
  between : ∀ x, doc.IsBetween p (doc.lastEnd id p) x → x.id ∈ r.paragraphIds doc

namespace Document

variable (doc : Document)

/-- The anchors where ranges of comments with a definition start, in reading order. -/
def startAnchors : List (CommentId × Paragraph) :=
  doc.paragraphs.flatMap fun p => p.content.filterMap fun
    | .rangeStart id => if (doc.comment? id).isSome then some (id, p) else none
    | _ => none

/-- The blocks between two places may be looked up: the container that the places have in common
    is there, and it has a block at the next index of each of them. -/
def InBounds (path path' : Path) : Prop :=
  ∃ siblings i j, doc.container? (path.commonContainer path') = some siblings ∧
    path[(path.commonContainer path').length]? = some i ∧ i < siblings.length ∧
    path'[(path.commonContainer path').length]? = some j ∧ j < siblings.length

variable {doc}

theorem inBounds_of_mem_rangeStarts {start : CommentId × NodeId × Path}
    (h : start ∈ doc.rangeStarts) :
    doc.InBounds start.2.2 ((doc.rangeEnds.reverse.lookup start.1).getD start.2).2 := by
  obtain ⟨id, node, path⟩ := start
  obtain ⟨p, hp, -, rfl⟩ := mem_rangeStarts_iff.1 h
  obtain ⟨path', hq, hstop⟩ := exists_lastEnd hp id
  obtain ⟨siblings, i, j, _, _, hsiblings, hi, hj, hb, hb', -⟩ :=
    Path.exists_blocks_commonContainer hp hq
  rw [hstop]
  exact ⟨siblings, i, j, hsiblings, hi, (List.getElem?_eq_some_iff.1 hb).1, hj,
    (List.getElem?_eq_some_iff.1 hb').1⟩

/-- The region from a start of a range is the smallest one. -/
theorem exists_isSmallest (hnodup : (doc.outline.map Placed.id).Nodup) {path : Path}
    {p : Paragraph} (hp : (path, p) ∈ doc.placedParagraphs) {id : CommentId} {c : Comment}
    (hc : doc.comment? id = some c) :
    ∃ r, doc.regionAt? (id, p.id, path) = some r ∧ r.IsSmallest doc id p := by
  obtain ⟨path', r, hq, hr, e, hpath, hspans⟩ := exists_spans hp hc
  refine ⟨r, hr, ⟨c, e, hc, hspans, Extent.isDeepest hnodup hp hq hpath⟩, fun x hx => ?_⟩
  have hattached : r.attached doc = e.covered :=
    r.attached_eq hnodup e.container (by simp) hspans.blocks
  rw [Region.paragraphIds, hattached]
  exact List.mem_map_of_mem (e.mem_paragraphsOf_of_isBetween hnodup hx)

/-- Looking up the blocks of regions stays in bounds, and for each start of a range, in reading
    order, there is the smallest region up to the last end. -/
theorem isSmallest_regions (hnodup : (doc.outline.map Placed.id).Nodup) :
    (∀ start ∈ doc.rangeStarts,
      doc.InBounds start.2.2 ((doc.rangeEnds.reverse.lookup start.1).getD start.2).2) ∧
      List.Forall₂ (fun start r => Region.IsSmallest r doc start.1 start.2) doc.startAnchors
        doc.regions := by
  refine ⟨fun start => inBounds_of_mem_rangeStarts, ?_⟩
  rw [regions_eq, startAnchors, rangeStarts, ← map_snd_placedParagraphs, List.flatMap_map,
    List.filterMap_flatMap]
  have hself : List.Forall₂ (fun x y => x = y ∧ x ∈ doc.placedParagraphs) doc.placedParagraphs
      doc.placedParagraphs := List.forall₂_same.2 fun x hx => ⟨rfl, hx⟩
  refine List.rel_flatMap hself ?_
  rintro ⟨path, p⟩ - ⟨rfl, hp⟩
  dsimp only
  rw [List.filterMap_filterMap]
  refine List.rel_filterMap (R := Eq) ?_ (List.forall₂_refl _)
  rintro item - rfl
  -- Only starts of ranges have regions.
  cases item with
  | rangeStart id =>
    cases hc : doc.comment? id with
    | none => simp [regionAt?, hc]
    | some c =>
      obtain ⟨r, hr, hsmallest⟩ := exists_isSmallest hnodup hp hc
      simpa [hr, hc] using hsmallest
  | _ => exact .none

/-- Three ranges start in a table in a cell: the first one ends before it starts, the second one
    later in the cell, and the third one is of a comment without a definition. -/
def interleaved : Document where
  body := [.paragraph { id := 1, content := [.rangeEnd 1] },
    .table { id := 2, rows := [⟨3, [
      { content := [.table { id := 4, rows := [⟨5, [
          { content := [.paragraph
            { id := 6, content := [.rangeStart 1, .rangeStart 2, .rangeStart 3] }] }]⟩] },
        .paragraph { id := 7, content := [.rangeEnd 2] }] },
      { content := [.paragraph { id := 8 }] }]⟩] },
    .paragraph { id := 9, content := [.rangeEnd 3] }]
  comments := [.ofText 1 "from the table up", .ofText 2 "in the cell"]

theorem isSmallest_regions_interleaved : (interleaved.outline.map Placed.id).Nodup ∧
    interleaved.regions.map Region.blocks = [[1, 2], [4, 7]] ∧
    (∀ start ∈ interleaved.rangeStarts, interleaved.InBounds start.2.2
      ((interleaved.rangeEnds.reverse.lookup start.1).getD start.2).2) ∧
    List.Forall₂ (fun start r => Region.IsSmallest r interleaved start.1 start.2)
      interleaved.startAnchors interleaved.regions := by
  have hnodup : (interleaved.outline.map Placed.id).Nodup := by decide +kernel
  exact ⟨hnodup, by decide +kernel, isSmallest_regions hnodup⟩

end Document

end DocTemplate
