import DocTemplate.Comment.Region
import DocTemplate.Proofs.Document.Descent

/-!
# Regions

A comment with a definition has a region for every start of its range. It goes up to the
paragraph where the range ends for the last time (`Document.lastEnd`), and its blocks follow
each other in a container: the two paragraphs are in the first one and in the last one, in
either order (`Document.Extent`). What a region refers to by number is in the document.

* `Document.mem_paragraphs_iff`: every paragraph has a place;
* `Document.exists_extent`: the blocks between two places;
* `Document.exists_spans`, `Document.exists_regionAt?`: a start of a range has a region;
* `Document.exists_of_mem_regions`: and every region is that of a start of a range;
* `Document.region_spec`: what a region refers to;
* `Region.mem_attached_iff`: the paragraphs in a region are those that its blocks are, or
  are around.
-/

namespace DocTemplate

/-- The node is the one with the number, or the table with the number is around it. -/
def Placed.IsUnder (id : NodeId) (e : Placed) : Prop :=
  e.id = id ∨ ∃ position ∈ e.around, position.table = id

theorem Placed.IsUnder.of_eq {id : NodeId} {e e' : Placed} (h : e.IsUnder id) (hid : e'.id = e.id)
    (haround : e'.around = e.around) : e'.IsUnder id := by
  rw [IsUnder, hid, haround]
  exact h

namespace Document

variable {doc : Document} {id : NodeId} {e : Placed}

/-- Where a paragraph or a table is under a number, the number has a node. -/
theorem isSome_node?_of_isUnder (he : e ∈ doc.outline) (hblock : e.node.isBlock)
    (h : e.IsUnder id) : (doc.node? id).isSome := by
  rw [isSome_node?_iff]
  rcases h with hid | ⟨position, hposition, rfl⟩
  · exact ⟨e, he, hblock, hid⟩
  · obtain ⟨a, ha⟩ := exists_table_of_around he hposition
    exact ⟨_, ha, rfl, rfl⟩

/-- Where no paragraph or table has a number, none is under it. -/
theorem not_isUnder (h : doc.locate? id = none) (he : e ∈ doc.outline) (hblock : e.node.isBlock) :
    ¬ e.IsUnder id := by
  intro hunder
  have hsome := isSome_node?_of_isUnder he hblock hunder
  simp [node?, h] at hsome

end Document

/-! ## Places of paragraphs -/

namespace Block

theorem placedParagraphs_table (t : Table Block) :
    (table t).placedParagraphs = t.indexed.flatMap fun ((r, c, k), b) =>
      b.placedParagraphs.map fun (path, p) => (r :: c :: k :: path, p) := by
  simp only [placedParagraphs, fold_table, Table.indexed_map, List.flatMap_map]

end Block

theorem Table.map_snd_indexed {α : Type} (t : Table α) : t.indexed.map Prod.snd = t.items := by
  simp only [indexed, items, List.map_flatMap, List.map_map]
  refine (List.flatMap_congr fun x _ => ?_).trans (flatMap_zipIdx_fst Row.items _ 0)
  refine (List.flatMap_congr fun y _ => ?_).trans (flatMap_zipIdx_fst Cell.content _ 0)
  exact List.zipIdx_map_fst 0 y.1.content

namespace Block

/-- The paragraphs of some blocks in reading order, each with its place. -/
def placedParagraphsOf (blocks : List Block) : List (Path × Paragraph) :=
  blocks.zipIdx.flatMap fun (block, i) =>
    block.placedParagraphs.map fun (path, p) => (i :: path, p)

theorem map_snd_placedParagraphs (b : Block) : b.placedParagraphs.map Prod.snd = b.paragraphs := by
  induction b using Block.induction with
  | paragraph p => simp [placedParagraphs]
  | table t ih =>
    rw [placedParagraphs_table, paragraphs_table, ← t.map_snd_indexed, List.map_flatMap,
      List.flatMap_map]
    refine List.flatMap_congr fun ⟨⟨r, c, k⟩, b⟩ hb => ?_
    obtain ⟨row, cell, hr, hc, hk⟩ := Table.mem_indexed.1 hb
    rw [List.map_map, ← ih b (Table.mem_items_of_getElem? hr hc hk)]
    rfl

theorem mem_paragraphs_iff {b : Block} {p : Paragraph} :
    p ∈ b.paragraphs ↔ ∃ path, (path, p) ∈ b.placedParagraphs := by
  rw [← map_snd_placedParagraphs, List.mem_map]
  simp

theorem map_snd_placedParagraphsOf (blocks : List Block) :
    (placedParagraphsOf blocks).map Prod.snd = paragraphsOf blocks := by
  rw [placedParagraphsOf, List.map_flatMap, paragraphsOf, ← flatMap_zipIdx_fst paragraphs blocks 0]
  refine List.flatMap_congr fun x _ => ?_
  rw [List.map_map, ← x.1.map_snd_placedParagraphs]
  rfl

variable {blocks : List Block} {p : Paragraph} {path : Path} {i : Nat}

theorem mem_paragraphsOf_iff :
    p ∈ paragraphsOf blocks ↔ ∃ path, (path, p) ∈ placedParagraphsOf blocks := by
  rw [← map_snd_placedParagraphsOf, List.mem_map]
  simp

theorem mem_placedParagraphsOf_iff : (i :: path, p) ∈ placedParagraphsOf blocks ↔
    ∃ b, blocks[i]? = some b ∧ (path, p) ∈ b.placedParagraphs := by
  simp only [placedParagraphsOf, List.mem_flatMap, List.mem_map, Prod.exists, Prod.mk.injEq,
    List.cons.injEq, List.mk_mem_zipIdx_iff_getElem?]
  constructor
  · rintro ⟨b, j, hb, path', p', hp, ⟨rfl, rfl⟩, rfl⟩
    exact ⟨b, hb, hp⟩
  · rintro ⟨b, hb, hp⟩
    exact ⟨b, i, hb, path, p, hp, ⟨rfl, rfl⟩, rfl⟩

theorem exists_of_mem_placedParagraphsOf (h : (path, p) ∈ placedParagraphsOf blocks) :
    ∃ i rest b, path = i :: rest ∧ blocks[i]? = some b ∧ p ∈ b.paragraphs := by
  obtain ⟨⟨b, i⟩, hb, h⟩ := List.mem_flatMap.1 h
  obtain ⟨⟨rest, q⟩, hq, h⟩ := List.mem_map.1 h
  cases h
  exact ⟨i, rest, b, rfl, List.mk_mem_zipIdx_iff_getElem?.1 hb, mem_paragraphs_iff.2 ⟨rest, hq⟩⟩

/-- A place inside a table is one in a cell of the table. -/
theorem mem_placedParagraphsOf_cell_iff {r c : Nat} :
    (i :: r :: c :: path, p) ∈ placedParagraphsOf blocks ↔
      ∃ t row cell, blocks[i]? = some (.table t) ∧ t.rows[r]? = some row ∧
        row.cells[c]? = some cell ∧ (path, p) ∈ placedParagraphsOf cell.content := by
  constructor
  · intro h
    obtain ⟨b, hb, h⟩ := mem_placedParagraphsOf_iff.1 h
    cases b with
    | paragraph q => simp [placedParagraphs] at h
    | table t =>
      rw [placedParagraphs_table] at h
      obtain ⟨⟨⟨r', c', k⟩, b⟩, hmem, h⟩ := List.mem_flatMap.1 h
      obtain ⟨⟨rest, q⟩, hq, h⟩ := List.mem_map.1 h
      cases h
      obtain ⟨row, cell, hr, hc, hk⟩ := Table.mem_indexed.1 hmem
      exact ⟨t, row, cell, hb, hr, hc, mem_placedParagraphsOf_iff.2 ⟨b, hk, hq⟩⟩
  · rintro ⟨t, row, cell, ht, hr, hc, h⟩
    obtain ⟨k, rest, -, rfl, -, -⟩ := exists_of_mem_placedParagraphsOf h
    obtain ⟨b, hk, h⟩ := mem_placedParagraphsOf_iff.1 h
    refine mem_placedParagraphsOf_iff.2 ⟨.table t, ht, ?_⟩
    rw [placedParagraphs_table]
    exact List.mem_flatMap.2 ⟨((r, c, k), b), Table.mem_indexed.2 ⟨row, cell, hr, hc, hk⟩,
      List.mem_map.2 ⟨_, h, rfl⟩⟩

end Block

/-- Two paragraphs are in two blocks of the container that their places have in common. -/
theorem Path.exists_blocks_commonContainer {blocks : List Block} {path path' : Path}
    {p p' : Paragraph} (h : (path, p) ∈ Block.placedParagraphsOf blocks)
    (h' : (path', p') ∈ Block.placedParagraphsOf blocks) :
    ∃ siblings i j b b', Block.container? blocks (path.commonContainer path') = some siblings ∧
      path[(path.commonContainer path').length]? = some i ∧
      path'[(path.commonContainer path').length]? = some j ∧
      siblings[i]? = some b ∧ siblings[j]? = some b' ∧ p ∈ b.paragraphs ∧ p' ∈ b'.paragraphs := by
  fun_induction commonContainer path path' generalizing blocks with
  | case1 b r c i path b' r' c' i' path' heq ih =>
    obtain ⟨rfl, rfl, rfl⟩ := heq
    obtain ⟨t, row, cell, ht, hrow, hcell, h⟩ := Block.mem_placedParagraphsOf_cell_iff.1 h
    obtain ⟨t', row', cell', ht', hrow', hcell', h'⟩ :=
      Block.mem_placedParagraphsOf_cell_iff.1 h'
    obtain rfl := Block.table.inj (Option.some.inj (ht.symm.trans ht'))
    obtain rfl := Option.some.inj (hrow.symm.trans hrow')
    obtain rfl := Option.some.inj (hcell.symm.trans hcell')
    obtain ⟨siblings, i₁, j₁, x, x', hsiblings, hi, hj, hrest⟩ := ih h h'
    refine ⟨siblings, i₁, j₁, x, x', ?_, by simpa using hi, by simpa using hj, hrest⟩
    simpa [Block.container?, ht, hrow, hcell] using hsiblings
  | case2 b r c i path b' r' c' i' path' hne =>
    obtain ⟨_, _, x, hpath, hx, hp⟩ := Block.exists_of_mem_placedParagraphsOf h
    obtain ⟨_, _, x', hpath', hx', hp'⟩ := Block.exists_of_mem_placedParagraphsOf h'
    cases hpath
    cases hpath'
    exact ⟨blocks, b, b', x, x', rfl, rfl, rfl, hx, hx', hp, hp'⟩
  | case3 path path' hother =>
    obtain ⟨i, rest, x, rfl, hx, hp⟩ := Block.exists_of_mem_placedParagraphsOf h
    obtain ⟨i', rest', x', rfl, hx', hp'⟩ := Block.exists_of_mem_placedParagraphsOf h'
    exact ⟨blocks, i, i', x, x', rfl, rfl, rfl, hx, hx', hp, hp'⟩

namespace Document

variable {doc : Document}

theorem mem_paragraphs_iff {p : Paragraph} :
    p ∈ doc.paragraphs ↔ ∃ path, (path, p) ∈ doc.placedParagraphs :=
  Block.mem_paragraphsOf_iff

theorem map_snd_placedParagraphs : doc.placedParagraphs.map Prod.snd = doc.paragraphs :=
  Block.map_snd_placedParagraphsOf doc.body

/-- What numbers of nodes have in common in pairs, those of paragraphs have. -/
theorem pairwise_paragraphs {R : NodeId → NodeId → Prop}
    (h : (doc.outline.map Placed.id).Pairwise R) :
    (doc.paragraphs.map Paragraph.id).Pairwise R := by
  rw [paragraphs_eq_outline, List.pairwise_map]
  refine List.Pairwise.filterMap _ (fun x y hxy p hp q hq => ?_) (List.pairwise_map.1 h)
  rcases x with ⟨_ | _ | _, _⟩ <;> cases hp
  rcases y with ⟨_ | _ | _, _⟩ <;> cases hq
  exact hxy

theorem mem_paragraphs_iff_outline {p : Paragraph} :
    p ∈ doc.paragraphs ↔ ∃ around, ⟨.paragraph p, around⟩ ∈ doc.outline := by
  rw [paragraphs_eq_outline, List.mem_filterMap]
  constructor
  · rintro ⟨⟨q | id | id, around⟩, he, hp⟩
    · obtain rfl := Option.some.inj hp
      exact ⟨around, he⟩
    · cases hp
    · cases hp
  · exact fun ⟨around, he⟩ => ⟨_, he, rfl⟩

/-! ## Regions -/

/-- Where a range starts. -/
theorem mem_rangeStarts_iff {id : CommentId} {start : NodeId × Path} :
    (id, start) ∈ doc.rangeStarts ↔ ∃ p, (start.2, p) ∈ doc.placedParagraphs ∧
      .rangeStart id ∈ p.content ∧ start.1 = p.id := by
  obtain ⟨node, path⟩ := start
  simp only [rangeStarts, List.mem_flatMap, List.mem_filterMap, Prod.exists]
  constructor
  · rintro ⟨path', p, hp, item, hitem, h⟩
    cases item <;> simp at h
    obtain ⟨rfl, rfl, rfl⟩ := h
    exact ⟨p, hp, hitem, rfl⟩
  · rintro ⟨p, hp, hitem, rfl⟩
    exact ⟨path, p, hp, _, hitem, rfl⟩

/-- The ends of ranges in a paragraph. -/
def rangeEndsIn (x : Path × Paragraph) : List (CommentId × NodeId × Path) :=
  x.2.content.filterMap fun
    | .rangeEnd id => some (id, x.2.id, x.1)
    | _ => none

theorem lookup_reverse_rangeEndsIn (x : Path × Paragraph) (id : CommentId) :
    (rangeEndsIn x).reverse.lookup id =
      if .rangeEnd id ∈ x.2.content then some (x.2.id, x.1) else none := by
  rw [rangeEndsIn, ← List.filterMap_reverse, if_congr List.mem_reverse.symm rfl rfl]
  induction x.2.content.reverse with
  | nil => rfl
  | cons item items ih =>
    cases item with
    | rangeEnd id' =>
      rw [List.filterMap_cons]
      dsimp only
      rw [List.lookup_cons, ih]
      by_cases hid : id = id'
      · simp [hid]
      · simp [hid, beq_false_of_ne hid]
    | _ => simp [ih]

/-- Of the ends of a range, the last one is found. -/
theorem lookup_rangeEnds (doc : Document) (id : CommentId) : doc.rangeEnds.reverse.lookup id =
    (doc.placedParagraphs.reverse.find? fun x => .rangeEnd id ∈ x.2.content).map
      fun x => (x.2.id, x.1) := by
  rw [show doc.rangeEnds = doc.placedParagraphs.flatMap rangeEndsIn from rfl, List.reverse_flatMap]
  induction doc.placedParagraphs.reverse with
  | nil => rfl
  | cons x placed ih =>
    rw [List.flatMap_cons, List.lookup_append, ih, List.find?_cons, Function.comp_apply,
      lookup_reverse_rangeEndsIn]
    by_cases hx : .rangeEnd id ∈ x.2.content <;> simp [hx]

/-- The paragraph where the range of a comment ends for the last time; if it never ends, the one
    where it starts. -/
def lastEnd (doc : Document) (id : CommentId) (start : Paragraph) : Paragraph :=
  (doc.paragraphs.reverse.find? fun q => .rangeEnd id ∈ q.content).getD start

/-- Where a region ends, if it starts in a paragraph. -/
theorem exists_lastEnd {path : Path} {p : Paragraph} (hp : (path, p) ∈ doc.placedParagraphs)
    (id : CommentId) : ∃ path', (path', doc.lastEnd id p) ∈ doc.placedParagraphs ∧
      (doc.rangeEnds.reverse.lookup id).getD (p.id, path) = ((doc.lastEnd id p).id, path') := by
  rw [lookup_rangeEnds, lastEnd, ← map_snd_placedParagraphs, ← List.map_reverse, List.find?_map]
  simp only [Function.comp_def]
  cases hfind : doc.placedParagraphs.reverse.find? fun x => .rangeEnd id ∈ x.2.content with
  | none => exact ⟨path, hp, rfl⟩
  | some x => exact ⟨x.1, List.mem_reverse.1 (List.mem_of_find?_eq_some hfind), rfl⟩

/-! ## Extents -/

/-- Consecutive blocks of one container, where one of two paragraphs is in the first block and
    the other one in the last block. -/
structure Extent (doc : Document) (p q : Paragraph) where
  /-- The place of the container. -/
  path : Path
  /-- The blocks before. -/
  before : List Block
  /-- The blocks themselves. -/
  covered : List Block
  /-- The blocks after. -/
  after : List Block
  container : doc.container? path = some (before ++ covered ++ after)
  ends : ∃ first last, covered.head? = some first ∧ covered.getLast? = some last ∧
    ((p ∈ first.paragraphs ∧ q ∈ last.paragraphs) ∨ (p ∈ last.paragraphs ∧ q ∈ first.paragraphs))

end Document

/-- The region is the one of the comment, with the blocks of the extent. -/
structure Region.Spans {doc : Document} {p q : Paragraph} (r : Region) (c : Comment)
    (e : doc.Extent p q) : Prop where
  id : r.id = c.id
  text : r.text = c.text
  parent : r.parent = c.parent
  start : r.start = p.id
  stop : r.stop = q.id
  blocks : r.blocks = e.covered.map Block.id
  precedingBreak : r.precedingBreak =
    (e.before.getLast?.bind Block.paragraph?).bind fun p => p.style.sectionBreak
  breakCount : r.breakCount =
    ((e.covered.filterMap Block.paragraph?).filter Paragraph.endsSection).length

namespace Document

variable {doc : Document}

/-- What is between two places of a list. -/
theorem covered_of_le {α : Type} {as : List α} {i j : Nat} {a b : α} (hij : i ≤ j)
    (ha : as[i]? = some a) (hb : as[j]? = some b) :
    as = as.take i ++ (as.take (j + 1)).drop i ++ as.drop (j + 1) ∧
      ((as.take (j + 1)).drop i).head? = some a ∧ ((as.take (j + 1)).drop i).getLast? = some b ∧
      (as.take i).getLast? = if i = 0 then none else as[i - 1]? := by
  have hj : j < as.length := (List.getElem?_eq_some_iff.1 hb).1
  refine ⟨?_, ?_, ?_, ?_⟩
  · have htake : (as.take (j + 1)).take i = as.take i := by
      rw [List.take_take, Nat.min_eq_left (Nat.le_succ_of_le hij)]
    rw [← htake, List.take_append_drop, List.take_append_drop]
  · rw [List.head?_drop, List.getElem?_take_of_lt (Nat.lt_succ_of_le hij), ha]
  · rw [List.getLast?_drop, List.getLast?_take, if_neg (by simp; omega), if_neg (by simp)]
    simp [hb]
  · rw [List.getLast?_take]
    split
    · rfl
    · rw [List.getElem?_eq_getElem (by omega)]
      rfl

/-- It does not matter which of the two places is the first one. -/
theorem exists_covered {α : Type} {as : List α} {i j : Nat} {a b : α} (ha : as[i]? = some a)
    (hb : as[j]? = some b) :
    as = as.take (min i j) ++ (as.take (max i j + 1)).drop (min i j) ++ as.drop (max i j + 1) ∧
      (∃ first last, ((as.take (max i j + 1)).drop (min i j)).head? = some first ∧
        ((as.take (max i j + 1)).drop (min i j)).getLast? = some last ∧
          ((a = first ∧ b = last) ∨ (a = last ∧ b = first))) ∧
      (as.take (min i j)).getLast? = if min i j = 0 then none else as[min i j - 1]? := by
  rcases Nat.le_total i j with hij | hij
  · rw [Nat.min_eq_left hij, Nat.max_eq_right hij]
    obtain ⟨hsplit, hhead, hlast, hbefore⟩ := covered_of_le hij ha hb
    exact ⟨hsplit, ⟨a, b, hhead, hlast, .inl ⟨rfl, rfl⟩⟩, hbefore⟩
  · rw [Nat.min_eq_right hij, Nat.max_eq_left hij]
    obtain ⟨hsplit, hhead, hlast, hbefore⟩ := covered_of_le hij hb ha
    exact ⟨hsplit, ⟨b, a, hhead, hlast, .inr ⟨rfl, rfl⟩⟩, hbefore⟩

/-- Between two places is an extent, in the container that they have in common. -/
theorem exists_extent {path path' : Path} {p q : Paragraph}
    (hp : (path, p) ∈ doc.placedParagraphs) (hq : (path', q) ∈ doc.placedParagraphs)
    (c : Comment) : ∃ (e : doc.Extent p q) (r : Region), e.path = path.commonContainer path' ∧
      doc.regionOf? c (p.id, path) (q.id, path') = some r ∧ r.Spans c e := by
  obtain ⟨siblings, i, j, b, b', hsiblings, hi, hj, hb, hb', hpb, hqb⟩ :=
    Path.exists_blocks_commonContainer hp hq
  obtain ⟨hsplit, ⟨first, last, hhead, hlast, hends⟩, hbefore⟩ := exists_covered hb hb'
  have hmem : (p ∈ first.paragraphs ∧ q ∈ last.paragraphs) ∨
      (p ∈ last.paragraphs ∧ q ∈ first.paragraphs) := by
    rcases hends with ⟨rfl, rfl⟩ | ⟨rfl, rfl⟩
    · exact .inl ⟨hpb, hqb⟩
    · exact .inr ⟨hpb, hqb⟩
  refine ⟨⟨_, _, _, _, hsiblings.trans (congrArg some hsplit), first, last, hhead, hlast, hmem⟩,
    _, rfl, Option.bind_eq_some_iff.2 ⟨siblings, hsiblings, Option.bind_eq_some_iff.2
      ⟨i, hi, Option.bind_eq_some_iff.2 ⟨j, hj, rfl⟩⟩⟩, rfl, rfl, rfl, rfl, rfl, rfl, ?_, rfl⟩
  rw [hbefore]

/-! ## Regions of comments -/

/-- The region of a comment that starts at a place. -/
def regionAt? (doc : Document) (start : CommentId × NodeId × Path) : Option Region :=
  (doc.comment? start.1).bind fun c =>
    doc.regionOf? { c with id := start.1 } start.2
      ((doc.rangeEnds.reverse.lookup start.1).getD start.2)

theorem regions_eq : doc.regions = doc.rangeStarts.filterMap doc.regionAt? :=
  rfl

theorem start_of_regionAt? {start : CommentId × NodeId × Path} {r : Region}
    (h : doc.regionAt? start = some r) : r.start = start.2.1 := by
  obtain ⟨c, -, h⟩ := Option.bind_eq_some_iff.1 h
  obtain ⟨siblings, -, h⟩ := Option.bind_eq_some_iff.1 h
  obtain ⟨i, -, h⟩ := Option.bind_eq_some_iff.1 h
  obtain ⟨j, -, h⟩ := Option.bind_eq_some_iff.1 h
  obtain rfl := Option.some.inj h
  rfl

/-- A start of a range has a region if the comment has a definition: up to the last end. -/
theorem exists_spans {path : Path} {p : Paragraph} (hp : (path, p) ∈ doc.placedParagraphs)
    {id : CommentId} {c : Comment} (hc : doc.comment? id = some c) :
    ∃ path' r, (path', doc.lastEnd id p) ∈ doc.placedParagraphs ∧
      doc.regionAt? (id, p.id, path) = some r ∧ ∃ e : doc.Extent p (doc.lastEnd id p),
        e.path = path.commonContainer path' ∧ r.Spans { c with id } e := by
  obtain ⟨path', hq, hstop⟩ := exists_lastEnd hp id
  obtain ⟨e, r, hpath, hr, hspans⟩ := exists_extent hp hq { c with id }
  refine ⟨path', r, hq, ?_, e, hpath, hspans⟩
  rw [regionAt?, hc, Option.bind_some, hstop, hr]

theorem exists_regionAt? {start : CommentId × NodeId × Path} (h : start ∈ doc.rangeStarts)
    {c : Comment} (hc : doc.comment? start.1 = some c) :
    ∃ r, doc.regionAt? start = some r ∧ r.id = start.1 ∧ r.text = c.text ∧ r.parent = c.parent ∧
      r.start = start.2.1 := by
  obtain ⟨id, node, path⟩ := start
  obtain ⟨p, hp, -, rfl⟩ := mem_rangeStarts_iff.1 h
  obtain ⟨-, r, -, hr, e, -, hspans⟩ := exists_spans hp hc
  exact ⟨r, hr, hspans.id, hspans.text, hspans.parent, hspans.start⟩

/-- Every region is one from a start of a range up to the last end. -/
theorem exists_of_mem_regions {r : Region} (h : r ∈ doc.regions) :
    ∃ path p c, doc.comment? r.id = some c ∧ (path, p) ∈ doc.placedParagraphs ∧
      .rangeStart r.id ∈ p.content ∧
        ∃ e : doc.Extent p (doc.lastEnd r.id p), r.Spans { c with id := r.id } e := by
  obtain ⟨⟨id, node, path⟩, hstart, h⟩ := List.mem_filterMap.1 h
  obtain ⟨c, hc, -⟩ := Option.bind_eq_some_iff.1 h
  obtain ⟨p, hp, hitem, rfl⟩ := mem_rangeStarts_iff.1 hstart
  obtain ⟨-, r', -, hr', e, -, hspans⟩ := exists_spans hp hc
  obtain rfl := Option.some.inj (hr'.symm.trans h)
  obtain rfl : r'.id = id := hspans.id
  exact ⟨path, p, c, hc, hp, hitem, e, hspans⟩

/-- A start of a range with a definition has a region. -/
theorem exists_region {path : Path} {p : Paragraph} {id : CommentId} {c : Comment}
    (hp : (path, p) ∈ doc.placedParagraphs) (hstart : .rangeStart id ∈ p.content)
    (hc : doc.comment? id = some c) :
    ∃ r ∈ doc.regions, r.id = id ∧ r.text = c.text ∧ r.parent = c.parent ∧ r.start = p.id := by
  have hmem : (id, p.id, path) ∈ doc.rangeStarts := mem_rangeStarts_iff.2 ⟨p, hp, hstart, rfl⟩
  obtain ⟨r, hr, hspec⟩ := exists_regionAt? hmem hc
  exact ⟨r, List.mem_filterMap.2 ⟨_, hmem, hr⟩, hspec⟩

/-- What a region refers to is in the document. -/
theorem region_spec {r : Region} (h : r ∈ doc.regions) :
    (∃ c, doc.comment? r.id = some c ∧ r.text = c.text ∧ r.parent = c.parent) ∧
      (∃ p ∈ doc.paragraphs, .rangeStart r.id ∈ p.content ∧ r.start = p.id) ∧
      ∀ id ∈ r.blocks, ∃ e ∈ doc.outline, e.node.isBlock ∧ e.id = id := by
  obtain ⟨path, p, c, hc, hp, hitem, extent, hspans⟩ := exists_of_mem_regions h
  refine ⟨⟨c, hc, hspans.text, hspans.parent⟩,
    ⟨p, mem_paragraphs_iff.2 ⟨_, hp⟩, hitem, hspans.start⟩, fun id hid => ?_⟩
  rw [hspans.blocks] at hid
  obtain ⟨b, hb, rfl⟩ := List.mem_map.1 hid
  obtain ⟨pre, post, inside, hout, -⟩ := Block.exists_segment extent.container []
  refine ⟨⟨b.node, inside⟩, ?_, by cases b <;> rfl, b.id_node⟩
  rw [outline, hout]
  have hmem : (⟨b.node, inside⟩ : Placed) ∈
      Block.outlineOf (extent.before ++ extent.covered ++ extent.after) inside :=
    List.mem_flatMap.2 ⟨b, by simp [hb], b.node_mem_outline inside⟩
  exact List.mem_append_left _ (List.mem_append_right _ hmem)

end Document

/-! ## Paragraphs in regions -/

section Attached

variable {n : Nat}

/-- A block in the document is a segment of the outline, and what is under its number is in
    this segment. -/
theorem Document.exists_segment_of_node? {doc : Document}
    (hnodup : (Placed.originalIds n doc.outline).Nodup) {id : NodeId} (hpos : 0 < id) (hle : id ≤ n)
    {b : Block} (hb : doc.node? id = some b) :
    ∃ pre post around, doc.outline = pre ++ b.outline around ++ post ∧
      ∀ e ∈ doc.outline, e.node.isBlock → e.IsUnder id → e ∈ b.outline around := by
  obtain ⟨path, hpath, hat⟩ := Option.bind_eq_some_iff.1 hb
  obtain ⟨xs, k, b', hat', hid⟩ := exists_isAt hpath
  obtain rfl := Option.some.inj (hat'.block?.symm.trans hat)
  obtain ⟨around, -, hmodify⟩ := hat'.exists_exchange
  obtain ⟨body, -, hex⟩ := hmodify (fun i blocks => blocks.eraseIdx i) []
    (by simp [List.eraseIdx_eq_take_drop_succ])
  -- Without the block, nothing has its number.
  have hgone : ({ doc with body } : Document).locate? id = none := by
    rw [locate?_eq_none_iff]
    intro e he _
    have hnode : (⟨b'.node, around⟩ : Placed).id = id := b'.id_node.trans hid
    rw [← hnode]
    refine hex.not_mem hnodup (by simp) (b'.node_mem_outline around) ?_ e he
    simp [Placed.isOriginal, hnode, hpos, hle]
  obtain ⟨pre, post, hold, hnew⟩ := hex.outline
  refine ⟨pre, post, around, hold, fun e he hblock hunder => ?_⟩
  rw [hold, List.mem_append, List.mem_append] at he
  rcases he with (he | he) | he
  · exact absurd hunder (not_isUnder hgone (by simp [hnew, he]) hblock)
  · exact he
  · exact absurd hunder (not_isUnder hgone (by simp [hnew, he]) hblock)

variable {r : Region} {doc : Document}

theorem Region.id_mem_blocks {b : Block} (h : b ∈ r.attached doc) : b.id ∈ r.blocks := by
  obtain ⟨id, hid, hb⟩ := List.mem_filterMap.1 h
  rw [(Document.node_mem_outline hb).1]
  exact hid

/-- The paragraphs in a region are in the document. -/
theorem Region.paragraphsOf_attached_subset :
    Block.paragraphsOf (r.attached doc) ⊆ doc.paragraphs := by
  intro p hp
  obtain ⟨b, hb, hp⟩ := List.mem_flatMap.1 hp
  obtain ⟨id, -, hb⟩ := List.mem_filterMap.1 hb
  obtain ⟨-, around, hsub⟩ := Document.node_mem_outline hb
  rw [Block.paragraphs_eq_outline b around] at hp
  rw [Document.paragraphs_eq_outline]
  exact List.filterMap_subset _ hsub hp

/-- The paragraphs in a region are those that its blocks are, or are around. -/
theorem Region.mem_attached_iff (hnodup : (Placed.originalIds n doc.outline).Nodup)
    (hblocks : ∀ id ∈ r.blocks, 0 < id ∧ id ≤ n) {p : Paragraph} :
    p ∈ Block.paragraphsOf (r.attached doc) ↔ ∃ around, ⟨.paragraph p, around⟩ ∈ doc.outline ∧
      ∃ id ∈ r.blocks, Placed.IsUnder id ⟨.paragraph p, around⟩ := by
  simp only [Block.paragraphsOf, List.mem_flatMap, attached, List.mem_filterMap]
  constructor
  · rintro ⟨b, ⟨id, hid, hb⟩, hp⟩
    obtain ⟨hbid, around, hsub⟩ := Document.node_mem_outline hb
    rw [b.paragraphs_eq_outline around] at hp
    obtain ⟨⟨q | id' | id', a⟩, he, hq⟩ := List.mem_filterMap.1 hp
    · obtain rfl := Option.some.inj hq
      refine ⟨a, hsub he, id, hid, ?_⟩
      rcases Block.eq_or_around_of_mem_outline he rfl with heq | hposition
      · exact .inl ((congrArg Placed.id heq).trans (b.id_node.trans hbid))
      · exact .inr (hbid ▸ hposition)
    · cases hq
    · cases hq
  · rintro ⟨a, he, id, hid, hunder⟩
    obtain ⟨b, hb⟩ := Option.isSome_iff_exists.1
      (Document.isSome_node?_of_isUnder he rfl hunder)
    obtain ⟨-, -, around, -, hmem⟩ := Document.exists_segment_of_node? hnodup (hblocks id hid).1
      (hblocks id hid).2 hb
    refine ⟨b, ⟨id, hid, hb⟩, ?_⟩
    rw [b.paragraphs_eq_outline around]
    exact List.mem_filterMap.2 ⟨_, hmem _ he rfl hunder, rfl⟩

/-- Their numbers. -/
theorem Region.mem_paragraphIds_iff (hnodup : (Placed.originalIds n doc.outline).Nodup)
    (hblocks : ∀ id ∈ r.blocks, 0 < id ∧ id ≤ n) {id : NodeId} :
    id ∈ r.paragraphIds doc ↔ ∃ p around, ⟨.paragraph p, around⟩ ∈ doc.outline ∧ p.id = id ∧
      ∃ block ∈ r.blocks, Placed.IsUnder block ⟨.paragraph p, around⟩ := by
  rw [paragraphIds, List.mem_map]
  constructor
  · rintro ⟨p, hp, rfl⟩
    obtain ⟨around, he, hunder⟩ := (mem_attached_iff hnodup hblocks).1 hp
    exact ⟨p, around, he, rfl, hunder⟩
  · rintro ⟨p, around, he, rfl, hunder⟩
    exact ⟨p, (mem_attached_iff hnodup hblocks).2 ⟨around, he, hunder⟩, rfl⟩

end Attached

end DocTemplate
