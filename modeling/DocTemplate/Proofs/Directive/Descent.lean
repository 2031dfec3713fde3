import DocTemplate.Directive.Registry
import DocTemplate.Proofs.Directive.Repetition

/-!
# What directives make of a document

Every edit of a directive is a step of descent (`Document.Descends`), whatever it
is applied to. Removals and repetitions leave the paragraphs alone that stay; a
replacement of words changes the runs of a paragraph; and a filling of a table
may write the first row of the table anew, paragraph by paragraph
(`Paragraph.Edited`).

* `Document.Loses`: what a removal makes of a document;
* `Repetition.descends_perform`: repetitions, if the copies can have new numbers;
* `Repetition.locate?_eq_none`: the blocks of the region are gone then;
* `WordReplacement.yields_perform`: what a replacement of words exchanges;
* `TableFill.yields_dropTable`, `TableFill.yields_fillTable`: which table is removed or filled;
* `TableFill.descends_fill`: fillings of tables.
-/

namespace DocTemplate

variable {f : Filler} {R : List CellPosition → Paragraph → Paragraph → Prop} {n : Nat}
  {d d' : Draft} {edit : Edit}

/-! ## Removals -/

/-- The document `doc'` is `doc`, or `doc` without some node and what is in it. -/
def Document.Loses (doc doc' : Document) : Prop :=
  doc' = doc ∨ ∃ old, doc.Exchange old [] doc'

namespace Document.Loses

variable {doc doc' : Document}

theorem descends (h : doc.Loses doc') (hrefl : ∀ a p, R a p p) : doc.Descends R n doc' := by
  rcases h with rfl | ⟨old, hex⟩
  · exact .refl hrefl _
  · exact hex.descends hrefl (.of_new (by simp))

theorem sublist (h : doc.Loses doc') : doc'.outline.Sublist doc.outline := by
  rcases h with rfl | ⟨old, hex⟩
  · exact .refl _
  · obtain ⟨pre, post, hold, hnew⟩ := hex.outline
    rw [hold, hnew, List.append_nil, List.append_assoc]
    exact (List.Sublist.refl pre).append (List.sublist_append_right _ _)

theorem subset (h : doc.Loses doc') : doc'.outline ⊆ doc.outline :=
  h.sublist.subset

theorem lastId (h : doc.Loses doc') : doc'.lastId = doc.lastId := by
  rcases h with rfl | ⟨old, hex⟩
  · rfl
  · exact hex.lastId

theorem of_removeBlock? {id : NodeId} {b : Block} (h : doc.removeBlock? id = some (b, doc')) :
    doc.Loses doc' := by
  obtain ⟨-, around, hex⟩ := exchange_of_removeBlock? h
  exact .inr ⟨_, hex⟩

theorem of_removeRow? {id : NodeId} {row : Row Block} (h : doc.removeRow? id = some (row, doc')) :
    doc.Loses doc' := by
  obtain ⟨-, table, around, hex⟩ := exchange_of_removeRow? h
  exact .inr ⟨_, hex⟩

end Document.Loses

namespace Display

theorem loses_removeParagraph (h : (removeParagraph edit).Yields d () d') :
    d.document.Loses d'.document := by
  cases edit with
  | removeParagraph id => exact Revision.document_of_edit? (.inl rfl) (fun _ _ => .of_removeBlock?) h
  | _ =>
    obtain ⟨-, rfl⟩ := Revision.yields_pure.1 h
    exact .inl rfl

theorem loses_removeRow (h : (removeRow edit).Yields d () d') :
    d.document.Loses d'.document := by
  cases edit with
  | removeRow id => exact Revision.document_of_edit? (.inl rfl) (fun _ _ => .of_removeRow?) h
  | _ =>
    obtain ⟨-, rfl⟩ := Revision.yields_pure.1 h
    exact .inl rfl

theorem loses_removeTable (h : (removeTable edit).Yields d () d') :
    d.document.Loses d'.document := by
  cases edit with
  | removeTable id => exact Revision.document_of_edit? (.inl rfl) (fun _ _ => .of_removeBlock?) h
  | _ =>
    obtain ⟨-, rfl⟩ := Revision.yields_pure.1 h
    exact .inl rfl

end Display

/-! ## Repetitions -/

theorem Block.isOriginal_eq_false {blocks : List Block} {around : List CellPosition}
    (h : ∀ id ∈ blocks.flatMap Block.ids, n < id) :
    ∀ e ∈ outlineOf blocks around, e.isOriginal n = false := by
  intro e he
  have hid : e.id ∈ blocks.flatMap Block.ids := by
    rw [← map_id_outlineOf blocks around]
    exact List.mem_map_of_mem he
  exact Placed.isOriginal_eq_false (h e.id hid)

/-- The original cells around a node of new blocks are around all of them. -/
theorem Block.mem_around_of_new {blocks : List Block} {around : List CellPosition}
    (h : ∀ id ∈ blocks.flatMap Block.ids, n < id) {x : Placed} (hx : x ∈ outlineOf blocks around)
    {position : CellPosition} (hposition : position ∈ x.around) (hle : position.table ≤ n) :
    position ∈ around := by
  obtain ⟨b, hb, hx⟩ := List.mem_flatMap.1 hx
  rcases around_of_mem_outline hx hposition with hin | ⟨a, ha⟩
  · exact hin
  · have htable : position.table ∈ blocks.flatMap Block.ids := by
      rw [← map_id_outlineOf blocks around]
      exact List.mem_map.2 ⟨_, List.mem_flatMap.2 ⟨b, hb, ha⟩, rfl⟩
    exact absurd hle (Nat.not_le.2 (h _ htable))

theorem Repetition.descends_perform (hrefl : ∀ a p, R a p p)
    (htrans : ∀ a p q r, R a p q → R a q r → R a p r) (hn : n ≤ d.document.lastId)
    (h : (perform f edit).Yields d () d') : d.document.Descends R n d'.document := by
  cases edit with
  | repeatBlocks i items =>
    obtain ⟨last, hle, hcases⟩ := yields_perform h
    have hlast : d.document.Descends R n { d.document with lastId := last } :=
      .of_lastId hrefl hle
    rcases hcases with ⟨-, hdoc⟩ | ⟨-, removed, generated, around, -, hids, hex⟩
    · rw [hdoc]
      exact hlast
    · refine hlast.trans htrans (hex.descends hrefl (.of_new ?_))
      exact Block.isOriginal_eq_false fun id hid => Nat.lt_of_le_of_lt hn (lt_of_ids hids hid)
  | _ =>
    obtain ⟨-, rfl⟩ := Revision.yields_pure.1 h
    exact .refl hrefl _

/-- After a repetition, no paragraph or table has a number of its region. -/
theorem Repetition.locate?_eq_none {i : Instruction} {items : List Value}
    (hn : n ≤ d.document.lastId) (hnodup : (Placed.originalIds n d.document.outline).Nodup)
    (h : (perform f (.repeatBlocks i items)).Yields d () d') {id : NodeId}
    (hid : id ∈ i.site.region.blocks) (hpos : 0 < id) (hle : id ≤ n) :
    d'.document.locate? id = none := by
  have hdescends : d.document.Descends (fun _ _ _ => True) n d'.document :=
    descends_perform (fun _ _ => trivial) (fun _ _ _ _ _ _ => trivial) hn h
  cases hpath : d.document.locate? id with
  | none => exact hdescends.locate?_eq_none hpos hle hpath
  | some path =>
    obtain ⟨xs, k, b, hat, hb⟩ := Document.exists_isAt hpath
    have hnode : d.document.node? id = some b := by simp [Document.node?, hpath, hat.block?]
    have hmem : b ∈ i.site.region.attached d.document := List.mem_filterMap.2 ⟨id, hid, hnode⟩
    obtain ⟨last, -, ⟨hnil, -⟩ | ⟨-, removed, generated, around, hids, hnew, hex⟩⟩ := yields_perform h
    · rw [hnil] at hmem
      cases hmem
    · obtain ⟨b', hb', hbid⟩ := List.mem_map.1 (hids ▸ List.mem_map_of_mem hmem)
      have hnodeId : (⟨b'.node, around⟩ : Placed).id = id := b'.id_node.trans (hbid.trans hb)
      rw [Document.locate?_eq_none_iff]
      intro e he _
      rw [← hnodeId]
      refine hex.not_mem hnodup ?_ (List.mem_flatMap.2 ⟨b', hb', b'.node_mem_outline around⟩) ?_ e he
      · exact Block.isOriginal_eq_false fun id hid => Nat.lt_of_le_of_lt hn (lt_of_ids hnew hid)
      · rw [Placed.isOriginal_iff, hnodeId]
        exact ⟨hpos, hle⟩

/-! ## Changes of paragraphs -/

/-- The change of a paragraph by replaced words, or by the filling of one of the
    tables in `filled` if the paragraph is directly in a cell of it: then nothing of
    the paragraph is left but a text. -/
def Paragraph.Edited (filled : NodeId → Prop) (around : List CellPosition) (p q : Paragraph) :
    Prop :=
  Inline.nonRunsOf q.content = Inline.nonRunsOf p.content ∨
    (Inline.nonRunsOf q.content = [] ∧ ∃ position, around.head? = some position ∧
      filled position.table)

namespace Paragraph.Edited

variable {filled : NodeId → Prop}

theorem refl (around : List CellPosition) (p : Paragraph) : p.Edited filled around p :=
  .inl rfl

theorem trans (around : List CellPosition) (p q r : Paragraph) (h : p.Edited filled around q)
    (h' : q.Edited filled around r) : p.Edited filled around r := by
  rcases h' with h' | h'
  · rcases h with h | ⟨h, hfilled⟩
    · exact .inl (h'.trans h)
    · exact .inr ⟨h'.trans h, hfilled⟩
  · exact .inr h'

end Paragraph.Edited

namespace WordReplacement

theorem nonRunsOf_replaceRuns (content : List RunItem) (items : List Inline) :
    Inline.nonRunsOf (replaceRuns content items) = Inline.nonRunsOf items := by
  fun_induction replaceRuns content items with
  | case1 => rfl
  | case2 r items => simp
  | case3 item items hitem ih =>
    cases item with
    | run r => exact absurd rfl (hitem r)
    | _ => simpa [Inline.nonRunsOf, Inline.isRun] using ih

/-- The replacement of a word keeps all items that are no runs. -/
theorem nonRunsOf_replaceBetween? {comment : CommentId} {content : List RunItem}
    {items items' : List Inline} (h : replaceBetween? comment content items = some items') :
    Inline.nonRunsOf items' = Inline.nonRunsOf items := by
  obtain ⟨start, -, h⟩ := Option.bind_eq_some_iff.1 h
  obtain ⟨stop, -, h⟩ := Option.bind_eq_some_iff.1 h
  obtain ⟨hany, h⟩ := Option.ite_none_right_eq_some.1 h
  obtain rfl := Option.some.inj h
  -- There is something between the anchors, so the first one comes first.
  have hle : start + 1 ≤ stop := by
    by_contra hlt
    rw [List.drop_eq_nil_of_le (by simp; omega)] at hany
    cases hany
  have hitems : items = items.take (start + 1) ++ ((items.take stop).drop (start + 1) ++
      items.drop stop) := by
    conv_lhs => rw [← List.take_append_drop stop items]
    rw [← List.append_assoc]
    congr 1
    conv_lhs => rw [← List.take_append_drop (start + 1) (items.take stop)]
    rw [List.take_take, Nat.min_eq_left hle]
  conv_rhs => rw [hitems]
  simp [nonRunsOf_replaceRuns]

/-- A replacement does nothing, or exchanges a paragraph for one with other items. -/
theorem yields_perform (h : (perform f edit).Yields d () d') :
    d' = d ∨ ∃ paragraph comment text p items around, edit = .replaceWord paragraph comment text ∧
      d.document.paragraph? paragraph = some p ∧
        replaceBetween? comment (RunItem.breakLines f.settings.lineBreak text) p.content =
          some items ∧
        d.document.Exchange [⟨.paragraph p, around⟩]
          [⟨.paragraph { p with content := items }, around⟩] d'.document := by
  cases edit with
  | replaceWord paragraph comment text =>
    rcases Revision.yields_edit?_count.1 h with ⟨a, doc, hdoc, rfl⟩ | ⟨-, rfl⟩
    · obtain ⟨p, hp, hdoc⟩ := Option.bind_eq_some_iff.1 hdoc
      obtain ⟨items, hitems, hdoc⟩ := Option.bind_eq_some_iff.1 hdoc
      obtain ⟨doc', hmodify, hdoc⟩ := Option.bind_eq_some_iff.1 hdoc
      cases hdoc
      obtain ⟨p', around, hp', hex⟩ := Document.exchange_of_modifyParagraph? hmodify
      obtain rfl := Option.some.inj (hp'.symm.trans hp)
      exact .inr ⟨paragraph, comment, text, p', items, around, rfl, hp, hitems, hex⟩
    · exact .inl rfl
  | _ =>
    obtain ⟨-, rfl⟩ := Revision.yields_pure.1 h
    exact .inl rfl

end WordReplacement

/-! ## Tables -/

section Fill

variable {filled : NodeId → Prop} {around : List CellPosition} {table : NodeId}

/-- A filled cell has a paragraph of the cell, with a text in it, or a new one. -/
theorem Cell.descend_filled {position : CellPosition} (hfilled : filled position.table)
    (text : String) (c : Cell Block) :
    Placed.Descend (Paragraph.Edited filled) n (c.outline Block.outline around position)
      ((c.filled text).outline Block.outline around position) := by
  cases hp : c.content.findSome? Block.paragraph? with
  | none =>
    refine .of_new fun e he => ?_
    simp only [Cell.outline, Cell.filled, hp, List.flatMap_cons, List.flatMap_nil,
      Block.outline_paragraph, List.append_nil, List.mem_singleton] at he
    rw [he]
    rfl
  | some p =>
    obtain ⟨b, hb, hbp⟩ := List.exists_of_findSome?_eq_some hp
    obtain rfl : b = .paragraph p := by cases b <;> simp_all [Block.paragraph?]
    have hmem : (⟨.paragraph p, position :: around⟩ : Placed) ∈
        c.outline Block.outline around position :=
      List.mem_flatMap.2 ⟨_, hb, by simp⟩
    have hkept : Placed.Descend (Paragraph.Edited filled) n
        (c.outline Block.outline around position) [⟨.paragraph p, position :: around⟩] :=
      .of_sublist Paragraph.Edited.refl (List.singleton_sublist.2 hmem)
    refine hkept.trans Paragraph.Edited.trans (.of_becomes ?_)
    simp only [Cell.outline, Cell.filled, hp, List.flatMap_cons, List.flatMap_nil,
      Block.outline_paragraph, List.append_nil]
    exact .cons (.paragraph rfl (.inr ⟨rfl, position, rfl, hfilled⟩)) .nil

/-- The first cells of a headed row are filled, and the others are as they were. -/
theorem Row.forall₂_headed (headers : List String) (row : Row Block) :
    List.Forall₂ (fun c c' => c' = c ∨ ∃ text, c' = Cell.filled text c) row.cells
      (row.headed headers).cells := by
  obtain ⟨id, cells⟩ := row
  simp only [headed]
  induction cells generalizing headers with
  | nil => simp
  | cons c cells ih =>
    cases headers with
    | nil => exact .cons (.inl rfl) (by simp)
    | cons header headers => exact .cons (.inr ⟨header, rfl⟩) (ih headers)

/-- A headed row has the nodes of the row, with texts in its paragraphs. -/
theorem Row.descend_headed (hfilled : filled table) (headers : List String) (row : Row Block) :
    Placed.Descend (Paragraph.Edited filled) n (row.outline Block.outline around table)
      ((row.headed headers).outline Block.outline around table) := by
  have hcells : ∀ cells cells' : List (Cell Block), ∀ start,
      List.Forall₂ (fun c c' => c' = c ∨ ∃ text, c' = Cell.filled text c) cells cells' →
      Placed.Descend (Paragraph.Edited filled) n
        ((cells.zipIdx start).flatMap fun c =>
          c.1.outline Block.outline around ⟨table, row.id, c.2⟩)
        ((cells'.zipIdx start).flatMap fun c =>
          c.1.outline Block.outline around ⟨table, row.id, c.2⟩) := by
    intro cells cells' start h
    induction h generalizing start with
    | nil => exact .refl Paragraph.Edited.refl _
    | cons hc _ ih =>
      rw [List.zipIdx_cons, List.zipIdx_cons, List.flatMap_cons, List.flatMap_cons]
      refine .append ?_ (ih (start + 1))
      rcases hc with rfl | ⟨text, rfl⟩
      · exact .refl Paragraph.Edited.refl _
      · exact Cell.descend_filled hfilled text _
  exact .cons Paragraph.Edited.refl _ (hcells _ _ 0 (row.forall₂_headed headers))

/-- A layout says which of the rows, in their order, plays which part. -/
theorem TableLayout.rows_eq_of_ofRows? {rows : List (Row Block)} {layout : TableLayout}
    (h : ofRows? rows = some layout) :
    rows = layout.header.toList ++ layout.template :: layout.rest := by
  rcases rows with _ | ⟨header, _ | ⟨template, rest⟩⟩
  · cases h
  · obtain rfl := Option.some.inj h
    rfl
  · obtain rfl := Option.some.inj h
    rfl

/-- The headers are written into paragraphs that were there, or into new ones. -/
theorem TableLayout.descend_header (layout : TableLayout) (hfilled : filled table)
    (headers : List String) :
    Placed.Descend (Paragraph.Edited filled) n
      (layout.header.toList.flatMap (Row.outline Block.outline around table))
      ((layout.header.map (Row.headed headers)).toList.flatMap
        (Row.outline Block.outline around table)) := by
  cases layout.header with
  | none => exact .refl Paragraph.Edited.refl _
  | some header => simpa using Row.descend_headed hfilled headers header

end Fill

namespace TableFill

variable {filled : NodeId → Prop} {i : Instruction}

/-- An instruction finds its table, or there is nothing left to find it by. -/
theorem yields_target {o : Option NodeId} (h : (target i).Yields d o d') :
    d' = d ∧ o = target? d.document i.site := by
  rw [target] at h
  obtain ⟨doc, d₁, hdoc, hrest⟩ := Revision.yields_bind.1 h
  obtain ⟨rfl, rfl⟩ := Revision.yields_document.1 hdoc
  split at hrest
  · next table htable =>
    obtain ⟨rfl, rfl⟩ := Revision.yields_pure.1 hrest
    exact ⟨rfl, htable.symm⟩
  · next hnone =>
    split at hrest
    · obtain ⟨rfl, rfl⟩ := Revision.yields_pure.1 hrest
      exact ⟨rfl, hnone.symm⟩
    · exact absurd hrest Revision.yields_throw

/-- Numbered rows have the next numbers. -/
theorem yields_numberRows {rows rows' : List (Row Block)}
    (h : Revision.Yields (rows.mapM fun row => Revision.edit fun doc => doc.numberRow row)
      d rows' d') :
    ∃ last, d.document.lastId ≤ last ∧ d'.document = { d.document with lastId := last } ∧
      rows'.flatMap (Row.ids Block.ids) =
        List.range' (d.document.lastId + 1) (last - d.document.lastId) := by
  induction rows generalizing d rows' with
  | nil =>
    obtain ⟨rfl, rfl⟩ := Revision.yields_pure.1 h
    exact ⟨d'.document.lastId, Nat.le_refl _, rfl, by simp⟩
  | cons row rows ih =>
    obtain ⟨first, d₁, rest, hfirst, hrest, rfl⟩ := Revision.yields_mapM_cons.1 h
    obtain ⟨rfl, rfl⟩ := Revision.yields_edit.1 hfirst
    obtain ⟨⟨last, hle, hdoc⟩, hids⟩ := d.document.numberRow_spec row
    obtain ⟨last', hle', hdoc', hids'⟩ := ih hrest
    rw [hdoc] at hids hle' hdoc' hids'
    refine ⟨last', Nat.le_trans hle hle', hdoc', ?_⟩
    dsimp only at hids hle' hids'
    rw [List.flatMap_cons, hids, hids', Numbering.next_append_next hle hle']

/-- The rows of a filled table have the nodes of its rows, or new ones. -/
theorem descend_rows {rows records : List (Row Block)} {layout : TableLayout}
    (hlayout : TableLayout.ofRows? rows = some layout) {table : NodeId} (hfilled : filled table)
    (headers : List String) {around : List CellPosition}
    (hnew : ∀ id ∈ records.flatMap (Row.ids Block.ids), n < id) :
    Placed.Descend (Paragraph.Edited filled) n
      (rows.flatMap fun r => r.outline Block.outline around table)
      ((layout.rows headers records).flatMap fun r => r.outline Block.outline around table) := by
  have hrecords : ∀ es, Placed.Descend (Paragraph.Edited filled) n es
      (records.flatMap fun r => r.outline Block.outline around table) := by
    intro es
    refine .of_new fun e he => ?_
    obtain ⟨r, hr, he⟩ := List.mem_flatMap.1 he
    have hid : e.id ∈ records.flatMap (Row.ids Block.ids) := by
      refine List.mem_flatMap.2 ⟨r, hr, ?_⟩
      rw [← Row.map_id_outline (fun b _ a => b.map_id_outline a) around table]
      exact List.mem_map_of_mem he
    exact Placed.isOriginal_eq_false (hnew e.id hid)
  have hheader : Placed.Descend (Paragraph.Edited filled) n
      (layout.header.toList.flatMap (Row.outline Block.outline around table))
      ((layout.header.map (Row.headed headers)).toList.flatMap
        (Row.outline Block.outline around table)) := layout.descend_header hfilled headers
  have happend := (hheader.append
    (hrecords (layout.template.outline Block.outline around table))).append
      (.refl Paragraph.Edited.refl (layout.rest.flatMap (Row.outline Block.outline around table)))
  rw [TableLayout.rows_eq_of_ofRows? hlayout]
  simpa [TableLayout.rows] using happend

/-- A filled table is exchanged for one with other rows, those of the records having the
    next numbers. -/
theorem yields_fill {settings : Settings} {data : Grid} {table : NodeId} {t : Table Block}
    {layout : TableLayout} (ht : d.document.table? table = some t)
    (h : (fill settings data table layout).Yields d () d') :
    ∃ last records d₁, d.document.lastId ≤ last ∧
      Revision.Yields ((layout.records data).mapM fun row =>
        Revision.edit fun doc => doc.numberRow row) d records d₁ ∧
      records.flatMap (Row.ids Block.ids) =
        List.range' (d.document.lastId + 1) (last - d.document.lastId) ∧
      (d'.document = { d.document with lastId := last } ∨ ∃ around,
        ({ d.document with lastId := last } : Document).Exchange ((Block.table t).outline around)
          ((Block.table { t with rows := layout.rows data.headers records }).outline around)
          d'.document) := by
  rw [fill] at h
  dsimp only at h
  split at h
  · obtain ⟨_, _, h, -⟩ := Revision.yields_bind.1 h
    exact absurd h Revision.yields_throw
  obtain ⟨records, d₁, hrecords, h₁⟩ := Revision.yields_bind.1 h
  obtain ⟨last, hle, hdoc, hids⟩ := yields_numberRows hrecords
  refine ⟨last, records, d₁, hle, hrecords, hids, ?_⟩
  rcases Revision.yields_edit?_count.1 h₁ with ⟨a, doc, hmodify, rfl⟩ | ⟨-, rfl⟩
  · obtain ⟨doc', hmodify, hdoc'⟩ := Option.bind_eq_some_iff.1 hmodify
    cases hdoc'
    obtain ⟨t', around, ht', hex⟩ := Document.exchange_of_modifyTable? hmodify
    -- The numbers do not matter for where the table is.
    have hsame : d₁.document.table? table = d.document.table? table := by
      rw [hdoc]
      rfl
    obtain rfl := Option.some.inj (ht'.symm.trans (hsame.trans ht))
    rw [hdoc] at hex
    exact .inr ⟨around, hex⟩
  · exact .inl hdoc

theorem descends_fill {settings : Settings} {data : Grid} {table : NodeId} {t : Table Block}
    {layout : TableLayout} (hfilled : filled table) (hn : n ≤ d.document.lastId)
    (ht : d.document.table? table = some t) (hlayout : TableLayout.ofRows? t.rows = some layout)
    (h : (fill settings data table layout).Yields d () d') :
    d.document.Descends (Paragraph.Edited filled) n d'.document := by
  obtain ⟨last, records, -, hle, -, hids, hdoc | ⟨around, hex⟩⟩ := yields_fill ht h
  · rw [hdoc]
    exact .of_lastId Paragraph.Edited.refl hle
  · refine (Document.Descends.of_lastId Paragraph.Edited.refl hle).trans Paragraph.Edited.trans
      (hex.descends Paragraph.Edited.refl ?_)
    rw [Block.outline_table, Block.outline_table]
    have hid : t.id = table :=
      (Document.node_mem_outline (Document.table?_eq_some_iff.1 ht)).1
    refine .cons Paragraph.Edited.refl _ ?_
    refine descend_rows hlayout (hid ▸ hfilled) data.headers fun id hid => ?_
    rw [hids, Numbering.mem_next_iff hle] at hid
    exact Nat.lt_of_le_of_lt hn hid.1

/-- What is done to a table is done if there is one that the instruction is about. -/
theorem yields_if_target {step : NodeId → Revision Unit}
    (h : Revision.Yields (do if let some table ← target i then step table) d () d') :
    d' = d ∨ ∃ table, target? d.document i.site = some table ∧ (step table).Yields d () d' := by
  obtain ⟨o, d₁, htarget, hrest⟩ := Revision.yields_bind.1 h
  obtain ⟨rfl, ho⟩ := yields_target htarget
  cases o with
  | none => exact .inl (Revision.yields_pure.1 hrest).2
  | some table => exact .inr ⟨table, ho.symm, hrest⟩

/-- A removal does nothing, or removes the table that its instruction is about. -/
theorem yields_dropTable (h : (perform f (.dropTable i)).Yields d () d') :
    d' = d ∨ ∃ table b, target? d.document i.site = some table ∧
      d.document.removeBlock? table = some (b, d'.document) := by
  rcases yields_if_target h with rfl | ⟨table, htarget, hdrop⟩
  · exact .inl rfl
  rcases Revision.yields_edit?_count.1 hdrop with ⟨b, doc, hdoc, rfl⟩ | ⟨-, rfl⟩
  · exact .inr ⟨table, b, htarget, hdoc⟩
  · exact .inl rfl

theorem loses_dropTable (h : (perform f (.dropTable i)).Yields d () d') :
    d.document.Loses d'.document := by
  rcases yields_dropTable h with rfl | ⟨table, b, -, hremove⟩
  · exact .inl rfl
  · exact .of_removeBlock? hremove

/-- A filling does nothing, or fills the table that its instruction is about. -/
theorem yields_fillTable {data : Grid} (h : (perform f (.fillTable i data)).Yields d () d') :
    d' = d ∨ ∃ table t layout, target? d.document i.site = some table ∧
      d.document.table? table = some t ∧ TableLayout.ofRows? t.rows = some layout ∧
        (fill f.settings data table layout).Yields d () d' := by
  rcases yields_if_target h with rfl | ⟨table, htarget, hrest⟩
  · exact .inl rfl
  obtain ⟨doc, d₁, hdoc, hrest⟩ := Revision.yields_bind.1 hrest
  obtain ⟨rfl, rfl⟩ := Revision.yields_document.1 hdoc
  cases ht : d₁.document.table? table with
  | none =>
    rw [ht] at hrest
    exact .inl (Revision.yields_pure.1 hrest).2
  | some t =>
    simp only [ht, Option.bind_some] at hrest
    cases hlayout : TableLayout.ofRows? t.rows with
    | none =>
      rw [hlayout] at hrest
      exact .inl (Revision.yields_pure.1 hrest).2
    | some layout =>
      rw [hlayout] at hrest
      exact .inr ⟨table, t, layout, htarget, ht, hlayout, hrest⟩

end TableFill

end DocTemplate
