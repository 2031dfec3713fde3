import DocTemplate.Proofs.Directive.Move
import Mathlib.Logic.Relation

/-!
# Where paragraphs come from

A move brings paragraphs into a document in three ways: a repetition copies those of its
template (`Paragraph.IsCopy`), a replacement of words changes one that is there
(`Paragraph.Reworded`), and a filling of a table writes texts (`Paragraph.IsWritten`). All
other paragraphs were there before.

* `Repetition.isCopy_of_yields_perform`: the paragraphs after a repetition;
* `TableFill.isWritten_of_yields_fill`: those after a table was filled;
* `Move.brings`: those after any move.
-/

namespace DocTemplate

/-- The paragraph `q` is `p` with its placeholders filled, all of which have a rendering. -/
def Filler.Resolves (f : Filler) (scope : Value) (p q : Paragraph) : Prop :=
  (∃ tally, f.fillParagraph scope p = .ok (q, tally)) ∧
    ∀ ph ∈ f.delimiters.scan p.text, ∃ rendering, f.renderingOf scope ph = .ok rendering

namespace Paragraph

/-- The paragraph without any anchor of a comment. -/
def withoutAnchors (p : Paragraph) : Paragraph :=
  p.keepAnchors fun _ => false

/-- The paragraph `q` is a copy of `p` for an item: it has no anchors, and its placeholders
    are filled in the scope of the item. The copy may end another section. -/
def IsCopy (f : Filler) (item : Value) (p q : Paragraph) : Prop :=
  ∃ filled, (∃ tally, f.fillParagraph item { p.withoutAnchors with id := q.id } =
      .ok (filled, tally)) ∧
    q = { filled with style := { filled.style with sectionBreak := q.style.sectionBreak } }

/-- The paragraph `q` is `p` after some replacements of words. -/
structure Reworded (p q : Paragraph) : Prop where
  id : q.id = p.id
  style : q.style = p.style
  content : Relation.ReflTransGen (fun items items' => ∃ comment content,
    WordReplacement.replaceBetween? comment content items = some items') p.content q.content

/-- The paragraph has one of the texts of some data, or an empty one, and nothing else. -/
def IsWritten (data : Grid) (q : Paragraph) : Prop :=
  ∃ text style, q.content = [.run (.ofText text style)] ∧
    (text = "" ∨ text ∈ data.headers ∨ ∃ record ∈ data.records, text ∈ record)

variable {p q : Paragraph}

theorem commentId?_of_mem_withoutAnchors {item : Inline} (h : item ∈ p.withoutAnchors.content) :
    item.commentId? = none := by
  have hall := (List.mem_filter.1 h).2
  cases hid : item.commentId? with
  | none => rfl
  | some id => simp [hid] at hall

/-- Filling brings no anchors. -/
theorem Refilled.commentId? (h : p.Refilled q) (hp : ∀ item ∈ p.content, item.commentId? = none) :
    ∀ item ∈ q.content, item.commentId? = none := by
  intro item hitem
  by_cases hrun : item.isRun
  · cases item <;> first | rfl | cases hrun
  · have hmem : item ∈ Inline.nonRunsOf q.content := List.mem_filter.2 ⟨hitem, by simpa using hrun⟩
    rw [h.2.2] at hmem
    exact hp item (List.mem_filter.1 hmem).1

theorem IsCopy.commentId? {f : Filler} {scope : Value} (h : p.IsCopy f scope q) :
    ∀ item ∈ q.content, item.commentId? = none := by
  obtain ⟨filled, ⟨tally, hfill⟩, heq⟩ := h
  have hrefilled : Refilled { p.withoutAnchors with id := q.id } filled :=
    Filler.fillParagraph_frame hfill
  rw [heq]
  exact hrefilled.commentId? fun item => commentId?_of_mem_withoutAnchors

theorem IsWritten.commentId? {data : Grid} (h : q.IsWritten data) :
    ∀ item ∈ q.content, item.commentId? = none := by
  obtain ⟨text, style, hcontent, -⟩ := h
  rw [hcontent]
  simp [Inline.commentId?]

/-- There are no words to replace without anchors. -/
theorem exists_commentId? {comment : CommentId} {content : List RunItem} {items items' : List Inline}
    (h : WordReplacement.replaceBetween? comment content items = some items') :
    ∃ item ∈ items, item.commentId? ≠ none := by
  obtain ⟨start, hstart, -⟩ := Option.bind_eq_some_iff.1 h
  obtain ⟨hlt, heq, -⟩ := List.findIdx?_eq_some_iff_getElem.1 hstart
  refine ⟨_, List.getElem_mem hlt, ?_⟩
  rw [of_decide_eq_true heq]
  simp [Inline.commentId?]

end Paragraph

namespace Filler

variable {f : Filler} {scope : Value} {p q : Paragraph} {tally : Tally}

/-- Where nothing makes up for a missing value, all placeholders have one. -/
theorem resolves (hrecovery : f.recovery? = none) (h : f.fillParagraph scope p = .ok (q, tally)) :
    f.Resolves scope p q := by
  refine ⟨⟨tally, h⟩, ?_⟩
  obtain ⟨state, hsteps, -⟩ := Except.bind_eq_ok.1 h
  generalize ({ content := p.content } : Progress) = start at hsteps
  generalize f.delimiters.scan p.text = phs at hsteps ⊢
  induction phs generalizing start with
  | nil => simp
  | cons ph phs ih =>
    rw [List.foldlM_cons] at hsteps
    obtain ⟨next, hstep, hsteps⟩ := Except.bind_eq_ok.1 hsteps
    obtain ⟨outcome, houtcome, -⟩ := Except.bind_eq_ok.1 hstep
    rw [List.forall_mem_cons]
    refine ⟨?_, ih next hsteps⟩
    rw [replacement] at houtcome
    cases hrendering : f.renderingOf scope ph with
    | ok rendering => exact ⟨rendering, rfl⟩
    | error error =>
      simp only [hrendering, hrecovery, ite_self] at houtcome
      cases houtcome

end Filler

/-- And so have those of a copy. -/
theorem Paragraph.IsCopy.resolved {f : Filler} {item : Value} {p q : Paragraph}
    (h : p.IsCopy f item q) (hrecovery : f.recovery? = none) :
    ∀ ph ∈ f.delimiters.scan p.text, ∃ rendering, f.renderingOf item ph = .ok rendering := by
  obtain ⟨filled, ⟨tally, hfill⟩, -⟩ := h
  have htext : Paragraph.text { p.withoutAnchors with id := q.id } = p.text :=
    p.text_keepAnchors fun _ => false
  rw [← htext]
  exact (Filler.resolves hrecovery hfill).2

/-- A segment of paragraphs that was exchanged: the others were there before. -/
theorem Document.Exchange.mem_paragraphs {doc doc' : Document} {old new : List Placed}
    (h : doc.Exchange old new doc') {q : Paragraph} (hq : q ∈ doc'.paragraphs) :
    q ∈ doc.paragraphs ∨ q ∈ new.filterMap Placed.paragraph? := by
  obtain ⟨pre, post, hold, hnew⟩ := h.outline
  rw [paragraphs_eq_outline, hnew] at hq
  rw [paragraphs_eq_outline, hold]
  simp only [List.filterMap_append, List.mem_append] at hq ⊢
  tauto

theorem Document.Loses.paragraphs_subset {doc doc' : Document} (h : doc.Loses doc') :
    doc'.paragraphs ⊆ doc.paragraphs := by
  rw [paragraphs_eq_outline, paragraphs_eq_outline]
  exact List.filterMap_subset _ h.subset

/-- Blocks with the same paragraphs but for their numbers. -/
theorem Block.exists_of_texts {bs bs' : List Block} {q : Paragraph}
    (h : bs'.flatMap texts = bs.flatMap texts) (hq : q ∈ paragraphsOf bs') :
    ∃ p ∈ paragraphsOf bs, q = { p with id := q.id } := by
  have hmem : q.unnumbered ∈ bs.flatMap texts := by
    rw [← h]
    obtain ⟨b, hb, hq⟩ := List.mem_flatMap.1 hq
    exact List.mem_flatMap.2 ⟨b, hb, List.mem_map_of_mem hq⟩
  obtain ⟨b, hb, hp⟩ := List.mem_flatMap.1 hmem
  obtain ⟨p, hp, heq⟩ := List.mem_map.1 hp
  refine ⟨p, List.mem_flatMap.2 ⟨b, hb, hp⟩, ?_⟩
  obtain ⟨id, content, style⟩ := q
  simp only [Paragraph.unnumbered, Paragraph.mk.injEq, true_and] at heq
  simp [heq]

variable {f : Filler} {d d' : Draft}

/-! ## Repetitions -/

namespace Repetition

variable {template blocks : List Block} {q : Paragraph}

theorem mem_paragraphsOf_of_becomes {R : Paragraph → Paragraph → Prop} {as bs : List Block}
    (h : List.Forall₂ (Placed.Becomes fun _ => R) (Block.outlineOf as []) (Block.outlineOf bs []))
    (hq : q ∈ Block.paragraphsOf bs) : ∃ p ∈ Block.paragraphsOf as, q.id = p.id ∧ R p q := by
  rw [Block.paragraphsOf_eq_outline _ []] at hq ⊢
  obtain ⟨y, hy, hyq⟩ := List.mem_filterMap.1 hq
  obtain ⟨x, hx, hbecomes⟩ := h.exists_of_mem_right hy
  cases hbecomes with
  | @paragraph p q' around hid hR =>
    obtain rfl := Option.some.inj hyq
    exact ⟨p, List.mem_filterMap.2 ⟨_, hx, rfl⟩, hid, hR⟩
  | table => cases hyq
  | row => cases hyq

theorem isCopy_of_yields_copy {item : Value} (h : (copy f template item).Yields d blocks d')
    (hq : q ∈ Block.paragraphsOf blocks) :
    ∃ p ∈ Block.paragraphsOf template, p.IsCopy f item q := by
  obtain ⟨tally, hblocks, -⟩ := exists_of_yields_copy h
  obtain ⟨p', hp', hid, hfilled⟩ :=
    mem_paragraphsOf_of_becomes (Filler.forall₂_fillParagraph hblocks) hq
  obtain ⟨-, -, htexts⟩ := d.document.numberBlocks_spec (template.map Block.withoutAnchors)
  obtain ⟨p'', hp'', heq⟩ := Block.exists_of_texts htexts hp'
  have hmap : Block.paragraphsOf (template.map Block.withoutAnchors) =
      (Block.paragraphsOf template).map Paragraph.withoutAnchors :=
    Block.paragraphsOf_mapParagraphs _ template
  rw [hmap] at hp''
  obtain ⟨p, hp, rfl⟩ := List.mem_map.1 hp''
  refine ⟨p, hp, q, ?_, rfl⟩
  rw [hid]
  rw [heq] at hfilled
  exact hfilled

/-- Ending a section changes nothing else of the paragraphs. -/
theorem exists_of_mem_endWith {layout : SectionLayout}
    (hq : q ∈ Block.paragraphsOf (endWith layout blocks)) : ∃ p ∈ Block.paragraphsOf blocks,
      q = { p with style := { p.style with sectionBreak := q.style.sectionBreak } } := by
  rw [endWith] at hq
  split at hq
  · next p hlast =>
    obtain ⟨init, rfl⟩ := List.getLast?_eq_some_iff.1 hlast
    simp only [List.dropLast_concat, Block.paragraphsOf, List.flatMap_append, List.mem_append,
      List.flatMap_singleton, Block.paragraphs_paragraph, List.mem_singleton] at hq ⊢
    rcases hq with hq | rfl
    · exact ⟨q, .inl hq, rfl⟩
    · exact ⟨p, .inr rfl, rfl⟩
  · exact ⟨q, hq, rfl⟩

theorem isCopy_of_yields_copies {layout : Option SectionLayout} {items : List Value}
    (h : (copies f template layout items).Yields d blocks d')
    (hq : q ∈ Block.paragraphsOf blocks) :
    ∃ item ∈ items, ∃ p ∈ Block.paragraphsOf template, p.IsCopy f item q := by
  fun_induction copies f template layout items generalizing d blocks with
  | case1 =>
    obtain ⟨rfl, -⟩ := Revision.yields_pure.1 h
    cases hq
  | case2 item => exact ⟨item, List.mem_cons_self, isCopy_of_yields_copy h hq⟩
  | case3 item items hitems ih =>
    obtain ⟨first, d₁, hfirst, h⟩ := Revision.yields_bind.1 h
    obtain ⟨rest, d₂, hrest, h⟩ := Revision.yields_bind.1 h
    obtain ⟨rfl, rfl⟩ := Revision.yields_pure.1 h
    rw [Block.paragraphsOf, List.flatMap_append, List.mem_append] at hq
    rcases hq with hq | hq
    · have hended : ∃ q' ∈ Block.paragraphsOf first,
          q = { q' with style := { q'.style with sectionBreak := q.style.sectionBreak } } := by
        cases layout with
        | none => exact ⟨q, hq, rfl⟩
        | some layout => exact exists_of_mem_endWith hq
      obtain ⟨q', hq', heq⟩ := hended
      obtain ⟨p, hp, filled, hfill, heq'⟩ := isCopy_of_yields_copy hfirst hq'
      have hid : q.id = q'.id := by rw [heq]
      refine ⟨item, List.mem_cons_self, p, hp, filled, ?_, ?_⟩
      · rw [hid]
        exact hfill
      · rw [heq, heq']
    · obtain ⟨item', hitem', hcopy⟩ := ih hrest hq
      exact ⟨item', List.mem_cons_of_mem _ hitem', hcopy⟩

/-- A paragraph after a repetition was there, or is a copy of one in the template. -/
theorem isCopy_of_yields_perform {i : Instruction} {items : List Value}
    (h : (perform f (.repeatBlocks i items)).Yields d () d') (hq : q ∈ d'.document.paragraphs) :
    q ∈ d.document.paragraphs ∨ ∃ item ∈ items,
      ∃ p ∈ Block.paragraphsOf (i.site.region.attached d.document), p.IsCopy f item q := by
  obtain ⟨generated, d₁, hcopies, h⟩ := exists_of_yields_perform h
  obtain ⟨last, -, hlast, -⟩ := yields_copies hcopies
  have hsame : d₁.document.paragraphs = d.document.paragraphs := by rw [hlast]; rfl
  obtain ⟨-, rfl⟩ | ⟨-, removed, doc, hr, rfl⟩ := h
  · exact .inl (hsame ▸ hq)
  · obtain ⟨-, around, hex⟩ := Document.exchange_of_replaceBlocks? hr
    rcases hex.mem_paragraphs hq with hq | hq
    · exact .inl (hsame ▸ hq)
    · rw [← Block.paragraphsOf_eq_outline] at hq
      exact .inr (isCopy_of_yields_copies hcopies hq)

end Repetition

/-! ## Tables -/

namespace TableFill

variable {data : Grid} {q : Paragraph} {rows : List (Row Block)} {layout : TableLayout}

theorem isWritten_filled {text : String} {c : Cell Block} {b : Block}
    (htext : text = "" ∨ text ∈ data.headers ∨ ∃ record ∈ data.records, text ∈ record)
    (hb : b ∈ (c.filled text).content) (hq : q ∈ b.paragraphs) : q.IsWritten data := by
  obtain rfl := List.mem_singleton.1 hb
  rw [Block.paragraphs_paragraph, List.mem_singleton] at hq
  subst hq
  exact ⟨text, _, rfl, htext⟩

/-- A paragraph of a headed row was there, or is written. -/
theorem isWritten_of_mem_headed {row : Row Block} {b : Block} (hb : b ∈ (row.headed data.headers).items)
    (hq : q ∈ b.paragraphs) : q ∈ Block.paragraphsOf row.items ∨ q.IsWritten data := by
  rw [Row.items] at hb
  obtain ⟨c, hc, hb⟩ := List.mem_flatMap.1 hb
  rcases List.mem_append.1 hc with hc | hc
  · obtain ⟨⟨cell, header⟩, hzip, rfl⟩ := List.mem_map.1 hc
    exact .inr (isWritten_filled (.inr (.inl (List.of_mem_zip hzip).2)) hb hq)
  · refine .inl (List.mem_flatMap.2 ⟨b, ?_, hq⟩)
    exact List.mem_flatMap.2 ⟨c, List.mem_of_mem_drop hc, hb⟩

/-- The paragraphs of a row for a record are written. -/
theorem isWritten_of_mem_recorded {columns : Nat} {record : List String} (hrecord : record ∈ data.records)
    {row : Row Block} {b : Block} (hb : b ∈ (row.recorded columns record).items)
    (hq : q ∈ b.paragraphs) : q.IsWritten data := by
  rw [Row.items] at hb
  obtain ⟨c, hc, hb⟩ := List.mem_flatMap.1 hb
  obtain ⟨⟨cell, k⟩, -, rfl⟩ := List.mem_map.1 hc
  refine isWritten_filled ?_ hb hq
  cases htext : (record.take columns)[k]? with
  | none => exact .inl rfl
  | some text => exact .inr (.inr ⟨record, hrecord, List.mem_of_mem_take (List.mem_of_getElem? htext)⟩)

/-- The numbered rows for the records have written paragraphs only. -/
theorem isWritten_of_yields_numberRows {rows' : List (Row Block)}
    (h : Revision.Yields (rows.mapM fun row => Revision.edit fun doc => doc.numberRow row)
      d rows' d')
    (hrows : ∀ row ∈ rows, ∀ p ∈ Block.paragraphsOf row.items, p.IsWritten data) :
    ∀ row ∈ rows', ∀ p ∈ Block.paragraphsOf row.items, p.IsWritten data := by
  induction rows generalizing d rows' with
  | nil =>
    obtain ⟨rfl, -⟩ := Revision.yields_pure.1 h
    simp
  | cons row rows ih =>
    obtain ⟨first, d₁, rest, hfirst, hrest, rfl⟩ := Revision.yields_mapM_cons.1 h
    obtain ⟨rfl, -⟩ := Revision.yields_edit.1 hfirst
    rw [List.forall_mem_cons] at hrows ⊢
    refine ⟨fun q hq => ?_, ih hrest hrows.2⟩
    obtain ⟨p, hp, heq⟩ := Block.exists_of_texts (d.document.texts_numberRow row) hq
    rw [heq]
    exact hrows.1 p hp

/-- A paragraph of a filled table was there, or is written. -/
theorem isWritten_of_mem_rows (hlayout : TableLayout.ofRows? rows = some layout)
    {records : List (Row Block)}
    (hrecords : ∀ row ∈ records, ∀ p ∈ Block.paragraphsOf row.items, p.IsWritten data)
    {row : Row Block} (hrow : row ∈ layout.rows data.headers records)
    (hq : q ∈ Block.paragraphsOf row.items) :
    (∃ row ∈ rows, q ∈ Block.paragraphsOf row.items) ∨ q.IsWritten data := by
  have hrows := TableLayout.rows_eq_of_ofRows? hlayout
  rw [TableLayout.rows, List.mem_append, List.mem_append] at hrow
  rcases hrow with (hrow | hrow) | hrow
  · obtain ⟨header, hheader, rfl⟩ := Option.map_eq_some_iff.1 (Option.mem_toList.1 hrow)
    obtain ⟨b, hb, hq⟩ := List.mem_flatMap.1 hq
    exact (isWritten_of_mem_headed hb hq).imp_left fun hq => ⟨header, by simp [hrows, hheader], hq⟩
  · exact .inr (hrecords row hrow q hq)
  · exact .inl ⟨row, by simp [hrows, hrow], hq⟩

theorem isWritten_of_yields_fill {settings : Settings} {table : NodeId} {t : Table Block}
    (ht : d.document.table? table = some t) (hlayout : TableLayout.ofRows? t.rows = some layout)
    (h : (fill settings data table layout).Yields d () d') (hq : q ∈ d'.document.paragraphs) :
    q ∈ d.document.paragraphs ∨ q.IsWritten data := by
  obtain ⟨last, records, d₁, -, hrecords, -, hdoc | ⟨around, hex⟩⟩ := yields_fill ht h
  · rw [hdoc] at hq
    exact .inl hq
  · rcases hex.mem_paragraphs hq with hq | hq
    · exact .inl hq
    · rw [← Block.paragraphs_eq_outline, Block.paragraphs_table] at hq
      obtain ⟨b, hb, hq⟩ := List.mem_flatMap.1 hq
      obtain ⟨row, hrow, hb⟩ := List.mem_flatMap.1 hb
      refine (isWritten_of_mem_rows hlayout (isWritten_of_yields_numberRows hrecords ?_) hrow
        (List.mem_flatMap.2 ⟨b, hb, hq⟩)).imp_left fun ⟨row, hrow, hq⟩ => ?_
      · intro row hrow p hp
        obtain ⟨record, hrecord, rfl⟩ := List.mem_map.1 hrow
        obtain ⟨b, hb, hp⟩ := List.mem_flatMap.1 hp
        exact isWritten_of_mem_recorded hrecord hb hp
      · rw [Document.paragraphs_eq_outline]
        refine List.filterMap_subset _ hex.subset ?_
        rw [← Block.paragraphs_eq_outline, Block.paragraphs_table, Table.items,
          List.flatMap_assoc]
        exact List.mem_flatMap.2 ⟨row, hrow, hq⟩

end TableFill

/-! ## Moves -/

/-- Where a paragraph after a move comes from: it was there before, it is a copy of one in the
    template of a repetition, or one with other words, or a text written into a table. -/
inductive Move.Brings (f : Filler) (d : Draft) (q : Paragraph) : Move → Prop
  | kept {m : Move} (there : q ∈ d.document.paragraphs) : Brings f d q m
  | copied {i : Instruction} {items : List Value} {item : Value} {p : Paragraph}
      (given : item ∈ items) (there : p ∈ Block.paragraphsOf (i.site.region.attached d.document))
      (copy : p.IsCopy f item q) : Brings f d q ⟨.repetitions, .repeatBlocks i items⟩
  | reworded {paragraph : NodeId} {comment : CommentId} {text : String} {p : Paragraph}
      {items : List Inline} (there : p ∈ d.document.paragraphs)
      (replaced : WordReplacement.replaceBetween? comment
        (RunItem.breakLines f.settings.lineBreak text) p.content = some items)
      (eq : q = { p with content := items }) :
      Brings f d q ⟨.words, .replaceWord paragraph comment text⟩
  | written {i : Instruction} {data : Grid} (text : q.IsWritten data) :
      Brings f d q ⟨.fills, .fillTable i data⟩

theorem Move.brings {m : Move} {q : Paragraph} (h : (m.perform f).Yields d () d')
    (hq : q ∈ d'.document.paragraphs) : m.Brings f d q := by
  cases does h with
  | loses hloses => exact .kept (hloses.paragraphs_subset hq)
  | repeats hrepeat =>
    rcases Repetition.isCopy_of_yields_perform hrepeat hq with hq | ⟨item, hitem, p, hp, hcopy⟩
    · exact .kept hq
    · exact .copied hitem hp hcopy
  | rewords _ hitems hex =>
    rcases hex.mem_paragraphs hq with hq | hq
    · exact .kept hq
    · refine .reworded ?_ hitems (List.mem_singleton.1 hq)
      rw [Document.paragraphs_eq_outline]
      exact List.mem_filterMap.2 ⟨_, hex.subset List.mem_cons_self, rfl⟩
  | fills _ ht hlayout hfill =>
    rcases TableFill.isWritten_of_yields_fill ht hlayout hfill hq with hq | hwritten
    · exact .kept hq
    · exact .written hwritten

end DocTemplate
