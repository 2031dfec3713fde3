import DocTemplate.Cleanup
import DocTemplate.Document.Edit
import DocTemplate.Document.Numbering
import DocTemplate.Proofs.Document.Relation

/-!
# Documents of one shape

Two documents are *related* if their bodies are trees of one shape, with the same numbers and
with related paragraphs, and if all else is the same but for the languages in notes
(`Document.Related`). What the paragraphs have in common is a parameter.

In related documents a number has the same place, or none, and what is there is related. An
edit by number can be made in both or in neither, and leaves related documents.

* `Document.Related.locate?_eq`, `Document.Related.node?`: lookups;
* `Document.Related.modifySiblings?`, on which all edits rest;
* `Document.Related.removeBlock?`, `Document.Related.removeRow?`,
  `Document.Related.replaceBlocks?`, `Document.Related.modifyParagraph?`,
  `Document.Related.modifyTable?`: edits;
* `Document.Related.number`: numbering.
-/

namespace DocTemplate

variable {R : Paragraph → Paragraph → Prop}

namespace Block

variable {I : NodeId → NodeId → Prop} {b b' : Block} {bs bs' : List Block}

theorem Related.id_eq (hR : ∀ p q, R p q → q.id = p.id) (h : Related Eq R b b') : b'.id = b.id := by
  cases b with
  | paragraph p =>
    obtain ⟨q, rfl, hpq⟩ := related_paragraph.1 h
    exact hR p q hpq
  | table t =>
    obtain ⟨t', rfl, ht⟩ := related_table.1 h
    exact ht.id.symm

theorem Related.paragraph? (h : Related I R b b') : Option.Rel R b.paragraph? b'.paragraph? := by
  cases b with
  | paragraph p =>
    obtain ⟨q, rfl, hpq⟩ := related_paragraph.1 h
    exact .some hpq
  | table t =>
    obtain ⟨t', rfl, -⟩ := related_table.1 h
    exact .none

theorem Related.table? (h : Related I R b b') :
    Option.Rel (Table.Related I (Related I R)) b.table? b'.table? := by
  cases b with
  | paragraph p =>
    obtain ⟨q, rfl, -⟩ := related_paragraph.1 h
    exact .none
  | table t =>
    obtain ⟨t', rfl, ht⟩ := related_table.1 h
    exact .some ht

theorem Related.paragraphs (h : Related I R b b') : List.Forall₂ R b.paragraphs b'.paragraphs :=
  h.fold (fun _ _ hpq => .cons hpq .nil) fun _ _ ht => List.rel_flatten ht.items

/-- What looks at the numbers of paragraphs only is the same for related blocks. -/
theorem Related.fold_eq {α : Type} {f : Paragraph → α} {k : Table α → α} (h : Related Eq R b b')
    (hf : ∀ p q, R p q → f p = f q) : b'.fold f k = b.fold f k :=
  (h.fold hf fun _ _ ht => congrArg k ht.eq).symm

theorem Related.find?_eq (hR : ∀ p q, R p q → q.id = p.id) (h : Related Eq R b b') (id : NodeId) :
    b'.find? id = b.find? id :=
  h.fold_eq fun p q hpq => by rw [hR p q hpq]

theorem Related.findRow?_eq (h : Related Eq R b b') (id : NodeId) :
    b'.findRow? id = b.findRow? id :=
  h.fold_eq fun _ _ _ => rfl

theorem Related.placedParagraphs (h : Related I R b b') :
    List.Forall₂ (fun x y => y.1 = x.1 ∧ R x.2 y.2) b.placedParagraphs b'.placedParagraphs := by
  refine h.fold (fun p q hpq => .cons ⟨rfl, hpq⟩ .nil) fun t t' ht => ?_
  refine List.rel_flatMap ht.indexed ?_
  rintro ⟨_, inner⟩ ⟨place, inner'⟩ ⟨rfl, hinner⟩
  refine List.rel_map (fun a b hab => ⟨?_, hab.2⟩) hinner
  exact congrArg (place.1 :: place.2.1 :: place.2.2 :: ·) hab.1

theorem container?_cons (bs : List Block) (b r c : Nat) (path : Path) :
    Block.container? bs (b :: r :: c :: path) = (bs[b]?.bind Block.table?).bind fun t =>
      (t.rows[r]?).bind fun row => (row.cells[c]?).bind fun cell =>
        Block.container? cell.content path := by
  rw [Block.container?]
  rcases bs[b]? with _ | _ | t <;> rfl

theorem modifyContainer?_cons (f : List Block → List Block) (bs : List Block) (b r c : Nat)
    (path : Path) :
    modifyContainer? f bs (b :: r :: c :: path) = (bs[b]?.bind Block.table?).bind fun t =>
      (t.rows[r]?).bind fun row => (row.cells[c]?).bind fun cell =>
        (modifyContainer? f cell.content path).map fun content =>
          bs.set b (.table { t with
            rows := t.rows.set r { row with cells := row.cells.set c { cell with content } } }) := by
  rw [modifyContainer?]
  rcases bs[b]? with _ | _ | t <;> rfl

/-- Blocks at the same place in rows and cells at the same place. -/
theorem Related.bind_cell {α β : Type} {S : α → β → Prop} (h : List.Forall₂ (Related I R) bs bs')
    (b r c : Nat) {f : Table Block → Row Block → Cell Block → Option α}
    {g : Table Block → Row Block → Cell Block → Option β}
    (hfg : ∀ t t' row row' cell cell', t.Related I (Related I R) t' →
      row.Related I (Related I R) row' → cell.Related (Related I R) cell' →
        Option.Rel S (f t row cell) (g t' row' cell')) :
    Option.Rel S
      ((bs[b]?.bind Block.table?).bind fun t => (t.rows[r]?).bind fun row =>
        (row.cells[c]?).bind fun cell => f t row cell)
      ((bs'[b]?.bind Block.table?).bind fun t => (t.rows[r]?).bind fun row =>
        (row.cells[c]?).bind fun cell => g t row cell) := by
  refine ((h.getElem? b).bind fun _ _ hb => hb.table?).bind fun t t' ht => ?_
  refine (ht.rows.getElem? r).bind fun row row' hrow => ?_
  exact (hrow.cells.getElem? c).bind fun cell cell' hcell => hfg _ _ _ _ _ _ ht hrow hcell

/-- The containers at the same place are related, if there are any. -/
theorem Related.container? : ∀ (path : Path) {bs bs' : List Block},
    List.Forall₂ (Related I R) bs bs' →
      Option.Rel (List.Forall₂ (Related I R)) (Block.container? bs path)
        (Block.container? bs' path)
  | [], _, _, h => .some h
  | [_], _, _, _ => .none
  | [_, _], _, _, _ => .none
  | b :: r :: c :: path, _, _, h => by
    rw [container?_cons, container?_cons]
    exact bind_cell h b r c fun _ _ _ _ _ _ _ _ hcell => container? path hcell.content

/-- Blocks stay related if a container of them is changed. -/
theorem Related.modifyContainer? {f g : List Block → List Block}
    (hfg : ∀ bs bs', List.Forall₂ (Related I R) bs bs' → List.Forall₂ (Related I R) (f bs) (g bs')) :
    ∀ (path : Path) {bs bs' : List Block}, List.Forall₂ (Related I R) bs bs' →
      Option.Rel (List.Forall₂ (Related I R)) (Block.modifyContainer? f bs path)
        (Block.modifyContainer? g bs' path)
  | [], _, _, h => .some (hfg _ _ h)
  | [_], _, _, _ => .none
  | [_, _], _, _, _ => .none
  | b :: r :: c :: path, _, _, h => by
    rw [modifyContainer?_cons, modifyContainer?_cons]
    refine bind_cell h b r c fun _ _ _ _ _ _ ht hrow hcell =>
      (modifyContainer? hfg path hcell.content).map fun content content' hcontent => ?_
    refine h.set b (related_table.2 ⟨_, rfl, ht.id, ht.styleId, ht.rows.set r ⟨hrow.id, ?_⟩⟩)
    exact hrow.cells.set c ⟨hcell.gridSpan, hcontent⟩

end Block

/-! ## Documents -/

/-- The documents have the same nodes, with related paragraphs, and the same comments; and they
    have the same notes, languages aside. -/
structure Document.Related (R : Paragraph → Paragraph → Prop) (doc doc' : Document) : Prop where
  body : List.Forall₂ (Block.Related Eq R) doc.body doc'.body
  comments : doc'.comments = doc.comments
  footnotes : doc'.footnotes.map Note.stripLanguage = doc.footnotes.map Note.stripLanguage
  endnotes : doc'.endnotes.map Note.stripLanguage = doc.endnotes.map Note.stripLanguage
  finalSection : doc'.finalSection = doc.finalSection
  lastId : doc'.lastId = doc.lastId

namespace Document.Related

variable {doc doc' : Document}

theorem with_body (h : doc.Related R doc') {body body' : List Block}
    (hbody : List.Forall₂ (Block.Related Eq R) body body') :
    ({ doc with body } : Document).Related R { doc' with body := body' } :=
  ⟨hbody, h.comments, h.footnotes, h.endnotes, h.finalSection, h.lastId⟩

theorem mapParagraphs {S : Paragraph → Paragraph → Prop} {f g : Paragraph → Paragraph}
    (h : doc.Related R doc') (hfg : ∀ p q, R p q → S (f p) (g q)) :
    (doc.mapParagraphs f).Related S (doc'.mapParagraphs g) where
  body := List.rel_map (fun _ _ hb => hb.mapParagraphs hfg) h.body
  comments := h.comments
  footnotes := h.footnotes
  endnotes := h.endnotes
  finalSection := h.finalSection
  lastId := h.lastId

theorem paragraphs (h : doc.Related R doc') : List.Forall₂ R doc.paragraphs doc'.paragraphs :=
  List.rel_flatMap h.body fun _ _ hb => hb.paragraphs

theorem placedParagraphs (h : doc.Related R doc') :
    List.Forall₂ (fun x y => y.1 = x.1 ∧ R x.2 y.2) doc.placedParagraphs doc'.placedParagraphs := by
  refine List.rel_flatMap (h.body.zipIdx 0) ?_
  rintro ⟨b, _⟩ ⟨b', i⟩ ⟨rfl, hb⟩
  exact List.rel_map (fun _ _ hab => ⟨congrArg (i :: ·) hab.1, hab.2⟩) hb.placedParagraphs

/-! ### Lookups -/

theorem container? (h : doc.Related R doc') (path : Path) :
    Option.Rel (List.Forall₂ (Block.Related Eq R)) (doc.container? path) (doc'.container? path) :=
  Block.Related.container? path h.body

theorem siblings? (h : doc.Related R doc') (path : Path) :
    Option.Rel (List.Forall₂ (Block.Related Eq R)) (doc.siblings? path) (doc'.siblings? path) := by
  rw [Document.siblings?, Document.siblings?]
  split
  · exact .none
  · exact h.container? _

theorem block? (h : doc.Related R doc') (path : Path) :
    Option.Rel (Block.Related Eq R) (doc.block? path) (doc'.block? path) := by
  rw [Document.block?, Document.block?]
  cases path.getLast? with
  | none => exact .none
  | some i => exact (h.siblings? path).bind fun _ _ hbs => hbs.getElem? i

theorem locateRow?_eq (h : doc.Related R doc') (id : NodeId) :
    doc'.locateRow? id = doc.locateRow? id := by
  refine (h.body.zipIdx 0).findSome?_eq ?_
  rintro ⟨b, _⟩ ⟨b', i⟩ ⟨rfl, hb⟩
  dsimp only
  rw [hb.findRow?_eq]

variable (hR : ∀ p q, R p q → q.id = p.id)

include hR

theorem locate?_eq (h : doc.Related R doc') (id : NodeId) : doc'.locate? id = doc.locate? id := by
  refine (h.body.zipIdx 0).findSome?_eq ?_
  rintro ⟨b, _⟩ ⟨b', i⟩ ⟨rfl, hb⟩
  dsimp only
  rw [hb.find?_eq hR]

theorem node? (h : doc.Related R doc') (id : NodeId) :
    Option.Rel (Block.Related Eq R) (doc.node? id) (doc'.node? id) := by
  rw [Document.node?, Document.node?, h.locate?_eq hR]
  cases doc.locate? id with
  | none => exact .none
  | some path => exact h.block? path

theorem paragraph? (h : doc.Related R doc') (id : NodeId) :
    Option.Rel R (doc.paragraph? id) (doc'.paragraph? id) :=
  (h.node? hR id).bind fun _ _ hb => hb.paragraph?

theorem table? (h : doc.Related R doc') (id : NodeId) :
    Option.Rel (Table.Related Eq (Block.Related Eq R)) (doc.table? id) (doc'.table? id) :=
  (h.node? hR id).bind fun _ _ hb => hb.table?

omit hR

/-! ### Edits -/

theorem modifySiblings? (h : doc.Related R doc') (path : Path) {f g : Nat → List Block → List Block}
    (hfg : ∀ i bs bs', List.Forall₂ (Block.Related Eq R) bs bs' →
      List.Forall₂ (Block.Related Eq R) (f i bs) (g i bs')) :
    Option.Rel (Document.Related R) (doc.modifySiblings? path f) (doc'.modifySiblings? path g) := by
  rw [Document.modifySiblings?, Document.modifySiblings?]
  cases path.getLast? with
  | none => exact .none
  | some i =>
    exact (Block.Related.modifyContainer? (hfg i) _ h.body).map fun _ _ hbody => h.with_body hbody

theorem modifyBlock? (h : doc.Related R doc') (path : Path) {f g : Block → Block}
    (hfg : ∀ b b', b.Related Eq R b' → (f b).Related Eq R (g b')) :
    Option.Rel (Document.Related R) (doc.modifyBlock? path f) (doc'.modifyBlock? path g) :=
  h.modifySiblings? path fun i _ _ hbs => hbs.modify i hfg

theorem removeRow? (h : doc.Related R doc') (id : NodeId) :
    Option.Rel (fun x y => x.2.Related R y.2) (doc.removeRow? id) (doc'.removeRow? id) := by
  rw [Document.removeRow?, Document.removeRow?, h.locateRow?_eq]
  cases doc.locateRow? id with
  | none => exact .none
  | some place =>
    refine ((h.block? place.1).bind fun _ _ hb => hb.table?).bind fun t t' ht => ?_
    refine (ht.rows.getElem? place.2).bind fun _ _ _ => ?_
    refine (h.modifyBlock? place.1 fun _ _ _ => ?_).map fun _ _ hdoc => hdoc
    exact Block.related_table.2 ⟨_, rfl, ht.id, ht.styleId, ht.rows.eraseIdx place.2⟩

include hR

theorem modifyParagraph? (h : doc.Related R doc') (id : NodeId) {f g : Paragraph → Paragraph}
    (hfg : ∀ p q, R p q → R (f p) (g q)) :
    Option.Rel (Document.Related R) (doc.modifyParagraph? id f) (doc'.modifyParagraph? id g) := by
  rw [Document.modifyParagraph?, Document.modifyParagraph?, h.locate?_eq hR]
  cases doc.locate? id with
  | none => exact .none
  | some path =>
    refine ((h.block? path).bind fun _ _ hb => hb.paragraph?).bind fun p q hpq => ?_
    exact h.modifyBlock? path fun _ _ _ => Block.related_paragraph.2 ⟨_, rfl, hfg p q hpq⟩

theorem modifyTable? (h : doc.Related R doc') (id : NodeId) {f g : Table Block → Table Block}
    (hfg : ∀ t t', t.Related Eq (Block.Related Eq R) t' →
      (f t).Related Eq (Block.Related Eq R) (g t')) :
    Option.Rel (Document.Related R) (doc.modifyTable? id f) (doc'.modifyTable? id g) := by
  rw [Document.modifyTable?, Document.modifyTable?, h.locate?_eq hR]
  cases doc.locate? id with
  | none => exact .none
  | some path =>
    refine ((h.block? path).bind fun _ _ hb => hb.table?).bind fun t t' ht => ?_
    exact h.modifyBlock? path fun _ _ _ => Block.related_table.2 ⟨_, rfl, hfg t t' ht⟩

theorem removeBlock? (h : doc.Related R doc') (id : NodeId) :
    Option.Rel (fun x y => x.2.Related R y.2) (doc.removeBlock? id) (doc'.removeBlock? id) := by
  rw [Document.removeBlock?, Document.removeBlock?, h.locate?_eq hR]
  cases doc.locate? id with
  | none => exact .none
  | some path =>
    refine (h.block? path).bind fun _ _ _ => ?_
    exact (h.modifySiblings? path fun i _ _ hbs => hbs.eraseIdx i).map fun _ _ hdoc => hdoc

theorem replaceBlocks? (h : doc.Related R doc') (ids : List NodeId)
    {replacement replacement' : List Block}
    (hreplacement : List.Forall₂ (Block.Related Eq R) replacement replacement') :
    Option.Rel (fun x y => x.2.Related R y.2) (doc.replaceBlocks? ids replacement)
      (doc'.replaceBlocks? ids replacement') := by
  rw [Document.replaceBlocks?, Document.replaceBlocks?]
  cases ids.head? with
  | none => exact .none
  | some first =>
    rw [Option.bind_some, Option.bind_some, h.locate?_eq hR]
    cases doc.locate? first with
    | none => exact .none
    | some path =>
      rw [Option.bind_some, Option.bind_some]
      cases path.getLast? with
      | none => exact .none
      | some start =>
        refine (h.siblings? path).bind fun siblings siblings' hsiblings => ?_
        have hids : ((siblings'.drop start).take ids.length).map Block.id =
            ((siblings.drop start).take ids.length).map Block.id :=
          (List.forall₂_take _ (List.forall₂_drop _ hsiblings)).map_eq fun _ _ hb => hb.id_eq hR
        dsimp only
        rw [hids]
        split
        · refine (h.modifySiblings? path fun _ bs bs' hbs => ?_).map fun _ _ hdoc => hdoc
          exact List.rel_append (List.rel_append (List.forall₂_take _ hbs) hreplacement)
            (List.forall₂_drop _ hbs)
        · exact .none

end Document.Related

/-! ## Numbering -/

/-- Numberings that continue from the same number give related results and the same last
    number. -/
def Numbering.lockstep : Simulation Numbering Numbering where
  rel R x y := ∀ last, R (x.run last).1 (y.run last).1 ∧ (y.run last).2 = (x.run last).2
  pure hab _ := ⟨hab, rfl⟩
  bind {_ _ _ _ _ S x y f g} hxy hfg last := by
    obtain ⟨hab, hlast⟩ := hxy last
    change S ((f (x.run last).1).run (x.run last).2).1 ((g (y.run last).1).run (y.run last).2).1 ∧
      ((g (y.run last).1).run (y.run last).2).2 = ((f (x.run last).1).run (x.run last).2).2
    rw [hlast]
    exact hfg _ _ hab _

theorem Numbering.lockstep_fresh : lockstep.rel Eq fresh fresh :=
  fun _ => ⟨rfl, rfl⟩

section Layers

variable {α β : Type} {I : NodeId → NodeId → Prop} {S : α → β → Prop}

theorem Row.Related.numbered {r : Row (Numbering α)} {r' : Row (Numbering β)}
    (h : r.Related I (Numbering.lockstep.rel S) r') :
    Numbering.lockstep.rel (Row.Related Eq S) r.numbered r'.numbered := by
  refine Numbering.lockstep.bind Numbering.lockstep_fresh fun id id' hid => ?_
  refine Numbering.lockstep.bind (Numbering.lockstep.mapM h.cells fun c c' hc => ?_)
    fun _ _ hcells => Numbering.lockstep.pure ⟨hid, hcells⟩
  exact Numbering.lockstep.bind (Numbering.lockstep.mapM hc.content fun _ _ hitem => hitem)
    fun _ _ hcontent => Numbering.lockstep.pure ⟨hc.gridSpan, hcontent⟩

theorem Table.Related.numbered {t : Table (Numbering α)} {t' : Table (Numbering β)}
    (h : t.Related I (Numbering.lockstep.rel S) t') :
    Numbering.lockstep.rel (Table.Related Eq S) t.numbered t'.numbered := by
  refine Numbering.lockstep.bind Numbering.lockstep_fresh fun id id' hid => ?_
  exact Numbering.lockstep.bind (Numbering.lockstep.mapM h.rows fun _ _ hr => hr.numbered)
    fun _ _ hrows => Numbering.lockstep.pure ⟨hid, h.styleId, hrows⟩

end Layers

/-- Blocks get the same numbers, whatever theirs were. -/
theorem Block.Related.numbered {I : NodeId → NodeId → Prop} {b b' : Block} (h : b.Related I R b')
    (hR : ∀ p q, R p q → ∀ id, R { p with id } { q with id }) :
    Numbering.lockstep.rel (Block.Related Eq R) b.numbered b'.numbered := by
  refine h.fold (fun p q hpq => ?_) fun t t' ht => ?_
  · refine Numbering.lockstep.bind Numbering.lockstep_fresh fun id _ hid => ?_
    subst hid
    exact Numbering.lockstep.pure (related_paragraph.2 ⟨_, rfl, hR p q hpq id⟩)
  · exact Numbering.lockstep.bind ht.numbered fun t t' ht =>
      Numbering.lockstep.pure (related_table.2 ⟨t', rfl, ht⟩)

namespace Document.Related

variable {doc doc' : Document}

theorem number (h : doc.Related R doc') {α β : Type} {S : α → β → Prop} {n : Numbering α}
    {n' : Numbering β} (hn : Numbering.lockstep.rel S n n') :
    S (doc.number n).1 (doc'.number n').1 ∧ (doc.number n).2.Related R (doc'.number n').2 := by
  obtain ⟨hresult, hlast⟩ := hn doc.lastId
  rw [Document.number, Document.number, h.lastId]
  exact ⟨hresult, h.body, h.comments, h.footnotes, h.endnotes, h.finalSection, hlast⟩

variable {S : Paragraph → Paragraph → Prop} (hS : ∀ p q, S p q → ∀ id, S { p with id } { q with id })

include hS

theorem numberBlocks (h : doc.Related R doc') {I : NodeId → NodeId → Prop} {bs bs' : List Block}
    (hbs : List.Forall₂ (Block.Related I S) bs bs') :
    List.Forall₂ (Block.Related Eq S) (doc.numberBlocks bs).1 (doc'.numberBlocks bs').1 ∧
      (doc.numberBlocks bs).2.Related R (doc'.numberBlocks bs').2 :=
  h.number (Numbering.lockstep.mapM hbs fun _ _ hb => hb.numbered hS)

theorem numberRow (h : doc.Related R doc') {I : NodeId → NodeId → Prop} {r r' : Row Block}
    (hr : r.Related I (Block.Related I S) r') :
    (doc.numberRow r).1.Related Eq (Block.Related Eq S) (doc'.numberRow r').1 ∧
      (doc.numberRow r).2.Related R (doc'.numberRow r').2 := by
  refine h.number (Row.Related.numbered (Row.related_map.2 (hr.imp_of_mem fun _ _ _ hb => ?_)))
  exact hb.numbered hS

end Document.Related

end DocTemplate
