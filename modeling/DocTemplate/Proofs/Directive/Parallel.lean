import DocTemplate.Proofs.Comment.Parallel
import DocTemplate.Proofs.Directive.Move
import DocTemplate.Proofs.Directive.WordReplacement
import DocTemplate.Proofs.Placeholder.Interchange

/-!
# Edits of interchangeable documents

The same edit of two documents with interchangeable paragraphs fails for both, with the same
error, or leaves two such documents again, and counts the same. For no edit looks at more of a
paragraph than interchangeable ones have in common. What is filled in the course of an edit
are copies without anchors, in which no placeholder is divided.

* `Revision.lockstep`: when two revisions do the same;
* `Display.lockstep_removeParagraph`, `Repetition.lockstep_perform`,
  `WordReplacement.lockstep_perform`, `TableFill.lockstep_perform`: what handlers do;
* `Move.lockstep_perform`: any move.
-/

namespace DocTemplate

/-- The reports are the same but for the number of runs merged. -/
def Report.Alike (r r' : Report) : Prop :=
  ∃ n, r' = { r with runsMerged := n }

/-- The drafts have related documents, and the same report but for the number of runs
    merged. -/
structure Draft.Related (R : Paragraph → Paragraph → Prop) (d d' : Draft) : Prop where
  document : d.document.Related R d'.document
  report : d.report.Alike d'.report

/-! ## Revisions -/

namespace Revision

variable {R : Paragraph → Paragraph → Prop} {α β : Type} {S : α → β → Prop}

/-- Two revisions of related drafts fail with the same error, or succeed with related
    outcomes, and leave related drafts. -/
def lockstep (R : Paragraph → Paragraph → Prop) : Simulation Revision Revision where
  rel S x y := ∀ d d' : Draft, d.Related R d' →
    Except.Agree S (x.run d).1 (y.run d').1 ∧ (x.run d).2.Related R (y.run d').2
  pure hab _ _ hd := ⟨.ok hab, hd⟩
  bind {_ _ _ _ _ _ x y f g} hxy hfg d d' hd := by
    obtain ⟨houtcome, hdraft⟩ := hxy d d' hd
    rw [run_bind, run_bind]
    rcases hx : x.run d with ⟨outcome, d₁⟩
    rcases hy : y.run d' with ⟨outcome', d₁'⟩
    rw [hx, hy] at houtcome hdraft
    cases houtcome with
    | error e => exact ⟨.error e, hdraft⟩
    | ok hab => exact hfg _ _ hab d₁ d₁' hdraft

theorem lockstep_document : (lockstep R).rel (Document.Related R) document document :=
  fun _ _ hd => ⟨.ok hd.document, hd⟩

theorem lockstep_throw (e : Error) : (lockstep R).rel S (throw e) (throw e) :=
  fun _ _ hd => ⟨.error e, hd⟩

theorem lockstep_liftM {x : Except Error α} {y : Except Error β} (h : Except.Agree S x y) :
    (lockstep R).rel S (liftM x : Revision α) (liftM y : Revision β) :=
  fun _ _ hd => ⟨h, hd⟩

/-- What is counted has nothing to do with the runs merged. -/
theorem lockstep_count {f : Report → Report}
    (hf : ∀ r n, f { r with runsMerged := n } = { f r with runsMerged := n }) :
    (lockstep R).rel Eq (count f) (count f) := by
  intro d d' hd
  obtain ⟨n, hn⟩ := hd.report
  exact ⟨.ok rfl, hd.document, n, (congrArg f hn).trans (hf d.report n)⟩

theorem lockstep_edit {f : Document → α × Document} {g : Document → β × Document}
    (h : ∀ doc doc', doc.Related R doc' → S (f doc).1 (g doc').1 ∧ (f doc).2.Related R (g doc').2) :
    (lockstep R).rel S (edit f) (edit g) := by
  intro d d' hd
  obtain ⟨houtcome, hdoc⟩ := h _ _ hd.document
  exact ⟨.ok houtcome, hdoc, hd.report⟩

theorem lockstep_edit? {f : Document → Option (α × Document)} {g : Document → Option (β × Document)}
    (h : ∀ doc doc', doc.Related R doc' →
      Option.Rel (fun x y => S x.1 y.1 ∧ x.2.Related R y.2) (f doc) (g doc')) :
    (lockstep R).rel (Option.Rel S) (edit? f) (edit? g) := by
  refine lockstep_edit fun doc doc' hdoc => ?_
  have hrel := h doc doc' hdoc
  generalize f doc = x, g doc' = y at hrel
  cases hrel with
  | none => exact ⟨.none, hdoc⟩
  | some hxy => exact ⟨.some hxy.1, hxy.2⟩

/-- An edit that is counted if it is made. -/
theorem lockstep_edit?_count {f : Document → Option (α × Document)}
    {g : Document → Option (β × Document)} {report : Report → Report}
    (h : ∀ doc doc', doc.Related R doc' →
      Option.Rel (fun x y => x.2.Related R y.2) (f doc) (g doc'))
    (hreport : ∀ r n, report { r with runsMerged := n } = { report r with runsMerged := n }) :
    (lockstep R).rel Eq (do if (← edit? f).isSome then count report)
      (do if (← edit? g).isSome then count report) := by
  refine (lockstep R).bind (lockstep_edit? (S := fun _ _ => True) fun doc doc' hdoc =>
    (h doc doc' hdoc).imp fun _ _ hxy => ⟨trivial, hxy⟩) fun o o' ho => ?_
  rw [ho.isSome_eq]
  split
  · exact lockstep_count hreport
  · exact (lockstep R).pure rfl

end Revision

/-! ## Conditional display -/

namespace Display

variable {R : Paragraph → Paragraph → Prop}

theorem lockstep_removeParagraph (hR : ∀ p q, R p q → q.id = p.id) (edit : Edit) :
    (Revision.lockstep R).rel Eq (removeParagraph edit) (removeParagraph edit) := by
  cases edit with
  | removeParagraph id =>
    exact Revision.lockstep_edit?_count (fun _ _ h => h.removeBlock? hR id) fun _ _ => rfl
  | _ => exact (Revision.lockstep R).pure rfl

theorem lockstep_removeRow (edit : Edit) :
    (Revision.lockstep R).rel Eq (removeRow edit) (removeRow edit) := by
  cases edit with
  | removeRow id =>
    exact Revision.lockstep_edit?_count (fun _ _ h => h.removeRow? id) fun _ _ => rfl
  | _ => exact (Revision.lockstep R).pure rfl

theorem lockstep_removeTable (hR : ∀ p q, R p q → q.id = p.id) (edit : Edit) :
    (Revision.lockstep R).rel Eq (removeTable edit) (removeTable edit) := by
  cases edit with
  | removeTable id =>
    exact Revision.lockstep_edit?_count (fun _ _ h => h.removeBlock? hR id) fun _ _ => rfl
  | _ => exact (Revision.lockstep R).pure rfl

end Display

variable {f : Filler} {mergeRuns stripLanguage : Bool}

/-! ## Repetition -/

namespace Repetition

/-- Copies of the template for an item are filled alike. -/
theorem lockstep_copy (hf : f.renderers = Renderer.builtin)
    (hl : ∀ l ∈ f.settings.lineBreak, l = "") {template template' : List Block}
    (h : List.Forall₂ (Block.Related Eq Paragraph.Interchangeable) template template')
    (item : Value) :
    (Revision.lockstep Paragraph.Interchangeable).rel
      (List.Forall₂ (Block.Related Eq Paragraph.Interchangeable))
      (copy f template item) (copy (f.withCleanup mergeRuns stripLanguage) template' item) := by
  let s := Revision.lockstep Paragraph.Interchangeable
  -- Without anchors, no placeholder is divided.
  have hblank : List.Forall₂ (Block.Related Eq
      fun p q => p.Undivided f.delimiters ∧ p.Interchangeable q)
      (template.map Block.withoutAnchors) (template'.map Block.withoutAnchors) := by
    refine List.rel_map (fun b b' hb => hb.mapParagraphs fun p q hpq => ⟨?_, hpq.keepAnchors _⟩) h
    exact Paragraph.undivided_of_anchors Paragraph.anchors_keepAnchors_false
  refine s.bind (Revision.lockstep_edit fun _ _ hdoc =>
    hdoc.numberBlocks (fun p q hpq id => ⟨hpq.1, rfl, hpq.2.style, hpq.2.headedGlyphs⟩) hblank)
    fun bs bs' hbs => ?_
  refine s.bind (Revision.lockstep_liftM
    (Filler.agree_fillBlocks_of_interchangeable hf hl hbs)) fun x y hxy => ?_
  obtain ⟨copy, tally⟩ := x
  obtain ⟨copy', tally'⟩ := y
  obtain ⟨hcopy, rfl⟩ := hxy
  exact s.bind (Revision.lockstep_count fun _ _ => rfl) fun _ _ _ => s.pure hcopy

theorem lockstep_copies (hf : f.renderers = Renderer.builtin)
    (hl : ∀ l ∈ f.settings.lineBreak, l = "") {template template' : List Block}
    (h : List.Forall₂ (Block.Related Eq Paragraph.Interchangeable) template template')
    (layout : Option SectionLayout) (items : List Value) :
    (Revision.lockstep Paragraph.Interchangeable).rel
      (List.Forall₂ (Block.Related Eq Paragraph.Interchangeable)) (copies f template layout items)
      (copies (f.withCleanup mergeRuns stripLanguage) template' layout items) := by
  let s := Revision.lockstep Paragraph.Interchangeable
  fun_induction copies f template layout items with
  | case1 => exact s.pure .nil
  | case2 item => exact lockstep_copy hf hl h item
  | case3 item items hitems ih =>
    rw [copies.eq_3 _ _ _ _ _ hitems]
    refine s.bind (lockstep_copy hf hl h item) fun bs bs' hbs => ?_
    refine s.bind ih fun rest rest' hrest => s.pure (List.rel_append ?_ hrest)
    cases layout with
    | none => exact hbs
    | some layout =>
      refine related_endWith layout (fun p q hpq => ⟨hpq.id, ?_, hpq.headedGlyphs⟩) hbs
      exact congrArg (fun style : ParagraphStyle => { style with sectionBreak := some layout })
        hpq.style

theorem lockstep_perform (hf : f.renderers = Renderer.builtin)
    (hl : ∀ l ∈ f.settings.lineBreak, l = "") (edit : Edit) :
    (Revision.lockstep Paragraph.Interchangeable).rel Eq (perform f edit)
      (perform (f.withCleanup mergeRuns stripLanguage) edit) := by
  let s := Revision.lockstep Paragraph.Interchangeable
  cases edit with
  | repeatBlocks i items =>
    refine s.bind Revision.lockstep_document fun doc doc' hdoc => ?_
    have htemplate := hdoc.attached (fun _ _ hpq => hpq.id) i.site.region
    refine s.bind (lockstep_copies hf hl htemplate _ items) fun generated generated' hgenerated => ?_
    have hids : (i.site.region.attached doc').map Block.id =
        (i.site.region.attached doc).map Block.id :=
      htemplate.map_eq fun _ _ hb => hb.id_eq fun _ _ hpq => hpq.id
    have hempty : (i.site.region.attached doc').isEmpty = (i.site.region.attached doc).isEmpty := by
      simpa using congrArg List.isEmpty hids
    rw [hempty, hids]
    split
    · exact s.pure rfl
    · refine s.bind (Revision.lockstep_edit? (S := fun _ _ => True) fun doc doc' hdoc =>
        (hdoc.replaceBlocks? (fun _ _ hpq => hpq.id) _ hgenerated).imp fun _ _ hxy =>
          ⟨trivial, hxy⟩) fun o o' ho => ?_
      cases ho with
      | none => exact Revision.lockstep_throw _
      | some =>
        dsimp only
        rw [← hgenerated.length_eq]
        exact Revision.lockstep_count fun _ _ => rfl
  | _ => exact s.pure rfl

end Repetition

/-! ## Replacing words -/

namespace WordReplacement

theorem lockstep_perform (edit : Edit) :
    (Revision.lockstep Paragraph.Interchangeable).rel Eq (perform f edit)
      (perform (f.withCleanup mergeRuns stripLanguage) edit) := by
  cases edit with
  | replaceWord paragraph comment text =>
    refine Revision.lockstep_edit?_count (fun doc doc' hdoc => ?_) fun _ _ => rfl
    have hid : ∀ p q : Paragraph, p.Interchangeable q → q.id = p.id := fun _ _ hpq => hpq.id
    refine (hdoc.paragraph? hid paragraph).bind fun p q hpq => ?_
    refine (rel_replaceBetween? hpq.headedGlyphs).bind fun items items' hitems => ?_
    exact (hdoc.modifyParagraph? hid paragraph (f := fun p => { p with content := items })
      (g := fun q => { q with content := items' }) fun _ _ hpq =>
        ⟨hpq.id, hpq.style, hitems⟩).bind fun _ _ hdoc => .some hdoc
  | _ => exact (Revision.lockstep _).pure rfl

end WordReplacement

/-! ## Filling tables -/

section Filled

variable {I : NodeId → NodeId → Prop}

/-- Cells with the same text have it in the same style. -/
theorem Cell.Related.filled {c c' : Cell Block}
    (h : c.Related (Block.Related I Paragraph.Interchangeable) c') (text : String) :
    (c.filled text).Related (Block.Related I Paragraph.Interchangeable) (c'.filled text) := by
  refine ⟨h.gridSpan, .cons (Block.related_paragraph.2 ⟨_, rfl, ?_⟩) .nil⟩
  have hfirst := h.content.findSome? fun _ _ hb => hb.paragraph?
  have hpq : ((c.content.findSome? Block.paragraph?).getD {}).Interchangeable
      ((c'.content.findSome? Block.paragraph?).getD {}) := by
    generalize c.content.findSome? _ = x, c'.content.findSome? _ = y at hfirst
    cases hfirst with
    | none => exact .refl _
    | some hpq => exact hpq
  refine ⟨hpq.id, hpq.style, ?_⟩
  simp only [Paragraph.headedGlyphs, Inline.headedGlyphsOf_run, Run.head, Run.glyphs, Run.ofText,
    hpq.headStyle]

theorem Row.Related.headed {r r' : Row Block}
    (h : r.Related I (Block.Related I Paragraph.Interchangeable) r') (headers : List String) :
    (r.headed headers).Related I (Block.Related I Paragraph.Interchangeable)
      (r'.headed headers) := by
  refine ⟨h.id, List.rel_append (List.rel_map ?_ (h.cells.zip headers))
    (List.forall₂_drop _ h.cells)⟩
  rintro ⟨c, _⟩ ⟨c', header⟩ ⟨hc, rfl⟩
  exact hc.filled header

theorem Row.Related.recorded {r r' : Row Block}
    (h : r.Related I (Block.Related I Paragraph.Interchangeable) r') (columns : Nat)
    (record : List String) :
    (r.recorded columns record).Related I (Block.Related I Paragraph.Interchangeable)
      (r'.recorded columns record) := by
  refine ⟨h.id, List.rel_map ?_ (h.cells.zipIdx 0)⟩
  rintro ⟨c, _⟩ ⟨c', i⟩ ⟨rfl, hc⟩
  exact hc.filled _

end Filled

/-- The layouts have related rows. -/
structure TableLayout.Related (layout layout' : TableLayout) : Prop where
  header : Option.Rel (Row.Related Eq (Block.Related Eq Paragraph.Interchangeable)) layout.header
    layout'.header
  template : layout.template.Related Eq (Block.Related Eq Paragraph.Interchangeable) layout'.template
  rest : List.Forall₂ (Row.Related Eq (Block.Related Eq Paragraph.Interchangeable)) layout.rest
    layout'.rest

namespace TableLayout

variable {rs rs' : List (Row Block)} {layout layout' : TableLayout}

theorem related_ofRows?
    (h : List.Forall₂ (Row.Related Eq (Block.Related Eq Paragraph.Interchangeable)) rs rs') :
    Option.Rel Related (ofRows? rs) (ofRows? rs') := by
  cases h with
  | nil => exact .none
  | cons hheader h =>
    cases h with
    | nil => exact .some ⟨.none, hheader, .nil⟩
    | cons htemplate hrest => exact .some ⟨.some hheader, htemplate, hrest⟩

theorem Related.records (h : layout.Related layout') (data : Grid) :
    List.Forall₂ (Row.Related Eq (Block.Related Eq Paragraph.Interchangeable))
      (layout.records data) (layout'.records data) := by
  refine List.rel_map (R := Eq) ?_ (List.forall₂_same.2 fun _ _ => rfl)
  rintro record _ rfl
  exact h.template.recorded _ record

theorem Related.rows (h : layout.Related layout') (headers : List String)
    (hrecords : List.Forall₂ (Row.Related Eq (Block.Related Eq Paragraph.Interchangeable))
      rs rs') :
    List.Forall₂ (Row.Related Eq (Block.Related Eq Paragraph.Interchangeable))
      (layout.rows headers rs) (layout'.rows headers rs') := by
  refine List.rel_append (List.rel_append ?_ hrecords) h.rest
  have hheader := h.header.map fun _ _ hrow => hrow.headed headers
  generalize layout.header.map _ = x, layout'.header.map _ = y at hheader
  cases hheader with
  | none => exact .nil
  | some hrow => exact .cons hrow .nil

end TableLayout

namespace TableFill

theorem target?_eq {doc doc' : Document} (h : doc.Related Paragraph.Interchangeable doc')
    (site : Site) : target? doc' site = target? doc site := by
  have htable : ∀ id, (doc'.table? id).isSome = (doc.table? id).isSome := fun id =>
    (h.table? (fun _ _ hpq => hpq.id) id).isSome_eq
  simp only [target?, htable]

theorem lockstep_target (i : Instruction) :
    (Revision.lockstep Paragraph.Interchangeable).rel Eq (target i) (target i) := by
  let s := Revision.lockstep Paragraph.Interchangeable
  refine s.bind Revision.lockstep_document fun doc doc' hdoc => ?_
  rw [target?_eq hdoc, hdoc.locate?_eq fun _ _ hpq => hpq.id]
  split
  · exact s.pure rfl
  · split
    · exact s.pure rfl
    · exact Revision.lockstep_throw _

theorem lockstep_drop (table : NodeId) :
    (Revision.lockstep Paragraph.Interchangeable).rel Eq (drop table) (drop table) :=
  Revision.lockstep_edit?_count
    (fun _ _ hdoc => hdoc.removeBlock? (fun _ _ hpq => hpq.id) table) fun _ _ => rfl

theorem lockstep_fill {settings settings' : Settings} (hfit : settings'.tableFit = settings.tableFit)
    (data : Grid) (table : NodeId) {layout layout' : TableLayout} (h : layout.Related layout') :
    (Revision.lockstep Paragraph.Interchangeable).rel Eq (fill settings data table layout)
      (fill settings' data table layout') := by
  let s := Revision.lockstep Paragraph.Interchangeable
  have hcells : layout'.template.cells.length = layout.template.cells.length :=
    h.template.cells.length_eq.symm
  rw [fill, fill, hfit, hcells]
  split
  · exact s.bind (R := fun _ _ => False) (Revision.lockstep_throw _) fun _ _ h => h.elim
  refine s.bind (s.mapM (h.records data) fun row row' hrow => Revision.lockstep_edit
    fun _ _ hdoc => hdoc.numberRow (fun _ _ hpq id => ⟨rfl, hpq.style, hpq.headedGlyphs⟩) hrow)
    fun rows rows' hrows => ?_
  refine Revision.lockstep_edit?_count (fun doc doc' hdoc => ?_) fun _ _ => rfl
  exact (hdoc.modifyTable? (fun _ _ hpq => hpq.id) table
    (f := fun t => { t with rows := layout.rows data.headers rows })
    (g := fun t => { t with rows := layout'.rows data.headers rows' }) fun _ _ ht =>
      ⟨ht.id, ht.styleId, h.rows data.headers hrows⟩).bind fun _ _ hdoc => .some hdoc

theorem lockstep_perform (edit : Edit) :
    (Revision.lockstep Paragraph.Interchangeable).rel Eq (perform f edit)
      (perform (f.withCleanup mergeRuns stripLanguage) edit) := by
  let s := Revision.lockstep Paragraph.Interchangeable
  cases edit with
  | dropTable i =>
    refine s.bind (lockstep_target i) fun target _ htarget => ?_
    subst htarget
    cases target with
    | none => exact s.pure rfl
    | some table => exact lockstep_drop table
  | fillTable i data =>
    refine s.bind (lockstep_target i) fun target _ htarget => ?_
    subst htarget
    cases target with
    | none => exact s.pure rfl
    | some table =>
      refine s.bind Revision.lockstep_document fun doc doc' hdoc => ?_
      have hlayout := (hdoc.table? (fun _ _ hpq => hpq.id) table).bind fun t t' ht =>
        TableLayout.related_ofRows? ht.rows
      dsimp only
      generalize (doc.table? table).bind _ = x, (doc'.table? table).bind _ = y at hlayout ⊢
      cases hlayout with
      | none => exact s.pure rfl
      | some hlayout => exact lockstep_fill rfl data table hlayout
  | _ => exact s.pure rfl

end TableFill

/-! ## Moves -/

/-- A move does the same, whatever is cleaned up before a filling. -/
theorem Move.lockstep_perform (hf : f.renderers = Renderer.builtin)
    (hl : ∀ l ∈ f.settings.lineBreak, l = "") (m : Move) :
    (Revision.lockstep Paragraph.Interchangeable).rel Eq (m.perform f)
      (m.perform (f.withCleanup mergeRuns stripLanguage)) := by
  have hid : ∀ p q : Paragraph, p.Interchangeable q → q.id = p.id := fun _ _ hpq => hpq.id
  obtain ⟨pass, edit⟩ := m
  cases pass with
  | paragraphs => exact Display.lockstep_removeParagraph hid edit
  | rows => exact Display.lockstep_removeRow edit
  | tables => exact Display.lockstep_removeTable hid edit
  | repetitions => exact Repetition.lockstep_perform hf hl edit
  | words => exact WordReplacement.lockstep_perform edit
  | fills => exact TableFill.lockstep_perform edit

end DocTemplate
