import DocTemplate.Proofs.Document.Walk
import DocTemplate.Proofs.Except
import Mathlib.Data.List.Forall2
import Mathlib.Tactic.MkIffOfInductiveProp

/-!
# Trees of one shape

Two blocks are *related* if they have the same shape: tables with as many rows, and rows with
as many cells, which cover the same columns and hold as many blocks. What their paragraphs
have in common is a parameter, and so is what their numbers have in common
(`Block.Related`).

What is computed from related blocks is related (`Block.Related.fold`). For a walk that means, in whatever monads
it is done, that walks of related blocks are related as soon as the visits are: a
`Simulation` says when two computations are related, and its two laws are all that a walk
needs (`Simulation.walkAll`).
-/

namespace DocTemplate

section Layers

variable {α β γ δ : Type} {I : NodeId → NodeId → Prop} {R S : α → β → Prop}

/-- The cells cover the same columns, and their items are related. -/
@[mk_iff]
structure Cell.Related (R : α → β → Prop) (c : Cell α) (c' : Cell β) : Prop where
  gridSpan : c'.gridSpan = c.gridSpan
  content : List.Forall₂ R c.content c'.content

/-- The numbers and the cells of the rows are related. -/
@[mk_iff]
structure Row.Related (I : NodeId → NodeId → Prop) (R : α → β → Prop) (r : Row α) (r' : Row β) :
    Prop where
  id : I r.id r'.id
  cells : List.Forall₂ (Cell.Related R) r.cells r'.cells

/-- The tables have the same style, and their numbers and rows are related. -/
@[mk_iff]
structure Table.Related (I : NodeId → NodeId → Prop) (R : α → β → Prop) (t : Table α)
    (t' : Table β) : Prop where
  id : I t.id t'.id
  styleId : t'.styleId = t.styleId
  rows : List.Forall₂ (Row.Related I R) t.rows t'.rows

theorem Cell.related_map {f : γ → α} {g : δ → β} {c : Cell γ} {c' : Cell δ} :
    (c.map f).Related R (c'.map g) ↔ c.Related (fun a b => R (f a) (g b)) c' := by
  simp [Cell.related_iff, Cell.map, List.forall₂_map_left_iff, List.forall₂_map_right_iff]

theorem Row.related_map {f : γ → α} {g : δ → β} {r : Row γ} {r' : Row δ} :
    (r.map f).Related I R (r'.map g) ↔ r.Related I (fun a b => R (f a) (g b)) r' := by
  simp [Row.related_iff, Row.map, List.forall₂_map_left_iff, List.forall₂_map_right_iff,
    Cell.related_map]

theorem Table.related_map {f : γ → α} {g : δ → β} {t : Table γ} {t' : Table δ} :
    (t.map f).Related I R (t'.map g) ↔ t.Related I (fun a b => R (f a) (g b)) t' := by
  simp [Table.related_iff, Table.map, List.forall₂_map_left_iff, List.forall₂_map_right_iff,
    Row.related_map]

theorem Cell.map_id' (c : Cell α) : c.map (fun a => a) = c := by
  simp [Cell.map]

theorem Row.map_id' (r : Row α) : r.map (fun a => a) = r := by
  simp [Row.map, List.map_congr_left fun c _ => Cell.map_id' c]

theorem Table.map_id' (t : Table α) : t.map (fun a => a) = t := by
  simp [Table.map, List.map_congr_left fun r _ => Row.map_id' r]

theorem Row.Related.imp_of_mem {r : Row α} {r' : Row β} (h : r.Related I R r')
    (hRS : ∀ a ∈ r.items, ∀ b, R a b → S a b) : r.Related I S r' where
  id := h.id
  cells := by
    refine h.cells.imp_of_mem fun c hc c' hrel => ⟨hrel.gridSpan, ?_⟩
    exact hrel.content.imp_of_mem fun a ha => hRS a (List.mem_flatMap.2 ⟨c, hc, ha⟩)

theorem Table.Related.imp_of_mem {t : Table α} {t' : Table β} (h : t.Related I R t')
    (hRS : ∀ a ∈ t.items, ∀ b, R a b → S a b) : t.Related I S t' where
  id := h.id
  styleId := h.styleId
  rows := h.rows.imp_of_mem fun _ hr _ hrel =>
    hrel.imp_of_mem fun a ha => hRS a (List.mem_flatMap.2 ⟨_, hr, ha⟩)

theorem Table.related_map_right {g : δ → β} {t : Table α} {t' : Table δ} :
    t.Related I R (t'.map g) ↔ t.Related I (fun a b => R a (g b)) t' := by
  have h := @Table.related_map _ _ _ _ I R (fun a : α => a) g t t'
  rwa [Table.map_id'] at h

/-- A table is related to itself if its items are. -/
theorem Table.related_self {R : α → α → Prop} {t : Table α} (hI : ∀ id, I id id)
    (h : ∀ a ∈ t.items, R a a) : t.Related I R t := by
  refine ⟨hI _, rfl, List.forall₂_same.2 fun r hr => ⟨hI _, ?_⟩⟩
  refine List.forall₂_same.2 fun c hc => ⟨rfl, List.forall₂_same.2 fun a ha => h a ?_⟩
  exact mem_items.2 ⟨r, hr, c, hc, ha⟩

theorem Row.Related.items {r : Row α} {r' : Row β} (h : r.Related I R r') :
    List.Forall₂ R r.items r'.items :=
  List.rel_flatMap h.cells fun _ _ hc => hc.content

theorem Table.Related.items {t : Table α} {t' : Table β} (h : t.Related I R t') :
    List.Forall₂ R t.items t'.items :=
  List.rel_flatMap h.rows fun _ _ hr => hr.items

/-- Related items have the same places. -/
theorem Table.Related.indexed {t : Table α} {t' : Table β} (h : t.Related I R t') :
    List.Forall₂ (fun x y => y.1 = x.1 ∧ R x.2 y.2) t.indexed t'.indexed := by
  refine List.rel_flatMap (h.rows.zipIdx 0) fun row row' hrow => ?_
  refine List.rel_flatMap (hrow.2.cells.zipIdx 0) fun cell cell' hcell => ?_
  refine List.rel_map (fun x y hxy => ⟨?_, hxy.2⟩) (hcell.2.content.zipIdx 0)
  dsimp only
  rw [hrow.1, hcell.1, hxy.1]

theorem Row.Related.swap {r : Row α} {r' : Row β} (h : r.Related I R r') :
    r'.Related (flip I) (flip R) r where
  id := h.id
  cells := (h.cells.imp fun _ _ hc => ⟨hc.gridSpan.symm, hc.content.flip⟩).flip

theorem Table.Related.swap {t : Table α} {t' : Table β} (h : t.Related I R t') :
    t'.Related (flip I) (flip R) t where
  id := h.id
  styleId := h.styleId.symm
  rows := (h.rows.imp fun _ _ hr => hr.swap).flip

/-- The same numbers and the same items. -/
theorem Table.Related.eq {t t' : Table α} (h : t.Related Eq Eq t') : t = t' := by
  obtain ⟨id, rows, styleId⟩ := t
  obtain ⟨id', rows', styleId'⟩ := t'
  obtain ⟨hid, hstyle, hrows⟩ := h
  obtain rfl : rows = rows' := by
    refine List.forall₂_eq_eq_eq ▸ hrows.imp fun r r' hr => ?_
    obtain ⟨rowId, cells⟩ := r
    obtain ⟨rowId', cells'⟩ := r'
    obtain ⟨hrowId, hcells⟩ := hr
    obtain rfl : cells = cells' := by
      refine List.forall₂_eq_eq_eq ▸ hcells.imp fun c c' hc => ?_
      obtain ⟨content, gridSpan⟩ := c
      obtain ⟨content', gridSpan'⟩ := c'
      obtain ⟨hspan, hcontent⟩ := hc
      rw [show gridSpan' = gridSpan from hspan, show content = content' from
        List.forall₂_eq_eq_eq ▸ hcontent]
    rw [show rowId = rowId' from hrowId]
  rw [show id = id' from hid, show styleId' = styleId from hstyle]

end Layers

namespace Block

variable {I : NodeId → NodeId → Prop} {R R' : Paragraph → Paragraph → Prop}

/-- The blocks have the same shape, with related paragraphs and numbers. -/
def Related (I : NodeId → NodeId → Prop) (R : Paragraph → Paragraph → Prop) :
    Block → Block → Prop :=
  fold (fun p b => ∃ q, b = .paragraph q ∧ R p q)
    fun t b => ∃ t', b = .table t' ∧ t.Related I (fun related b => related b) t'

@[simp] theorem related_paragraph {p : Paragraph} {b : Block} :
    Related I R (.paragraph p) b ↔ ∃ q, b = .paragraph q ∧ R p q := by
  simp [Related]

@[simp] theorem related_table {t : Table Block} {b : Block} :
    Related I R (.table t) b ↔ ∃ t', b = .table t' ∧ t.Related I (Related I R) t' := by
  have hmap : ∀ t' : Table Block,
      (t.map (Related I R)).Related I (fun related b => related b) t' ↔
        t.Related I (Related I R) t' := by
    intro t'
    have h := @Table.related_map _ _ _ _ I (fun related b => related b) (Related I R)
      (fun b : Block => b) t t'
    rwa [Table.map_id'] at h
  rw [Related, fold_table]
  exact exists_congr fun t' => and_congr_right fun _ => hmap t'

/-- What holds of related paragraphs, and of related tables if it holds of the blocks in
    them, holds of related blocks. -/
@[elab_as_elim]
theorem Related.induction {motive : Block → Block → Prop}
    (paragraph : ∀ p q, R p q → motive (.paragraph p) (.paragraph q))
    (table : ∀ t t' : Table Block, t.Related I (fun b b' => Related I R b b' ∧ motive b b') t' →
      motive (.table t) (.table t'))
    {b b' : Block} (h : Related I R b b') : motive b b' := by
  induction b using Block.induction generalizing b' with
  | paragraph p =>
    obtain ⟨q, rfl, hpq⟩ := related_paragraph.1 h
    exact paragraph p q hpq
  | table t ih =>
    obtain ⟨t', rfl, ht⟩ := related_table.1 h
    exact table t t' (ht.imp_of_mem fun b hb b' hrel => ⟨hrel, ih b hb hrel⟩)

/-- The paragraphs may be related in more ways. -/
theorem Related.imp_of_mem {b b' : Block} (h : Related I R b b')
    (hR : ∀ p ∈ b.paragraphs, ∀ q, R p q → R' p q) : Related I R' b b' := by
  induction b using Block.induction generalizing b' with
  | paragraph p =>
    obtain ⟨q, rfl, hpq⟩ := related_paragraph.1 h
    exact related_paragraph.2 ⟨q, rfl, hR p (by simp) q hpq⟩
  | table t ih =>
    obtain ⟨t', rfl, ht⟩ := related_table.1 h
    refine related_table.2 ⟨t', rfl, ht.imp_of_mem fun b hb b' hbb' => ih b hb hbb' fun p hp => ?_⟩
    exact hR p (by rw [paragraphs_table]; exact List.mem_flatMap.2 ⟨b, hb, hp⟩)

theorem Related.imp (hR : ∀ p q, R p q → R' p q) {b b' : Block} (h : Related I R b b') :
    Related I R' b b' :=
  h.imp_of_mem fun p _ => hR p

theorem Related.swap {b b' : Block} (h : Related I R b b') : Related (flip I) (flip R) b' b :=
  h.induction (fun p _ hpq => related_paragraph.2 ⟨p, rfl, hpq⟩) fun t _ ht =>
    related_table.2 ⟨t, rfl, (ht.imp_of_mem fun _ _ _ hb => hb.2).swap⟩

/-- The same shape, the same numbers and the same paragraphs. -/
theorem Related.eq {b b' : Block} (h : Related Eq Eq b b') : b = b' :=
  h.induction (fun p q hpq => by rw [hpq]) fun t t' ht => by
    rw [(ht.imp_of_mem fun _ _ _ hb => hb.2).eq]

theorem Related.refl (hI : ∀ id, I id id) (hR : ∀ p, R p p) (b : Block) : Related I R b b := by
  induction b using Block.induction with
  | paragraph p => exact related_paragraph.2 ⟨p, rfl, hR p⟩
  | table t ih => exact related_table.2 ⟨t, rfl, Table.related_self hI ih⟩

/-- What is computed from related blocks is related. -/
theorem Related.fold {α β : Type} {S : α → β → Prop} {f : Paragraph → α} {g : Paragraph → β}
    {k : Table α → α} {l : Table β → β} {b b' : Block} (h : Related I R b b')
    (hparagraph : ∀ p q, R p q → S (f p) (g q))
    (htable : ∀ t t', t.Related I S t' → S (k t) (l t')) : S (b.fold f k) (b'.fold g l) := by
  refine h.induction (fun p q hpq => ?_) (fun t t' ht => ?_)
  · rw [fold_paragraph, fold_paragraph]
    exact hparagraph p q hpq
  · rw [fold_table, fold_table]
    exact htable _ _ (Table.related_map.2 (ht.imp_of_mem fun _ _ _ hb => hb.2))

/-- Blocks are related with their paragraphs changed, if these are. -/
theorem Related.mapParagraphs {f g : Paragraph → Paragraph} {b b' : Block} (h : Related I R b b')
    (hfg : ∀ p q, R p q → R' (f p) (g q)) :
    Related I R' (b.mapParagraphs f) (b'.mapParagraphs g) :=
  h.fold (fun p q hpq => related_paragraph.2 ⟨g q, rfl, hfg p q hpq⟩) fun _ t' ht =>
    related_table.2 ⟨t', rfl, ht⟩

/-- A block is related to itself with its paragraphs changed, if these are. -/
theorem related_mapParagraphs {f : Paragraph → Paragraph} (hI : ∀ id, I id id)
    (hf : ∀ p, R p (f p)) (b : Block) : Related I R b (b.mapParagraphs f) := by
  induction b using Block.induction with
  | paragraph p =>
    rw [mapParagraphs, fold_paragraph]
    exact related_paragraph.2 ⟨f p, rfl, hf p⟩
  | table t ih =>
    rw [mapParagraphs, fold_table]
    exact related_table.2 ⟨_, rfl, Table.related_map_right.2 (Table.related_self hI ih)⟩

end Block

/-! ## Computations -/

/-- When a computation in one monad is related to one in another, by what their results have
    in common. -/
structure Simulation (m m' : Type → Type) [Monad m] [Monad m'] where
  rel {α β : Type} (R : α → β → Prop) : m α → m' β → Prop
  pure {α β : Type} {R : α → β → Prop} {a : α} {b : β} : R a b → rel R (pure a) (pure b)
  bind {α β γ δ : Type} {R : α → β → Prop} {S : γ → δ → Prop} {x : m α} {y : m' β} {f : α → m γ}
    {g : β → m' δ} : rel R x y → (∀ a b, R a b → rel S (f a) (g b)) → rel S (x >>= f) (y >>= g)

namespace Simulation

variable {m m' : Type → Type} [Monad m] [Monad m'] [LawfulMonad m] [LawfulMonad m']
  (s : Simulation m m') {α β γ δ : Type} {R : α → β → Prop} {S : γ → δ → Prop}
  {I : NodeId → NodeId → Prop}

/-- Sequences of related steps are related. -/
theorem mapM {f : α → m γ} {g : β → m' δ} {as : List α} {bs : List β} (h : List.Forall₂ R as bs)
    (hstep : ∀ a b, R a b → s.rel S (f a) (g b)) :
    s.rel (List.Forall₂ S) (as.mapM f) (bs.mapM g) := by
  induction h with
  | nil =>
    rw [List.mapM_nil, List.mapM_nil]
    exact s.pure .nil
  | @cons a b as bs hab _ ih =>
    rw [List.mapM_cons, List.mapM_cons]
    exact s.bind (hstep a b hab) fun c d hcd => s.bind ih fun cs ds hcds => s.pure (.cons hcd hcds)

omit [LawfulMonad m] [LawfulMonad m'] in
/-- Steps that are related, one after the other. -/
theorem forM {f : α → m PUnit} {g : α → m' PUnit} {as : List α}
    (hstep : ∀ a ∈ as, s.rel Eq (f a) (g a)) : s.rel Eq (as.forM f) (as.forM g) := by
  induction as with
  | nil => exact s.pure rfl
  | cons a as ih =>
    exact s.bind (hstep a List.mem_cons_self) fun _ _ _ =>
      ih fun a ha => hstep a (List.mem_cons_of_mem _ ha)

omit [LawfulMonad m] [LawfulMonad m'] in
/-- Related steps for the items of a list, in a loop that may end early. -/
theorem forIn {f : α → PUnit → m (ForInStep PUnit)} {g : α → PUnit → m' (ForInStep PUnit)}
    {as : List α} (hstep : ∀ a ∈ as, ∀ u, s.rel Eq (f a u) (g a u)) (u : PUnit) :
    s.rel Eq (forIn as u f) (forIn as u g) := by
  induction as generalizing u with
  | nil => exact s.pure rfl
  | cons a as ih =>
    rw [List.forIn_cons, List.forIn_cons]
    refine s.bind (hstep a List.mem_cons_self u) fun step _ hstep => ?_
    subst hstep
    cases step with
    | done u => exact s.pure rfl
    | yield u => exact ih (fun a ha => hstep a (List.mem_cons_of_mem _ ha)) u

/-! ### Computations that may fail -/

section Failure

variable {σ τ ε : Type}

/-- Two computations from related states fail with the same error, or succeed with related
    results and leave related states. -/
def lockstep (P : σ → τ → Prop) : Simulation (StateT σ (Except ε)) (StateT τ (Except ε)) where
  rel R x y := ∀ s t, P s t → Except.Agree (fun a b => R a.1 b.1 ∧ P a.2 b.2) (x.run s) (y.run t)
  pure hab _ _ hst := .ok ⟨hab, hst⟩
  bind hxy hfg s t hst := by
    rw [StateT.run_bind, StateT.run_bind]
    exact (hxy s t hst).bind fun _ _ h => hfg _ _ h.1 _ _ h.2

variable {P : σ → τ → Prop}

theorem lockstep_liftM {x : Except ε α} {y : Except ε β} (h : Except.Agree R x y) :
    (lockstep P).rel R (liftM x : StateT σ (Except ε) α) (liftM y : StateT τ (Except ε) β) :=
  fun s t hst => by
    cases h with
    | error e => exact .error e
    | ok hab => exact .ok ⟨hab, hst⟩

theorem lockstep_get :
    (lockstep P).rel P (get : StateT σ (Except ε) σ) (get : StateT τ (Except ε) τ) :=
  fun _ _ hst => .ok ⟨hst, hst⟩

theorem lockstep_set {s : σ} {t : τ} (h : P s t) :
    (lockstep P).rel Eq (set s : StateT σ (Except ε) PUnit) (set t : StateT τ (Except ε) PUnit) :=
  fun _ _ _ => .ok ⟨rfl, h⟩

theorem lockstep_modify {f : σ → σ} {g : τ → τ} (h : ∀ s t, P s t → P (f s) (g t)) :
    (lockstep P).rel Eq (modify f : StateT σ (Except ε) PUnit)
      (modify g : StateT τ (Except ε) PUnit) :=
  fun s t hst => .ok ⟨rfl, h s t hst⟩

/-- Whenever the first computation succeeds from a state with a property, the second succeeds
    as well, with a related result and in the same state, which has the property again. -/
def conservative (P : σ → Prop) : Simulation (StateT σ (Except ε)) (StateT σ (Except ε)) where
  rel R x y := ∀ s a s', P s → x.run s = .ok (a, s') → P s' ∧ ∃ b, y.run s = .ok (b, s') ∧ R a b
  pure hab _ _ _ hs h := by
    obtain ⟨rfl, rfl⟩ := StateT.run_pure_eq_ok.1 h
    exact ⟨hs, _, rfl, hab⟩
  bind hxy hfg s c s'' hs h := by
    obtain ⟨a, s', ha, hc⟩ := StateT.run_bind_eq_ok.1 h
    obtain ⟨hs', b, hb, hab⟩ := hxy s a s' hs ha
    obtain ⟨hs'', d, hd, hcd⟩ := hfg a b hab s' c s'' hs' hc
    exact ⟨hs'', d, StateT.run_bind_eq_ok.2 ⟨b, s', hb, hd⟩, hcd⟩

theorem conservative_liftM {P : σ → Prop} {x y : Except ε α}
    (h : ∀ a, x = .ok a → y = .ok a) :
    (conservative P).rel Eq (liftM x : StateT σ (Except ε) α) (liftM y : StateT σ (Except ε) α) := by
  intro s a s' hs hrun
  obtain ⟨hx, rfl⟩ := StateT.run_liftM_eq_ok.1 hrun
  exact ⟨hs, a, StateT.run_liftM_eq_ok.2 ⟨h a hx, rfl⟩, rfl⟩

theorem conservative_modify {P : σ → Prop} {f : σ → σ} (hf : ∀ s, P s → P (f s)) :
    (conservative P).rel Eq (modify f : StateT σ (Except ε) PUnit)
      (modify f : StateT σ (Except ε) PUnit) := by
  intro s u s' hs h
  obtain rfl := StateT.run_modify_eq_ok.1 h
  exact ⟨hf s hs, u, h, rfl⟩

/-- A computation succeeds if one with a state does, with a related result. -/
def stateless : Simulation (Except ε) (StateT σ (Except ε)) where
  rel R x y := ∀ s b s', y.run s = .ok (b, s') → ∃ a, x = .ok a ∧ R a b
  pure hab _ _ _ h := by
    obtain ⟨rfl, -⟩ := StateT.run_pure_eq_ok.1 h
    exact ⟨_, rfl, hab⟩
  bind hxy hfg s d s'' h := by
    obtain ⟨b, s', hb, hd⟩ := StateT.run_bind_eq_ok.1 h
    obtain ⟨a, rfl, hab⟩ := hxy s b s' hb
    exact hfg a b hab s' d s'' hd

/-- A computation with a state succeeds if one with another state does, with a related result. -/
def stateful : Simulation (StateT τ (Except ε)) (StateT σ (Except ε)) where
  rel R x y := ∀ s b s', y.run s = .ok (b, s') → ∀ t, ∃ a t', x.run t = .ok (a, t') ∧ R a b
  pure hab _ _ _ h t := by
    obtain ⟨rfl, -⟩ := StateT.run_pure_eq_ok.1 h
    exact ⟨_, t, rfl, hab⟩
  bind hxy hfg s d s'' h t := by
    obtain ⟨b, s', hb, hd⟩ := StateT.run_bind_eq_ok.1 h
    obtain ⟨a, t', ha, hab⟩ := hxy s b s' hb t
    obtain ⟨c, t'', hc, hcd⟩ := hfg a b hab s' d s'' hd t'
    exact ⟨c, t'', StateT.run_bind_eq_ok.2 ⟨a, t', ha, hc⟩, hcd⟩

end Failure

end Simulation

/-! ## Walks -/

/-- The cells have the same place in rows with related numbers. -/
structure CellPosition.Related (I : NodeId → NodeId → Prop) (position position' : CellPosition) :
    Prop where
  table : I position.table position'.table
  row : I position.row position'.row
  cell : position'.cell = position.cell

/-- Cells at the same place. -/
theorem CellPosition.Related.eq {position position' : CellPosition}
    (h : position.Related Eq position') : position = position' := by
  obtain ⟨table, row, cell⟩ := position
  obtain ⟨table', row', cell'⟩ := position'
  obtain ⟨htable, hrow, hcell⟩ := h
  dsimp only at htable hrow hcell
  rw [htable, hrow, hcell]

namespace Simulation

variable {m m' : Type → Type} [Monad m] [Monad m'] [LawfulMonad m] [LawfulMonad m']
  (s : Simulation m m') {I : NodeId → NodeId → Prop}

theorem walkTable {α β γ δ : Type} {R : α → β → Prop} {S : γ → δ → Prop}
    {f : CellPosition → α → m γ} {g : CellPosition → β → m' δ} {t : Table α} {t' : Table β}
    (h : t.Related I R t') (hstep : ∀ position position' a b, position.Related I position' →
      R a b → s.rel S (f position a) (g position' b)) :
    s.rel (Table.Related I S) (t.walk f) (t'.walk g) := by
  refine s.bind (s.mapM h.rows fun r r' hr => ?_) fun rows rows' hrows =>
    s.pure ⟨h.id, h.styleId, hrows⟩
  refine s.bind (s.mapM (hr.cells.zipIdx 0) fun c c' hc => ?_) fun cells cells' hcells =>
    s.pure ⟨hr.id, hcells⟩
  obtain ⟨c, i⟩ := c
  obtain ⟨c', i'⟩ := c'
  obtain ⟨rfl, hc⟩ := hc
  exact s.bind (s.mapM hc.content fun a b => hstep _ _ a b ⟨h.id, hr.id, rfl⟩)
    fun content content' hcontent => s.pure ⟨hc.gridSpan, hcontent⟩

variable {R R' : Paragraph → Paragraph → Prop}
  {visit : List CellPosition → Paragraph → m Paragraph}
  {visit' : List CellPosition → Paragraph → m' Paragraph}

/-- Walks of related blocks are related if the visits are. -/
theorem walk (hvisit : ∀ around around' p q, List.Forall₂ (CellPosition.Related I) around around' →
      R p q → s.rel R' (visit around p) (visit' around' q))
    {b b' : Block} (h : b.Related I R b') {around around' : List CellPosition}
    (haround : List.Forall₂ (CellPosition.Related I) around around') :
    s.rel (Block.Related I R') (b.walk visit around) (b'.walk visit' around') := by
  suffices ∀ around around', List.Forall₂ (CellPosition.Related I) around around' →
      s.rel (Block.Related I R') (b.walk visit around) (b'.walk visit' around') from this _ _ haround
  refine h.induction (fun p q hpq => ?_) (fun t t' ht => ?_)
  · intro around around' haround
    rw [Block.walk_paragraph, Block.walk_paragraph]
    exact s.bind (hvisit _ _ p q haround hpq) fun p q hpq =>
      s.pure (Block.related_paragraph.2 ⟨q, rfl, hpq⟩)
  · intro around around' haround
    rw [Block.walk_table, Block.walk_table]
    refine s.bind (s.walkTable ht fun position position' b b' hposition hb =>
      hb.2 _ _ (.cons hposition haround)) fun t t' ht => ?_
    exact s.pure (Block.related_table.2 ⟨t', rfl, ht⟩)

theorem walkAll (hvisit : ∀ around around' p q,
      List.Forall₂ (CellPosition.Related I) around around' → R p q →
        s.rel R' (visit around p) (visit' around' q))
    {bs bs' : List Block} (h : List.Forall₂ (Block.Related I R) bs bs') :
    s.rel (List.Forall₂ (Block.Related I R')) (Block.walkAll visit bs) (Block.walkAll visit' bs') :=
  s.mapM h fun _ _ hb => s.walk hvisit hb .nil

/-- Walks of the same blocks have the same outcome if the visits have. -/
theorem walkAll_self (hvisit : ∀ around p, s.rel Eq (visit around p) (visit' around p))
    (blocks : List Block) : s.rel Eq (Block.walkAll visit blocks) (Block.walkAll visit' blocks) := by
  have hblocks : List.Forall₂ (Block.Related Eq Eq) blocks blocks :=
    List.forall₂_same.2 fun b _ => .refl (fun _ => rfl) (fun _ => rfl) b
  have hwalk : s.rel (List.Forall₂ (Block.Related Eq Eq)) (Block.walkAll visit blocks)
      (Block.walkAll visit' blocks) := by
    refine s.walkAll (R := Eq) (fun around around' p q haround hpq => ?_) hblocks
    obtain rfl : around = around' := List.forall₂_eq_eq_eq ▸ haround.imp fun _ _ h => h.eq
    subst hpq
    exact hvisit around p
  rw [← bind_pure (Block.walkAll visit blocks), ← bind_pure (Block.walkAll visit' blocks)]
  exact s.bind hwalk fun _ _ h => s.pure (List.forall₂_eq_eq_eq ▸ h.imp fun _ _ hb => hb.eq)

end Simulation

end DocTemplate
