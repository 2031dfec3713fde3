import DocTemplate.Proofs.Document.Place

/-!
# Walks in the outline

A walk of some blocks is one through the list of their nodes: it visits the
paragraphs of the outline one after the other, each with the cells around it, and
passes over all other nodes. So what a walk does can be read off the outline.

* `Block.outlineOf_walkAll`: the outline after a walk is the outline with a visit to
  each of its paragraphs;
* `Block.walkAll_congr`: two walks are the same if they do the same to the
  paragraphs that are there.
-/

namespace DocTemplate

section Lists

variable {m : Type → Type} [Monad m] [LawfulMonad m] {α β γ δ : Type} {f : α → m β}
  {g : β → List δ} {h : α → List γ} {k : γ → m δ}

/-- Steps that are each a sequence of smaller ones are one sequence of these. -/
theorem map_flatMap_mapM {as : List α} (hstep : ∀ a ∈ as, g <$> f a = (h a).mapM k) :
    (fun bs => bs.flatMap g) <$> as.mapM f = (as.flatMap h).mapM k := by
  induction as with
  | nil => simp
  | cons a as ih =>
    have ih := ih fun a ha => hstep a (List.mem_cons_of_mem _ ha)
    rw [List.flatMap_cons, List.mapM_append, ← hstep a List.mem_cons_self, ← ih]
    simp [List.mapM_cons]

/-- The same for steps that know their place in the list. -/
theorem map_flatMap_zipIdx_mapM {f : α × Nat → m β} {g : β × Nat → List δ}
    {h : α × Nat → List γ} {as : List α} {start : Nat}
    (hstep : ∀ a ∈ as.zipIdx start, (fun b => g (b, a.2)) <$> f a = (h a).mapM k) :
    (fun bs => (bs.zipIdx start).flatMap g) <$> (as.zipIdx start).mapM f =
      ((as.zipIdx start).flatMap h).mapM k := by
  induction as generalizing start with
  | nil => simp
  | cons a as ih =>
    rw [List.zipIdx_cons] at hstep ⊢
    have ih := ih fun a ha => hstep a (List.mem_cons_of_mem _ ha)
    rw [List.flatMap_cons, List.mapM_append, ← hstep _ List.mem_cons_self, ← ih]
    simp [List.mapM_cons, List.zipIdx_cons]

theorem mapM_congr_of_mem {f f' : α → m β} {as : List α} (hf : ∀ a ∈ as, f a = f' a) :
    as.mapM f = as.mapM f' := by
  induction as with
  | nil => rfl
  | cons a as ih =>
    rw [List.mapM_cons, List.mapM_cons, hf a List.mem_cons_self,
      ih fun a ha => hf a (List.mem_cons_of_mem _ ha)]

omit [LawfulMonad m] in
theorem forIn_congr_of_mem {step step' : α → β → m (ForInStep β)} {as : List α} {b : β}
    (hstep : ∀ a ∈ as, step a = step' a) : forIn as b step = forIn as b step' := by
  induction as generalizing b with
  | nil => rfl
  | cons a as ih =>
    rw [List.forIn_cons, List.forIn_cons, hstep a List.mem_cons_self]
    congr 1
    funext outcome
    cases outcome with
    | done b => rfl
    | yield b => exact ih fun a ha => hstep a (List.mem_cons_of_mem _ ha)

end Lists

variable {m : Type → Type} [Monad m]

/-- The node after a visit to it, if it is a paragraph. -/
def Placed.visit (visit : List CellPosition → Paragraph → m Paragraph) : Placed → m Placed
  | ⟨.paragraph p, around⟩ => return ⟨.paragraph (← visit around p), around⟩
  | e => return e

variable [LawfulMonad m] {visit visit' : List CellPosition → Paragraph → m Paragraph}

namespace Table

variable {α β : Type}

theorem walk_map (f : α → β) {γ : Type} (step : CellPosition → β → m γ) (t : Table α) :
    (t.map f).walk step = t.walk fun position a => step position (f a) := by
  simp only [walk, map, Row.map, List.mapM_map, Function.comp_def, List.zipIdx_map, Prod.map,
    Cell.map]
  rfl

theorem walk_congr {step step' : CellPosition → α → m β} {t : Table α}
    (h : ∀ r ∈ t.rows, ∀ i cell, r.cells[i]? = some cell → ∀ item ∈ cell.content,
      step ⟨t.id, r.id, i⟩ item = step' ⟨t.id, r.id, i⟩ item) : t.walk step = t.walk step' := by
  rw [walk]
  congr 1
  refine mapM_congr_of_mem fun r hr => ?_
  congr 1
  refine mapM_congr_of_mem fun ⟨cell, i⟩ hcell => ?_
  dsimp only
  congr 1
  exact mapM_congr_of_mem (h r hr i cell (List.mk_mem_zipIdx_iff_getElem?.1 hcell))

theorem walk_pure (t : Table α) : t.walk (m := m) (fun _ a => pure a) = pure t := by
  have hmapM : ∀ {γ : Type} (as : List γ), as.mapM (m := m) pure = pure as := by
    intro γ as
    simpa using List.mapM_pure (m := m) (l := as) (f := fun a => a)
  have hcells : ∀ cells : List (Cell α), cells.zipIdx.mapM (m := m) (fun x =>
      pure (⟨x.1.content, x.1.gridSpan⟩ : Cell α)) = pure cells := by
    intro cells
    rw [List.mapM_pure]
    exact congrArg pure (List.zipIdx_map_fst 0 cells)
  simp only [walk, hmapM, pure_bind, hcells]

/-- A walk through the cells of a table is one through its nodes. -/
theorem map_outline_walk {inner : α → List CellPosition → List Placed}
    {inner' : β → List CellPosition → List Placed} {step : α → List CellPosition → m β}
    {around : List CellPosition} {t : Table α}
    (h : ∀ item ∈ t.items, ∀ around,
      (fun b => inner' b around) <$> step item around = (inner item around).mapM (Placed.visit visit)) :
    (fun t' => t'.outline inner' around) <$>
        t.walk (fun position item => step item (position :: around)) =
      (t.outline inner around).mapM (Placed.visit visit) := by
  -- From the items to their cell, from the cells to their row, and from the rows to the table.
  have hcell : ∀ r ∈ t.rows, ∀ c ∈ r.cells.zipIdx,
      (fun c' : Cell β => c'.outline inner' around ⟨t.id, r.id, c.2⟩) <$>
          (do
            let content ← c.1.content.mapM fun item => step item (⟨t.id, r.id, c.2⟩ :: around)
            return ⟨content, c.1.gridSpan⟩) =
        (c.1.outline inner around ⟨t.id, r.id, c.2⟩).mapM (Placed.visit visit) := by
    intro r hr c hc
    rw [Cell.outline, ← map_flatMap_mapM (g := fun b => inner' b (⟨t.id, r.id, c.2⟩ :: around))
      (f := fun item => step item (⟨t.id, r.id, c.2⟩ :: around))]
    · simp [Cell.outline]
    · intro item hitem
      exact h item (mem_items.2 ⟨r, hr, c.1, List.fst_mem_of_mem_zipIdx hc, hitem⟩) _
  have hrow : ∀ r ∈ t.rows,
      (fun r' : Row β => r'.outline inner' around t.id) <$>
          (do
            let cells ← r.cells.zipIdx.mapM fun c => do
              let content ← c.1.content.mapM fun item => step item (⟨t.id, r.id, c.2⟩ :: around)
              return ⟨content, c.1.gridSpan⟩
            return ⟨r.id, cells⟩) =
        (r.outline inner around t.id).mapM (Placed.visit visit) := by
    intro r hr
    have hcells := map_flatMap_zipIdx_mapM (k := Placed.visit visit)
      (g := fun c : Cell β × Nat => c.1.outline inner' around ⟨t.id, r.id, c.2⟩)
      (h := fun c : Cell α × Nat => c.1.outline inner around ⟨t.id, r.id, c.2⟩) (hcell r hr)
    rw [Row.outline, List.mapM_cons, ← hcells]
    simp [Row.outline, Placed.visit]
  have hrows := map_flatMap_mapM (k := Placed.visit visit)
    (g := fun r' : Row β => r'.outline inner' around t.id)
    (h := fun r : Row α => r.outline inner around t.id) hrow
  rw [outline, List.mapM_cons, ← hrows]
  simp [outline, walk, Placed.visit]

end Table

namespace Block

theorem walk_paragraph (p : Paragraph) (around : List CellPosition) :
    (paragraph p).walk visit around = (do return paragraph (← visit around p)) := by
  simp [walk]

theorem walk_table (t : Table Block) (around : List CellPosition) :
    (table t).walk visit around =
      (do return table (← t.walk fun position b => b.walk visit (position :: around))) := by
  rw [walk, fold_table, Table.walk_map]

/-- The nodes of a block after a walk are its nodes, each after a visit to it. -/
theorem outline_walk (b : Block) (around : List CellPosition) :
    (fun b' : Block => b'.outline around) <$> b.walk visit around =
      (b.outline around).mapM (Placed.visit visit) := by
  induction b using Block.induction generalizing around with
  | paragraph p => simp [walk_paragraph, Placed.visit]
  | table t ih =>
    rw [walk_table, outline_table, ← Table.map_outline_walk fun b hb around => ih b hb around]
    simp

/-- The nodes of some blocks after a walk are their nodes, each after a visit to it. -/
theorem outlineOf_walkAll (bs : List Block) :
    (fun bs' => outlineOf bs' []) <$> walkAll visit bs =
      (outlineOf bs []).mapM (Placed.visit visit) :=
  map_flatMap_mapM fun b _ => b.outline_walk []

theorem walk_congr {b : Block} {around : List CellPosition}
    (h : ∀ a p, ⟨.paragraph p, a⟩ ∈ b.outline around → visit a p = visit' a p) :
    b.walk visit around = b.walk visit' around := by
  induction b using Block.induction generalizing around with
  | paragraph p => rw [walk_paragraph, walk_paragraph, h around p (by simp)]
  | table t ih =>
    rw [walk_table, walk_table]
    congr 1
    refine Table.walk_congr fun r hr i cell hcell b hb => ?_
    obtain ⟨j, hrow⟩ := List.mem_iff_getElem?.1 hr
    obtain ⟨k, hblock⟩ := List.mem_iff_getElem?.1 hb
    refine ih b (Table.mem_items_of_getElem? hrow hcell hblock) fun a p hp => h a p ?_
    rw [outline_table]
    exact Table.mem_outline.2 (.inr ⟨r, hr, Row.mem_outline.2 (.inr ⟨cell, i, b, hcell, hb, hp⟩)⟩)

/-- A walk that leaves every paragraph alone. -/
theorem walk_pure (b : Block) (around : List CellPosition) :
    b.walk (m := m) (fun _ p => pure p) around = pure b := by
  induction b using Block.induction generalizing around with
  | paragraph p => simp [walk_paragraph]
  | table t ih =>
    have ht : t.walk (m := m) (fun position b => b.walk (fun _ p => pure p) (position :: around)) =
        t.walk fun _ b => pure b := by
      exact Table.walk_congr fun r hr i cell hcell b hb =>
        ih b (Table.mem_items.2 ⟨r, hr, cell, List.mem_of_getElem? hcell, hb⟩) _
    rw [walk_table, ht, Table.walk_pure, pure_bind]

theorem walkAll_pure (bs : List Block) : walkAll (m := m) (fun _ p => pure p) bs = pure bs := by
  rw [walkAll, mapM_congr_of_mem fun b _ => b.walk_pure []]
  simpa using List.mapM_pure (m := m) (l := bs) (f := fun b => b)

/-- Two walks are the same if they do the same to the paragraphs that are there. -/
theorem walkAll_congr {bs : List Block}
    (h : ∀ a p, ⟨.paragraph p, a⟩ ∈ outlineOf bs [] → visit a p = visit' a p) :
    walkAll visit bs = walkAll visit' bs :=
  mapM_congr_of_mem fun b hb => walk_congr fun a p hp =>
    h a p (List.mem_flatMap.2 ⟨b, hb, hp⟩)

end Block

end DocTemplate
