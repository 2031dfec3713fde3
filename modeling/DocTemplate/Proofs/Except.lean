import DocTemplate.Proofs.Pointwise

/-!
# Computations that may fail

What it takes for a sequence of computations to succeed, without a state and with one.
-/

namespace Except

variable {ε α β : Type _}

theorem bind_eq_ok {x : Except ε α} {f : α → Except ε β} {b : β} :
    x >>= f = .ok b ↔ ∃ a, x = .ok a ∧ f a = .ok b := by
  cases x with
  | error e => simp [bind, Except.bind]
  | ok a => simp [bind, Except.bind]

theorem map_eq_ok {x : Except ε α} {f : α → β} {b : β} :
    x.map f = .ok b ↔ ∃ a, x = .ok a ∧ f a = b := by
  cases x with
  | error e => simp [Except.map]
  | ok a => simp [Except.map]

/-- What every step keeps, a sequence of steps that succeeds keeps. -/
theorem foldlM_induction {P : β → Prop} {step : β → α → Except ε β}
    (hstep : ∀ b a b', P b → step b a = .ok b' → P b') {as : List α} {b b' : β} (hb : P b)
    (h : as.foldlM step b = .ok b') : P b' := by
  induction as generalizing b with
  | nil =>
    cases h
    exact hb
  | cons a as ih =>
    rw [List.foldlM_cons] at h
    obtain ⟨next, hnext, h⟩ := bind_eq_ok.1 h
    exact ih (hstep b a next hb hnext) h

/-- A sequence of steps succeeds like another one if each of its steps does that is reached. -/
theorem foldlM_eq_ok_of_steps {P : β → Prop} {step step' : β → α → Except ε β}
    (hstep : ∀ b a b', P b → step b a = .ok b' → P b' ∧ step' b a = .ok b') {as : List α}
    {b b' : β} (hb : P b) (h : as.foldlM step b = .ok b') : as.foldlM step' b = .ok b' := by
  induction as generalizing b with
  | nil => exact h
  | cons a as ih =>
    rw [List.foldlM_cons] at h ⊢
    obtain ⟨next, hnext, h⟩ := bind_eq_ok.1 h
    obtain ⟨hP, hnext⟩ := hstep b a next hb hnext
    exact bind_eq_ok.2 ⟨next, hnext, ih hP h⟩

theorem bind_eq_error {x : Except ε α} {f : α → Except ε β} {e : ε} :
    x >>= f = .error e ↔ x = .error e ∨ ∃ a, x = .ok a ∧ f a = .error e := by
  cases x with
  | error e => simp [bind, Except.bind]
  | ok a => simp [bind, Except.bind]

theorem map_eq_error {x : Except ε α} {f : α → β} {e : ε} :
    x.map f = .error e ↔ x = .error e := by
  cases x with
  | error e => simp [Except.map]
  | ok a => simp [Except.map]

/-- A sequence of steps that fails does so at one of them. -/
theorem exists_of_foldlM_eq_error {step : β → α → Except ε β} {as : List α} {b : β} {e : ε}
    (h : as.foldlM step b = .error e) : ∃ a ∈ as, ∃ b', step b' a = .error e := by
  induction as generalizing b with
  | nil => cases h
  | cons a as ih =>
    rw [List.foldlM_cons] at h
    rcases bind_eq_error.1 h with h | ⟨next, -, h⟩
    · exact ⟨a, List.mem_cons_self, b, h⟩
    · obtain ⟨a', ha', hstep⟩ := ih h
      exact ⟨a', List.mem_cons_of_mem _ ha', hstep⟩

theorem exists_of_mapM_eq_error {f : α → Except ε β} {as : List α} {e : ε}
    (h : as.mapM f = .error e) : ∃ a ∈ as, f a = .error e := by
  induction as with
  | nil => cases h
  | cons a as ih =>
    rw [List.mapM_cons] at h
    rcases bind_eq_error.1 h with h | ⟨b, -, h⟩
    · exact ⟨a, List.mem_cons_self, h⟩
    · rcases bind_eq_error.1 h with h | ⟨bs, -, h⟩
      · obtain ⟨a', ha', h⟩ := ih h
        exact ⟨a', List.mem_cons_of_mem _ ha', h⟩
      · cases h

/-- The computation fails only with errors that have a property. -/
def FailsOnly (Q : ε → Prop) (x : Except ε α) : Prop :=
  ∀ e, x = .error e → Q e

section FailsOnly

variable {Q : ε → Prop}

theorem failsOnly_ok (a : α) : FailsOnly Q (.ok a : Except ε α) := by
  intro e h
  cases h

theorem failsOnly_error {e : ε} (he : Q e) : FailsOnly Q (.error e : Except ε α) := by
  intro e' h
  cases h
  exact he

theorem FailsOnly.bind {x : Except ε α} {f : α → Except ε β} (hx : FailsOnly Q x)
    (hf : ∀ a, FailsOnly Q (f a)) : FailsOnly Q (x >>= f) := by
  intro e h
  rcases bind_eq_error.1 h with h | ⟨a, -, h⟩
  · exact hx e h
  · exact hf a e h

end FailsOnly

/-- The computation fails with the given error, or succeeds if there is none. -/
def FailsAs (fault? : Option ε) (x : Except ε α) : Prop :=
  ∀ e, x = .error e ↔ fault? = some e

section FailsAs

variable {fault? rest? : Option ε}

theorem failsAs_ok (a : α) : FailsAs none (.ok a : Except ε α) := by
  intro e
  exact iff_of_false (fun h => by cases h) (fun h => by cases h)

theorem failsAs_error (e : ε) : FailsAs (some e) (.error e : Except ε α) := by
  intro e'
  rw [Except.error.injEq, Option.some.injEq]

/-- The first of two computations that has an error decides. -/
theorem FailsAs.bind {x : Except ε α} {f : α → Except ε β} (hx : FailsAs fault? x)
    (hf : ∀ a, x = .ok a → FailsAs rest? (f a)) : FailsAs (fault?.or rest?) (x >>= f) := by
  intro e
  rw [bind_eq_error, hx e]
  cases x with
  | error e' =>
    have hfault : fault? = some e' := (hx e').1 rfl
    simp [hfault]
  | ok a =>
    have hfault : fault? = none :=
      Option.eq_none_iff_forall_ne_some.2 fun e' he' => by cases (hx e').2 he'
    simp [hfault, hf a rfl e]

/-- What cannot fail may come after a computation. -/
theorem FailsAs.bind_none {x : Except ε α} {f : α → Except ε β} (hx : FailsAs fault? x)
    (hf : ∀ a, x = .ok a → FailsAs none (f a)) : FailsAs fault? (x >>= f) := by
  rw [← Option.or_none (o := fault?)]
  exact hx.bind hf

theorem findSome?_cons_eq_or (fault? : α → Option ε) (a : α) (as : List α) :
    (a :: as).findSome? fault? = (fault? a).or (as.findSome? fault?) := by
  rw [List.findSome?_cons]
  cases fault? a <;> rfl

theorem findSome?_flatMap (fault? : β → Option ε) (f : α → List β) (as : List α) :
    (as.flatMap f).findSome? fault? = as.findSome? fun a => (f a).findSome? fault? := by
  induction as with
  | nil => rfl
  | cons a as ih => rw [List.flatMap_cons, List.findSome?_append, findSome?_cons_eq_or, ih]

/-- If it is the element that decides how a step fails, a sequence of steps fails at the first
    element that makes its step fail. -/
theorem FailsAs.foldlM {fault? : α → Option ε} {step : β → α → Except ε β}
    (hstep : ∀ b a, FailsAs (fault? a) (step b a)) (as : List α) (b : β) :
    FailsAs (as.findSome? fault?) (as.foldlM step b) := by
  induction as generalizing b with
  | nil => exact failsAs_ok b
  | cons a as ih =>
    rw [List.foldlM_cons, findSome?_cons_eq_or]
    exact (hstep b a).bind fun b' _ => ih b'

end FailsAs

/-- Both fail with the same error, or both succeed, with related results. -/
inductive Agree (R : α → β → Prop) : Except ε α → Except ε β → Prop
  | error (e : ε) : Agree R (.error e) (.error e)
  | ok {a : α} {b : β} (h : R a b) : Agree R (.ok a) (.ok b)

theorem Agree.bind {γ δ : Type _} {R : α → β → Prop} {S : γ → δ → Prop} {x : Except ε α}
    {y : Except ε β} {f : α → Except ε γ} {g : β → Except ε δ} (h : Agree R x y)
    (hfg : ∀ a b, R a b → Agree S (f a) (g b)) : Agree S (x >>= f) (y >>= g) := by
  cases h with
  | error e => exact .error e
  | ok h => exact hfg _ _ h

theorem Agree.map {γ δ : Type _} {R : α → β → Prop} {S : γ → δ → Prop} {x : Except ε α}
    {y : Except ε β} {f : α → γ} {g : β → δ} (h : Agree R x y)
    (hfg : ∀ a b, R a b → S (f a) (g b)) : Agree S (x.map f) (y.map g) := by
  cases h with
  | error e => exact .error e
  | ok h => exact .ok (hfg _ _ h)

theorem agree_refl {R : α → α → Prop} (h : ∀ a, R a a) (x : Except ε α) : Agree R x x := by
  cases x with
  | error e => exact .error e
  | ok a => exact .ok (h a)

theorem Agree.exists_of_eq_ok {R : α → β → Prop} {x : Except ε α} {y : Except ε β}
    (h : Agree R x y) {b : β} (hy : y = .ok b) : ∃ a, x = .ok a ∧ R a b := by
  subst hy
  cases h with
  | ok h => exact ⟨_, rfl, h⟩

theorem Agree.of_ok {R : α → β → Prop} {a : α} {b : β}
    (h : Agree R (.ok a : Except ε α) (.ok b)) : R a b := by
  cases h with
  | ok h => exact h

/-- The outcomes of the steps of a sequence. -/
theorem mapM_eq_ok_iff {f : α → Except ε β} {as : List α} {bs : List β} :
    as.mapM f = .ok bs ↔ List.Forall₂ (fun a b => f a = .ok b) as bs := by
  induction as generalizing bs with
  | nil =>
    rw [List.mapM_nil, List.forall₂_nil_left_iff]
    exact ⟨fun h => by cases h; rfl, fun h => by rw [h]; rfl⟩
  | cons a as ih =>
    rw [List.mapM_cons, List.forall₂_cons_left_iff, bind_eq_ok]
    constructor
    · rintro ⟨b, hb, h⟩
      obtain ⟨rest, hrest, h⟩ := bind_eq_ok.1 h
      cases h
      exact ⟨b, rest, hb, ih.1 hrest, rfl⟩
    · rintro ⟨b, rest, hb, hrest, rfl⟩
      exact ⟨b, hb, bind_eq_ok.2 ⟨rest, ih.2 hrest, rfl⟩⟩

theorem eq_ok_of_toOption {x : Except ε α} {a : α} (h : x.toOption = some a) : x = .ok a := by
  cases x with
  | error e => cases h
  | ok b => rw [Option.some.inj h]

theorem eq_ok_get {x : Except ε α} (h : x.toOption.isSome) : x = .ok (x.toOption.get h) :=
  eq_ok_of_toOption (Option.some_get h).symm

/-- A value with a property, found by one evaluation. -/
theorem exists_of_toOption {x : Except ε α} {P : α → Prop} [DecidablePred P]
    (h : x.toOption.any fun a => P a) : ∃ a, x = .ok a ∧ P a := by
  cases x with
  | error e => cases h
  | ok a => exact ⟨a, rfl, of_decide_eq_true h⟩

end Except

namespace StateT

variable {ε σ α β : Type}

theorem run_bind_eq_ok {x : StateT σ (Except ε) α} {f : α → StateT σ (Except ε) β} {s s'' : σ}
    {b : β} :
    (x >>= f).run s = .ok (b, s'') ↔ ∃ a s', x.run s = .ok (a, s') ∧ (f a).run s' = .ok (b, s'') := by
  rw [StateT.run_bind, Except.bind_eq_ok, Prod.exists]

theorem run_bind_eq_error {x : StateT σ (Except ε) α} {f : α → StateT σ (Except ε) β} {s : σ}
    {e : ε} :
    (x >>= f).run s = .error e ↔
      x.run s = .error e ∨ ∃ a s', x.run s = .ok (a, s') ∧ (f a).run s' = .error e := by
  rw [StateT.run_bind, Except.bind_eq_error, Prod.exists]

theorem run_pure_eq_ok {a b : α} {s s' : σ} :
    (pure a : StateT σ (Except ε) α).run s = .ok (b, s') ↔ b = a ∧ s' = s := by
  change (Except.ok (a, s) : Except ε (α × σ)) = .ok (b, s') ↔ _
  rw [Except.ok.injEq, Prod.mk.injEq]
  exact and_congr eq_comm eq_comm

theorem run_get_eq_ok {s a s' : σ} :
    (get : StateT σ (Except ε) σ).run s = .ok (a, s') ↔ a = s ∧ s' = s := by
  change (Except.ok (s, s) : Except ε (σ × σ)) = .ok (a, s') ↔ _
  rw [Except.ok.injEq, Prod.mk.injEq]
  exact and_congr eq_comm eq_comm

theorem run_set_eq_ok {s s' s'' : σ} {u : PUnit} :
    (set s : StateT σ (Except ε) PUnit).run s' = .ok (u, s'') ↔ s'' = s := by
  change (Except.ok (PUnit.unit, s) : Except ε (PUnit × σ)) = .ok (u, s'') ↔ _
  rw [Except.ok.injEq, Prod.mk.injEq]
  exact ⟨fun h => h.2.symm, fun h => ⟨rfl, h.symm⟩⟩

theorem run_modify_eq_ok {f : σ → σ} {s s' : σ} {u : PUnit} :
    (modify f : StateT σ (Except ε) PUnit).run s = .ok (u, s') ↔ s' = f s := by
  change (Except.ok (PUnit.unit, f s) : Except ε (PUnit × σ)) = .ok (u, s') ↔ _
  rw [Except.ok.injEq, Prod.mk.injEq]
  exact ⟨fun h => h.2.symm, fun h => ⟨rfl, h.symm⟩⟩

theorem run_liftM_eq_ok {x : Except ε α} {s s' : σ} {a : α} :
    (liftM x : StateT σ (Except ε) α).run s = .ok (a, s') ↔ x = .ok a ∧ s' = s := by
  have hrun : (liftM x : StateT σ (Except ε) α).run s = x.map fun a => (a, s) := by
    cases x <;> rfl
  rw [hrun, Except.map_eq_ok]
  constructor
  · rintro ⟨a', rfl, h⟩
    cases h
    exact ⟨rfl, rfl⟩
  · rintro ⟨rfl, rfl⟩
    exact ⟨a, rfl, rfl⟩

theorem run_mapM_cons_eq_ok {f : α → StateT σ (Except ε) β} {a : α} {as : List α} {s s'' : σ}
    {bs : List β} :
    ((a :: as).mapM f).run s = .ok (bs, s'') ↔ ∃ b s' rest, (f a).run s = .ok (b, s') ∧
      (as.mapM f).run s' = .ok (rest, s'') ∧ bs = b :: rest := by
  rw [List.mapM_cons, run_bind_eq_ok]
  constructor
  · rintro ⟨b, s', hb, h⟩
    obtain ⟨rest, _, hrest, h⟩ := run_bind_eq_ok.1 h
    obtain ⟨rfl, rfl⟩ := run_pure_eq_ok.1 h
    exact ⟨b, s', rest, hb, hrest, rfl⟩
  · rintro ⟨b, s', rest, hb, hrest, rfl⟩
    exact ⟨b, s', hb, run_bind_eq_ok.2 ⟨rest, s'', hrest, run_pure_eq_ok.2 ⟨rfl, rfl⟩⟩⟩

theorem run_liftM_eq_error {x : Except ε α} {s : σ} {e : ε} :
    (liftM x : StateT σ (Except ε) α).run s = .error e ↔ x = .error e := by
  cases x with
  | error e' =>
    change (Except.error e' : Except ε (α × σ)) = .error e ↔ _
    simp
  | ok a =>
    change (Except.ok (a, s) : Except ε (α × σ)) = .error e ↔ _
    simp

/-- The outcomes of the steps of a sequence that succeeds. -/
theorem forall₂_of_run_mapM {f : α → StateT σ (Except ε) β} {as : List α} {s s' : σ} {bs : List β}
    (h : (as.mapM f).run s = .ok (bs, s')) :
    List.Forall₂ (fun a b => ∃ s s', (f a).run s = .ok (b, s')) as bs := by
  induction as generalizing s bs with
  | nil =>
    obtain ⟨rfl, -⟩ := run_pure_eq_ok.1 h
    exact .nil
  | cons a as ih =>
    obtain ⟨b, s₁, rest, hb, hrest, rfl⟩ := run_mapM_cons_eq_ok.1 h
    exact .cons ⟨s, s₁, hb⟩ (ih hrest)

/-- A sequence of steps that fails does so at one of them. -/
theorem exists_of_run_mapM_eq_error {f : α → StateT σ (Except ε) β} {as : List α} {s : σ} {e : ε}
    (h : (as.mapM f).run s = .error e) : ∃ a ∈ as, ∃ s', (f a).run s' = .error e := by
  induction as generalizing s with
  | nil => cases h
  | cons a as ih =>
    rw [List.mapM_cons] at h
    rcases run_bind_eq_error.1 h with h | ⟨b, s', -, h⟩
    · exact ⟨a, List.mem_cons_self, s, h⟩
    · rcases run_bind_eq_error.1 h with h | ⟨bs, s'', -, h⟩
      · obtain ⟨a', ha', hstep⟩ := ih h
        exact ⟨a', List.mem_cons_of_mem _ ha', hstep⟩
      · cases h

/-- The same as `Except.FailsAs.foldlM`, for steps that have a state. -/
theorem failsAs_run_mapM {fault? : α → Option ε} {f : α → StateT σ (Except ε) β}
    (hstep : ∀ a s, Except.FailsAs (fault? a) ((f a).run s)) (as : List α) (s : σ) :
    Except.FailsAs (as.findSome? fault?) ((as.mapM f).run s) := by
  induction as generalizing s with
  | nil => exact Except.failsAs_ok _
  | cons a as ih =>
    rw [List.mapM_cons, Except.findSome?_cons_eq_or, run_bind]
    exact (hstep a s).bind fun (b, s') _ => (ih s').bind_none fun _ _ => Except.failsAs_ok _

/-! ## Invariants -/

/-- The computation keeps a property of the state, and fails only in certain ways. -/
structure Preserves (P : σ → Prop) (Q : ε → Prop) (x : StateT σ (Except ε) α) : Prop where
  ok {s s' : σ} {a : α} (hs : P s) (h : x.run s = .ok (a, s')) : P s'
  error {s : σ} {e : ε} (hs : P s) (h : x.run s = .error e) : Q e

variable {P : σ → Prop} {Q : ε → Prop}

theorem preserves_pure (a : α) : Preserves P Q (pure a : StateT σ (Except ε) α) where
  ok hs h := by
    obtain ⟨-, rfl⟩ := run_pure_eq_ok.1 h
    exact hs
  error _ h := by cases h

theorem Preserves.bind {x : StateT σ (Except ε) α} {f : α → StateT σ (Except ε) β}
    (hx : Preserves P Q x) (hf : ∀ a, Preserves P Q (f a)) : Preserves P Q (x >>= f) where
  ok hs h := by
    obtain ⟨a, s', ha, h⟩ := run_bind_eq_ok.1 h
    exact (hf a).ok (hx.ok hs ha) h
  error hs h := by
    rcases run_bind_eq_error.1 h with h | ⟨a, s', ha, h⟩
    · exact hx.error hs h
    · exact (hf a).error (hx.ok hs ha) h

theorem preserves_liftM {x : Except ε α} (hx : ∀ e, x = .error e → Q e) :
    Preserves P Q (liftM x : StateT σ (Except ε) α) where
  ok hs h := by
    obtain ⟨-, rfl⟩ := run_liftM_eq_ok.1 h
    exact hs
  error _ h := hx _ (run_liftM_eq_error.1 h)

theorem preserves_modify {f : σ → σ} (hf : ∀ s, P s → P (f s)) :
    Preserves P Q (modify f : StateT σ (Except ε) PUnit) where
  ok hs h := by
    obtain rfl := run_modify_eq_ok.1 h
    exact hf _ hs
  error _ h := by cases h

theorem preserves_mapM {f : α → StateT σ (Except ε) β} {as : List α}
    (hf : ∀ a ∈ as, Preserves P Q (f a)) : Preserves P Q (as.mapM f) := by
  induction as with
  | nil => exact preserves_pure _
  | cons a as ih =>
    rw [List.mapM_cons]
    exact (hf a List.mem_cons_self).bind fun _ =>
      (ih fun a ha => hf a (List.mem_cons_of_mem _ ha)).bind fun _ => preserves_pure _

theorem preserves_forIn {f : α → PUnit → StateT σ (Except ε) (ForInStep PUnit)} {as : List α}
    (hf : ∀ a ∈ as, ∀ u, Preserves P Q (f a u)) (u : PUnit) : Preserves P Q (forIn as u f) := by
  induction as generalizing u with
  | nil => exact preserves_pure _
  | cons a as ih =>
    rw [List.forIn_cons]
    refine (hf a List.mem_cons_self u).bind fun step => ?_
    cases step with
    | done u => exact preserves_pure _
    | yield u => exact ih (fun a ha => hf a (List.mem_cons_of_mem _ ha)) u

end StateT
