import Mathlib.Data.List.Forall2

/-!
# Item by item

What lists have in common that are related item by item (`List.Forall₂`), and optional values
that are related if there are any (`Option.Rel`): what is looked up in them is related, and
they stay related under the same change. The outcomes of a computation that may fail are
related so to what they are the outcomes for (`Option.mapM_eq_some_iff`).
-/

namespace Option.Rel

variable {α β γ δ : Type _} {R : α → β → Prop} {S : γ → δ → Prop} {x : Option α} {y : Option β}

theorem bind {f : α → Option γ} {g : β → Option δ} (h : Option.Rel R x y)
    (hfg : ∀ a b, R a b → Option.Rel S (f a) (g b)) : Option.Rel S (x.bind f) (y.bind g) := by
  cases h with
  | none => exact .none
  | some h => exact hfg _ _ h

theorem map {f : α → γ} {g : β → δ} (h : Option.Rel R x y) (hfg : ∀ a b, R a b → S (f a) (g b)) :
    Option.Rel S (x.map f) (y.map g) := by
  cases h with
  | none => exact .none
  | some h => exact .some (hfg _ _ h)

theorem imp {R' : α → β → Prop} (h : Option.Rel R x y) (hR : ∀ a b, R a b → R' a b) :
    Option.Rel R' x y := by
  cases h with
  | none => exact .none
  | some h => exact .some (hR _ _ h)

theorem isSome_eq (h : Option.Rel R x y) : y.isSome = x.isSome := by
  cases h <;> rfl

/-- What is the same of related values is the same of optional ones. -/
theorem bind_eq {f : α → Option γ} {g : β → Option γ} (h : Option.Rel R x y)
    (hfg : ∀ a b, R a b → g b = f a) : y.bind g = x.bind f := by
  cases h with
  | none => rfl
  | some h => exact hfg _ _ h

end Option.Rel

namespace List.Forall₂

variable {α β : Type _} {R : α → β → Prop} {as : List α} {bs : List β}

theorem exists_of_mem_left (h : Forall₂ R as bs) {a : α} (ha : a ∈ as) : ∃ b ∈ bs, R a b := by
  induction h with
  | nil => cases ha
  | @cons a' b' _ _ hab _ ih =>
    rcases mem_cons.1 ha with rfl | ha
    · exact ⟨b', mem_cons_self, hab⟩
    · obtain ⟨b, hb, hab'⟩ := ih ha
      exact ⟨b, mem_cons_of_mem _ hb, hab'⟩

theorem exists_of_mem_right (h : Forall₂ R as bs) {b : β} (hb : b ∈ bs) : ∃ a ∈ as, R a b :=
  h.flip.exists_of_mem_left hb

/-- Items that are related to others, one by one, may be related in more ways. -/
theorem imp_of_mem {S : α → β → Prop} (h : Forall₂ R as bs) (hRS : ∀ a ∈ as, ∀ b, R a b → S a b) :
    Forall₂ S as bs := by
  induction h with
  | nil => exact .nil
  | @cons a b as bs hab _ ih =>
    exact .cons (hRS a mem_cons_self b hab) (ih fun a ha => hRS a (mem_cons_of_mem _ ha))

theorem zipIdx (h : Forall₂ R as bs) (k : Nat) :
    Forall₂ (fun x y => y.2 = x.2 ∧ R x.1 y.1) (as.zipIdx k) (bs.zipIdx k) := by
  induction h generalizing k with
  | nil => exact .nil
  | cons hab _ ih => exact .cons ⟨rfl, hab⟩ (ih (k + 1))

theorem zip {γ : Type _} (h : Forall₂ R as bs) (cs : List γ) :
    Forall₂ (fun x y => R x.1 y.1 ∧ y.2 = x.2) (as.zip cs) (bs.zip cs) := by
  induction h generalizing cs with
  | nil => exact .nil
  | cons hab _ ih =>
    cases cs with
    | nil => exact .nil
    | cons c cs => exact .cons ⟨hab, rfl⟩ (ih cs)

/-- What is related to something of a second kind, item by item, can be, item by item, of a
    third kind. -/
theorem exists_forall₂ {γ : Type _} {S : α → γ → Prop} {T : β → γ → Prop} (h : Forall₂ R as bs)
    (hex : ∀ a ∈ as, ∀ b, R a b → ∃ c, S a c ∧ T b c) : ∃ cs, Forall₂ S as cs ∧ Forall₂ T bs cs := by
  induction h with
  | nil => exact ⟨[], .nil, .nil⟩
  | @cons a b as bs hab _ ih =>
    obtain ⟨cs, has, hbs⟩ := ih fun a ha => hex a (mem_cons_of_mem _ ha)
    obtain ⟨c, ha, hb⟩ := hex a mem_cons_self b hab
    exact ⟨c :: cs, .cons ha has, .cons hb hbs⟩

theorem map_eq {γ : Type _} {f : α → γ} {g : β → γ} (h : Forall₂ R as bs)
    (hfg : ∀ a b, R a b → g b = f a) : bs.map g = as.map f := by
  induction h with
  | nil => rfl
  | cons hab _ ih => rw [map_cons, map_cons, hfg _ _ hab, ih]

theorem flatMap_eq {γ : Type _} {f : α → List γ} {g : β → List γ} (h : Forall₂ R as bs)
    (hfg : ∀ a b, R a b → g b = f a) : bs.flatMap g = as.flatMap f := by
  rw [flatMap_def, flatMap_def, h.map_eq hfg]

/-- If what is filtered out of one list or the other is the same, so is what is left. -/
theorem filter_eq {R : α → α → Prop} {as bs : List α} {keep : α → Bool} (h : Forall₂ R as bs)
    (hkeep : ∀ a b, R a b → keep b = keep a) (heq : ∀ a b, R a b → keep a → b = a) :
    bs.filter keep = as.filter keep := by
  induction h with
  | nil => rfl
  | @cons a b _ _ hab _ ih =>
    rw [filter_cons, filter_cons, hkeep a b hab, ih]
    split
    · next ha => rw [heq a b hab ha]
    · rfl

theorem getElem? (h : Forall₂ R as bs) (i : Nat) : Option.Rel R as[i]? bs[i]? := by
  induction h generalizing i with
  | nil => exact .none
  | cons hab _ ih =>
    cases i with
    | zero => exact .some hab
    | succ i => exact ih i

theorem findSome?_eq {γ : Type _} {f : α → Option γ} {g : β → Option γ} (h : Forall₂ R as bs)
    (hfg : ∀ a b, R a b → g b = f a) : bs.findSome? g = as.findSome? f := by
  induction h with
  | nil => rfl
  | cons hab _ ih => rw [findSome?_cons, findSome?_cons, hfg _ _ hab, ih]

theorem findSome? {γ δ : Type _} {S : γ → δ → Prop} {f : α → Option γ} {g : β → Option δ}
    (h : Forall₂ R as bs) (hfg : ∀ a b, R a b → Option.Rel S (f a) (g b)) :
    Option.Rel S (as.findSome? f) (bs.findSome? g) := by
  induction h with
  | nil => exact .none
  | @cons a b _ _ hab _ ih =>
    rw [findSome?_cons, findSome?_cons]
    have hstep := hfg a b hab
    generalize f a = x, g b = y at hstep
    cases hstep with
    | none => exact ih
    | some hcd => exact .some hcd

theorem set {a : α} {b : β} (h : Forall₂ R as bs) (i : Nat) (hab : R a b) :
    Forall₂ R (as.set i a) (bs.set i b) := by
  induction h generalizing i with
  | nil => exact .nil
  | cons hcd h ih =>
    cases i with
    | zero => exact .cons hab h
    | succ i => exact .cons hcd (ih i)

theorem eraseIdx (h : Forall₂ R as bs) (i : Nat) : Forall₂ R (as.eraseIdx i) (bs.eraseIdx i) := by
  induction h generalizing i with
  | nil => exact .nil
  | cons hab h ih =>
    cases i with
    | zero => exact h
    | succ i => exact .cons hab (ih i)

theorem modify {f : α → α} {g : β → β} (h : Forall₂ R as bs) (i : Nat)
    (hfg : ∀ a b, R a b → R (f a) (g b)) : Forall₂ R (as.modify i f) (bs.modify i g) := by
  induction h generalizing i with
  | nil => cases i <;> exact .nil
  | cons hab h ih =>
    cases i with
    | zero => exact .cons (hfg _ _ hab) h
    | succ i => exact .cons hab (ih i)

end List.Forall₂

/-- The outcomes for the items of a list, if there is one for each. -/
theorem Option.mapM_eq_some_iff {α β : Type _} {f : α → Option β} {as : List α} {bs : List β} :
    as.mapM f = some bs ↔ List.Forall₂ (fun a b => f a = some b) as bs := by
  induction as generalizing bs with
  | nil => simp [eq_comm]
  | cons a as ih =>
    rw [List.mapM_cons, List.forall₂_cons_left_iff]
    constructor
    · intro h
      obtain ⟨b, hb, h⟩ := Option.bind_eq_some_iff.1 h
      obtain ⟨rest, hrest, h⟩ := Option.bind_eq_some_iff.1 h
      cases h
      exact ⟨b, rest, hb, ih.1 hrest, rfl⟩
    · rintro ⟨b, rest, hb, hrest, rfl⟩
      rw [hb, ih.2 hrest]
      rfl

/-- What is looked up under keys that are distinct. -/
theorem List.lookup_of_nodup {α β : Type _} [BEq α] [LawfulBEq α] {as : List (α × β)}
    (h : (as.map Prod.fst).Nodup) {a : α × β} (ha : a ∈ as) : as.lookup a.1 = some a.2 := by
  induction as with
  | nil => cases ha
  | cons a' as ih =>
    rw [List.map_cons, List.nodup_cons] at h
    obtain ⟨k, v⟩ := a'
    rcases List.mem_cons.1 ha with rfl | hin
    · simp
    · have hne : a.1 ≠ k := by
        rintro rfl
        exact h.1 (List.mem_map.2 ⟨a, hin, rfl⟩)
      rw [List.lookup_cons, beq_false_of_ne hne]
      exact ih h.2 hin
