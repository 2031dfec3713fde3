import DocTemplate.Directive.Handler
import Mathlib.Data.List.Induction

/-!
# Revisions

How a revision succeeds: what it *yields* from a draft is an outcome and the draft
after its edits. A sequence of steps *reaches* one of them at the draft that the
steps before it yield.

* `Revision.yields_bind`: a revision after another;
* `Revision.yields_edit?`, `Revision.yields_edit?_count`: an edit that is made if it can be, and
  is counted then;
* `Revision.document_of_edit?`: what such an edit keeps;
* `Revision.fails_bind`: how a sequence of two revisions fails;
* `Revision.Keeps`: what a revision does not count;
* `Revision.forM_induction`: what every step keeps, a sequence of steps keeps;
* `Revision.Reaches.induction`: and it holds of every draft that is reached.
-/

namespace DocTemplate

namespace Revision

variable {α β : Type} {d d' : Draft}

/-- The revision succeeds on a draft, with an outcome and the draft after it. -/
def Yields (r : Revision α) (d : Draft) (a : α) (d' : Draft) : Prop :=
  r.run d = (.ok a, d')

/-- The revision fails on a draft. -/
def Fails (r : Revision α) (d : Draft) (e : Error) : Prop :=
  (r.run d).1 = .error e

theorem yields_pure {a b : α} : Yields (pure a) d b d' ↔ b = a ∧ d' = d := by
  change ((Except.ok a : Except Error α), d) = (.ok b, d') ↔ _
  rw [Prod.mk.injEq, Except.ok.injEq]
  exact and_congr eq_comm eq_comm

theorem run_bind (r : Revision α) (f : α → Revision β) (d : Draft) :
    (r >>= f).run d = match r.run d with
      | (.ok a, d₁) => (f a).run d₁
      | (.error e, d₁) => (.error e, d₁) := by
  change (ExceptT.bindCont f (r.run d).1).run (r.run d).2 = _
  rcases r.run d with ⟨_ | a, d₁⟩ <;> rfl

theorem yields_bind {r : Revision α} {f : α → Revision β} {b : β} :
    Yields (r >>= f) d b d' ↔ ∃ a d₁, Yields r d a d₁ ∧ Yields (f a) d₁ b d' := by
  unfold Yields
  rw [run_bind]
  rcases r.run d with ⟨e | a, d₁⟩
  · refine iff_of_false (fun h => by cases h) ?_
    rintro ⟨_, _, h, -⟩
    cases h
  · constructor
    · exact fun h => ⟨a, d₁, rfl, h⟩
    · rintro ⟨_, _, h, hf⟩
      cases h
      exact hf

/-- Revisions that start in the same way and go on in the same way are the same. -/
theorem run_bind_congr {r r' : Revision α} {f f' : α → Revision β} (hr : r.run d = r'.run d)
    (hf : ∀ a d₁, Yields r d a d₁ → (f a).run d₁ = (f' a).run d₁) :
    (r >>= f).run d = (r' >>= f').run d := by
  rw [run_bind, run_bind, ← hr]
  rcases h : r.run d with ⟨e | a, d₁⟩
  · rfl
  · exact hf a d₁ h

theorem yields_document {doc : Document} : Yields document d doc d' ↔ doc = d.document ∧ d' = d := by
  change ((Except.ok d.document : Except Error Document), d) = (.ok doc, d') ↔ _
  rw [Prod.mk.injEq, Except.ok.injEq]
  exact and_congr eq_comm eq_comm

/-- A computation that does not look at the draft. -/
theorem yields_liftM {x : Except Error α} {a : α} :
    Yields (liftM x : Revision α) d a d' ↔ x = .ok a ∧ d' = d := by
  change ((x, d) : Except Error α × Draft) = (.ok a, d') ↔ _
  rw [Prod.mk.injEq]
  exact and_congr_right fun _ => eq_comm

theorem yields_throw {e : Error} {a : α} : ¬ Yields (throw e : Revision α) d a d' := by
  intro h
  cases h

theorem yields_count {f : Report → Report} {u : Unit} :
    Yields (count f) d u d' ↔ d' = { d with report := f d.report } := by
  change ((Except.ok () : Except Error Unit), ({ d with report := f d.report } : Draft)) =
    (.ok u, d') ↔ _
  rw [Prod.mk.injEq]
  exact ⟨fun h => h.2.symm, fun h => ⟨rfl, h.symm⟩⟩

theorem yields_edit {f : Document → α × Document} {a : α} :
    Yields (edit f) d a d' ↔
      a = (f d.document).1 ∧ d' = { d with document := (f d.document).2 } := by
  change ((Except.ok (f d.document).1 : Except Error α),
    ({ d with document := (f d.document).2 } : Draft)) = (.ok a, d') ↔ _
  rw [Prod.mk.injEq, Except.ok.injEq]
  exact and_congr eq_comm eq_comm

/-- An edit is made, or else nothing changes. -/
theorem yields_edit? {f : Document → Option (α × Document)} {o : Option α} :
    Yields (edit? f) d o d' ↔
      (∃ a doc, f d.document = some (a, doc) ∧ o = some a ∧ d' = { d with document := doc }) ∨
        (f d.document = none ∧ o = none ∧ d' = d) := by
  rw [edit?]
  rw [yields_edit]
  cases f d.document with
  | none => simp
  | some p =>
    rcases p with ⟨a, doc⟩
    simp

/-- An edit that is counted if it is made. -/
theorem yields_edit?_count {f : Document → Option (α × Document)} {report : Report → Report} :
    Yields (do
      if (← edit? f).isSome then
        count report) d () d' ↔
      (∃ a doc, f d.document = some (a, doc) ∧ d' = ⟨doc, report d.report⟩) ∨
        (f d.document = none ∧ d' = d) := by
  rw [yields_bind]
  constructor
  · rintro ⟨o, d₁, hedit, hcount⟩
    rcases yields_edit?.1 hedit with ⟨a, doc, hdoc, rfl, rfl⟩ | ⟨hnone, rfl, rfl⟩
    · exact .inl ⟨a, doc, hdoc, yields_count.1 hcount⟩
    · exact .inr ⟨hnone, (yields_pure.1 hcount).2⟩
  · rintro (⟨a, doc, hdoc, rfl⟩ | ⟨hnone, rfl⟩)
    · exact ⟨some a, ⟨doc, d.report⟩, yields_edit?.2 (.inl ⟨a, doc, hdoc, rfl, rfl⟩),
        yields_count.2 rfl⟩
    · exact ⟨none, d', yields_edit?.2 (.inr ⟨hnone, rfl, rfl⟩), yields_pure.2 ⟨rfl, rfl⟩⟩

theorem yields_mapM_cons {β : Type} {f : α → Revision β} {a : α} {as : List α} {bs : List β} :
    Yields ((a :: as).mapM f) d bs d' ↔
      ∃ b d₁ rest, Yields (f a) d b d₁ ∧ Yields (as.mapM f) d₁ rest d' ∧ bs = b :: rest := by
  rw [List.mapM_cons, yields_bind]
  refine exists₂_congr fun b d₁ => ?_
  rw [yields_bind]
  constructor
  · rintro ⟨ha, rest, d₂, hrest, h⟩
    obtain ⟨rfl, rfl⟩ := yields_pure.1 h
    exact ⟨rest, ha, hrest, rfl⟩
  · rintro ⟨rest, ha, hrest, rfl⟩
    exact ⟨ha, rest, d', hrest, yields_pure.2 ⟨rfl, rfl⟩⟩

/-- What holds of the document, and of what the edit makes of it, holds afterwards. -/
theorem document_of_edit? {P : Document → Prop} {f : Document → Option (α × Document)}
    {report : Report → Report} (hP : P d.document)
    (hf : ∀ a doc, f d.document = some (a, doc) → P doc)
    (h : Yields (do
      if (← edit? f).isSome then
        count report) d () d') : P d'.document := by
  rcases yields_edit?_count.1 h with ⟨a, doc, hdoc, rfl⟩ | ⟨-, rfl⟩
  · exact hf a doc hdoc
  · exact hP

/-! ## Failures -/

variable {error : Error}

theorem fails_bind {r : Revision α} {f : α → Revision β} :
    Fails (r >>= f) d error ↔
      Fails r d error ∨ ∃ a d₁, Yields r d a d₁ ∧ Fails (f a) d₁ error := by
  unfold Fails Yields
  rw [run_bind]
  rcases r.run d with ⟨e | a, d₁⟩
  · refine ⟨fun h => .inl (by cases h; rfl), ?_⟩
    rintro (h | ⟨_, _, h, -⟩)
    · cases h
      rfl
    · cases h
  · refine ⟨fun h => .inr ⟨a, d₁, rfl, h⟩, ?_⟩
    rintro (h | ⟨_, _, h, hf⟩)
    · cases h
    · cases h
      exact hf

theorem not_fails_pure {a : α} : ¬ Fails (pure a) d error := by
  intro h
  cases h

theorem not_fails_count {f : Report → Report} : ¬ Fails (count f) d error := by
  intro h
  cases h

theorem not_fails_edit {f : Document → α × Document} : ¬ Fails (edit f) d error := by
  intro h
  cases h

theorem not_fails_edit? {f : Document → Option (α × Document)} : ¬ Fails (edit? f) d error :=
  not_fails_edit

/-- A revision that neither step of can fail. -/
theorem not_fails_bind {r : Revision α} {f : α → Revision β} (hr : ¬ Fails r d error)
    (hf : ∀ a d₁, ¬ Fails (f a) d₁ error) : ¬ Fails (r >>= f) d error := by
  rw [fails_bind]
  rintro (h | ⟨a, d₁, -, h⟩)
  · exact hr h
  · exact hf a d₁ h

/-- Steps that cannot fail, one after the other. -/
theorem not_fails_mapM {f : α → Revision β} (hf : ∀ a d, ¬ Fails (f a) d error) (as : List α)
    (d : Draft) : ¬ Fails (as.mapM f) d error := by
  induction as generalizing d with
  | nil => exact not_fails_pure
  | cons a as ih =>
    rw [List.mapM_cons]
    exact not_fails_bind (hf a d) fun _ d₁ => not_fails_bind (ih d₁) fun _ _ => not_fails_pure

/-! ## What is not counted -/

/-- The revision leaves a part of the report as it is, if it succeeds. -/
def Keeps {γ : Type} (part : Report → γ) (r : Revision α) : Prop :=
  ∀ d a d', Yields r d a d' → part d'.report = part d.report

section Keeps

variable {γ : Type} {part : Report → γ}

theorem keeps_pure (a : α) : Keeps part (pure a) := by
  intro d b d' h
  rw [(yields_pure.1 h).2]

theorem Keeps.bind {r : Revision α} {f : α → Revision β} (hr : Keeps part r)
    (hf : ∀ a, Keeps part (f a)) : Keeps part (r >>= f) := by
  intro d b d' h
  obtain ⟨a, d₁, ha, hb⟩ := yields_bind.1 h
  exact (hf a d₁ b d' hb).trans (hr d a d₁ ha)

theorem keeps_document : Keeps part document := by
  intro d a d' h
  rw [(yields_document.1 h).2]

theorem keeps_liftM {x : Except Error α} : Keeps part (liftM x : Revision α) := by
  intro d a d' h
  rw [(yields_liftM.1 h).2]

theorem keeps_throw {e : Error} : Keeps part (throw e : Revision α) :=
  fun _ _ _ h => absurd h yields_throw

theorem keeps_edit {f : Document → α × Document} : Keeps part (edit f) := by
  intro d a d' h
  rw [(yields_edit.1 h).2]

theorem keeps_edit? {f : Document → Option (α × Document)} : Keeps part (edit? f) :=
  keeps_edit

theorem keeps_count {f : Report → Report} (hf : ∀ r, part (f r) = part r) :
    Keeps part (count f) := by
  intro d a d' h
  rw [yields_count.1 h]
  exact hf d.report

/-- An edit that is counted elsewhere if it is made. -/
theorem keeps_edit?_count {f : Document → Option (α × Document)} {report : Report → Report}
    (hf : ∀ r, part (report r) = part r) :
    Keeps part (do
      if (← edit? f).isSome then
        count report) := by
  refine keeps_edit?.bind fun o => ?_
  split
  · exact keeps_count hf
  · exact keeps_pure ()

theorem Keeps.mapM {f : α → Revision β} (hf : ∀ a, Keeps part (f a)) (as : List α) :
    Keeps part (as.mapM f) := by
  induction as with
  | nil => exact keeps_pure _
  | cons a as ih =>
    rw [List.mapM_cons]
    exact (hf a).bind fun _ => ih.bind fun _ => keeps_pure _

theorem Keeps.forM {f : α → Revision Unit} {as : List α} (hf : ∀ a ∈ as, Keeps part (f a)) :
    Keeps part (as.forM f) := by
  induction as with
  | nil => exact keeps_pure ()
  | cons a as ih =>
    exact (hf a List.mem_cons_self).bind fun _ => ih fun b hb => hf b (List.mem_cons_of_mem _ hb)

end Keeps

/-! ## Sequences of steps -/

variable {step : α → Revision Unit} {as : List α} {u : Unit}

theorem yields_forM_nil : Yields (([] : List α).forM step) d u d' ↔ d' = d := by
  change Yields (pure ()) d u d' ↔ _
  rw [yields_pure]
  exact and_iff_right rfl

theorem yields_forM_cons {a : α} :
    Yields ((a :: as).forM step) d u d' ↔
      ∃ d₁, Yields (step a) d () d₁ ∧ Yields (as.forM step) d₁ u d' := by
  change Yields (step a >>= fun _ => as.forM step) d u d' ↔ _
  rw [yields_bind]
  exact ⟨fun ⟨_, d₁, h⟩ => ⟨d₁, h⟩, fun ⟨d₁, h⟩ => ⟨(), d₁, h⟩⟩

theorem yields_forM_append {bs : List α} :
    Yields ((as ++ bs).forM step) d u d' ↔
      ∃ d₁, Yields (as.forM step) d () d₁ ∧ Yields (bs.forM step) d₁ u d' := by
  rw [List.forM_eq_forM, List.forM_append, yields_bind]
  exact ⟨fun ⟨_, d₁, h⟩ => ⟨d₁, h⟩, fun ⟨d₁, h⟩ => ⟨(), d₁, h⟩⟩

/-- A step is reached at a draft: the steps before it yield the draft. -/
def Reaches (step : α → Revision Unit) (as : List α) (start : Draft) (a : α) (d : Draft) : Prop :=
  ∃ before after, as = before ++ a :: after ∧ Yields (before.forM step) start () d

variable {start : Draft} {P : Draft → Prop}

/-- What every step keeps, the sequence of the first ones keeps. -/
theorem induction_append {before : List α} (after : List α)
    (hstep : ∀ a d d', Reaches step (before ++ after) start a d → P d →
      Yields (step a) d () d' → P d')
    (hstart : P start) (h : Yields (before.forM step) start () d) : P d := by
  induction before using List.reverseRecOn generalizing d after with
  | nil =>
    obtain rfl := yields_forM_nil.1 h
    exact hstart
  | append_singleton before a ih =>
    rw [List.append_assoc] at hstep
    obtain ⟨d₁, hbefore, h⟩ := yields_forM_append.1 h
    obtain ⟨d₂, ha, h⟩ := yields_forM_cons.1 h
    obtain rfl := yields_forM_nil.1 h
    exact hstep a d₁ d ⟨before, after, rfl, hbefore⟩ (ih _ hstep hbefore) ha

/-- What every step keeps, the sequence of all of them keeps. -/
theorem forM_induction
    (hstep : ∀ a d d', Reaches step as start a d → P d → Yields (step a) d () d' → P d')
    (hstart : P start) (h : Yields (as.forM step) start () d) : P d :=
  induction_append [] (by simpa using hstep) hstart h

namespace Reaches

variable {a : α}

theorem mem (h : Reaches step as start a d) : a ∈ as := by
  obtain ⟨before, after, rfl, -⟩ := h
  simp

/-- What every step keeps holds of all drafts that are reached. -/
theorem induction (h : Reaches step as start a d)
    (hstep : ∀ a d d', Reaches step as start a d → P d → Yields (step a) d () d' → P d')
    (hstart : P start) : P d := by
  obtain ⟨before, after, rfl, hbefore⟩ := h
  exact induction_append _ hstep hstart hbefore

end Reaches

/-- What is reached is reached at once, or after the first step. -/
theorem reaches_cons_iff {a b : α} {d₁ : Draft} (ha : Yields (step a) start () d₁) :
    Reaches step (a :: as) start b d ↔ (b = a ∧ d = start) ∨ Reaches step as d₁ b d := by
  constructor
  · rintro ⟨_ | ⟨a', before⟩, after, heq, hbefore⟩
    · cases heq
      exact .inl ⟨rfl, yields_forM_nil.1 hbefore⟩
    · cases heq
      obtain ⟨d₂, ha', hbefore⟩ := yields_forM_cons.1 hbefore
      obtain rfl : d₂ = d₁ := congrArg Prod.snd (ha'.symm.trans ha)
      exact .inr ⟨before, after, rfl, hbefore⟩
  · rintro (⟨rfl, rfl⟩ | ⟨before, after, rfl, hbefore⟩)
    · exact ⟨[], as, rfl, yields_forM_nil.2 rfl⟩
    · exact ⟨a :: before, after, rfl, yields_forM_cons.2 ⟨d₁, ha, hbefore⟩⟩

/-- What is reached is reached before or after some steps. -/
theorem reaches_append_iff {bs : List α} {b : α} {d₁ : Draft}
    (h : Yields (as.forM step) start () d₁) :
    Reaches step (as ++ bs) start b d ↔ Reaches step as start b d ∨ Reaches step bs d₁ b d := by
  induction as generalizing start with
  | nil =>
    obtain rfl := yields_forM_nil.1 h
    refine ⟨.inr, fun h => h.resolve_left ?_⟩
    exact fun hnil => absurd hnil.mem List.not_mem_nil
  | cons a as ih =>
    obtain ⟨d₂, ha, h⟩ := yields_forM_cons.1 h
    rw [List.cons_append, reaches_cons_iff ha, reaches_cons_iff ha, ih h, or_assoc]

/-- Steps that do the same where they are reached do the same one after the other. -/
theorem run_forM_congr {step' : α → Revision Unit}
    (h : ∀ a d, Reaches step as start a d → (step' a).run d = (step a).run d) :
    (as.forM step').run start = (as.forM step).run start := by
  induction as generalizing start with
  | nil => rfl
  | cons a as ih =>
    have ha := h a start ⟨[], as, rfl, yields_forM_nil.2 rfl⟩
    refine run_bind_congr ha fun u d₁ hd => ih fun b d hb =>
      h b d ((reaches_cons_iff ?_).2 (.inr hb))
    rw [Yields, ← ha]
    exact hd

/-- In a sequence that succeeds, every step is reached and succeeds. -/
theorem exists_reaches {a : α} (h : Yields (as.forM step) d u d') (ha : a ∈ as) :
    ∃ before after d₁ d₂, as = before ++ a :: after ∧ Yields (before.forM step) d () d₁ ∧
      Yields (step a) d₁ () d₂ ∧ Yields (after.forM step) d₂ () d' := by
  obtain ⟨before, after, rfl⟩ := List.append_of_mem ha
  obtain ⟨d₁, hbefore, h⟩ := yields_forM_append.1 h
  obtain ⟨d₂, hstep, hafter⟩ := yields_forM_cons.1 h
  exact ⟨before, after, d₁, d₂, rfl, hbefore, hstep, hafter⟩

end Revision

end DocTemplate
