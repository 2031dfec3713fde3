import DocTemplate.Engine.Plan
import DocTemplate.Proofs.Except

/-!
# Plans

A plan accounts for every comment that is not a reply: it has an entry, or it is
skipped, or it starts in a deferred paragraph, which is one in the region of an entry
that repeats its blocks (`Plan.Accounts`).

* `Plan.step_cases`: what one more comment does to a plan;
* `Plan.Accounts.step`: one more comment is accounted for;
* `Plan.accounts_ofDocument`: the plan of a document accounts for all of its comments;
* `Plan.sublist_entries`, `Plan.pairwise_entries`: the order of the entries.
-/

namespace DocTemplate

namespace Plan

variable {registry : Registry} {settings : Settings} {doc : Document}

/-- Whether the placeholders in the region of an entry are left to an edit. -/
def defers (registry : Registry) (entry : Region × List Call) : Bool :=
  entry.2.any fun call => registry.defers call.name.toString

theorem deferred_add (plan : Plan) (registry : Registry) (doc : Document) (r : Region)
    (calls : List Call) : (plan.add registry doc r (some calls)).deferred =
      if defers registry (r, calls) then plan.deferred ++ r.paragraphIds doc
      else plan.deferred := rfl

/-- The plan accounts for some of the regions of a document. -/
structure Accounts (registry : Registry) (settings : Settings) (doc : Document)
    (regions : List Region) (plan : Plan) : Prop where
  entries : ∀ entry ∈ plan.entries, entry.1 ∈ regions ∧ entry.1.parent = none ∧
    registry.interpret settings entry.1.text = .ok (some entry.2)
  deferred : ∀ id, id ∈ plan.deferred ↔
    ∃ entry ∈ plan.entries, defers registry entry ∧ id ∈ entry.1.paragraphIds doc
  regions : ∀ r ∈ regions, r.parent = none →
    (∃ calls, (r, calls) ∈ plan.entries) ∨ r.id ∈ plan.skipped ∨ r.start ∈ plan.deferred

variable {regions : List Region} {plan plan' : Plan} {r : Region}

theorem interprets_iff : plan.interprets r ↔ r.parent = none ∧ r.start ∉ plan.deferred := by
  simp [interprets]

/-- What one more comment does: nothing if it is not interpreted, and else it is added with its
    calls, if it has any. -/
theorem step_cases (h : plan.step registry settings doc r = .ok plan') :
    (¬ plan.interprets r ∧ plan' = plan) ∨
      (plan.interprets r ∧ ∃ calls, registry.interpret settings r.text = .ok calls ∧
        plan' = plan.add registry doc r calls) := by
  rw [step] at h
  split at h
  · next hr =>
    obtain ⟨calls, hcalls, rfl⟩ := Except.map_eq_ok.1 h
    exact .inr ⟨hr, calls, hcalls, rfl⟩
  · next hr =>
    cases h
    exact .inl ⟨hr, rfl⟩

theorem deferred_subset_add (plan : Plan) (registry : Registry) (doc : Document) (r : Region)
    (calls : Option (List Call)) : plan.deferred ⊆ (plan.add registry doc r calls).deferred := by
  cases calls with
  | none => exact List.Subset.refl _
  | some calls =>
    rw [deferred_add]
    split
    · exact List.subset_append_left _ _
    · exact List.Subset.refl _

theorem accounts_nil : Accounts registry settings doc [] {} where
  entries := by simp
  deferred := by simp
  regions := by simp

/-- A region that is not interpreted is a reply, or starts in a deferred paragraph. -/
theorem Accounts.of_not_interprets (h : plan.Accounts registry settings doc regions)
    (hr : ¬ plan.interprets r) : plan.Accounts registry settings doc (regions ++ [r]) where
  entries entry hentry := by
    obtain ⟨hmem, hrest⟩ := h.entries entry hentry
    exact ⟨List.mem_append_left _ hmem, hrest⟩
  deferred := h.deferred
  regions r' hr' hparent := by
    rcases List.mem_append.1 hr' with hr' | hr'
    · exact h.regions r' hr' hparent
    · obtain rfl := List.mem_singleton.1 hr'
      exact .inr (.inr (by simpa [interprets, hparent] using hr))

/-- A region that is interpreted has an entry, or is skipped. -/
theorem Accounts.add (h : plan.Accounts registry settings doc regions)
    (hparent : r.parent = none) {calls : Option (List Call)}
    (hcalls : registry.interpret settings r.text = .ok calls) :
    (plan.add registry doc r calls).Accounts registry settings doc (regions ++ [r]) := by
  cases calls with
  | none =>
    refine ⟨fun entry hentry => ?_, h.deferred, fun r' hr' hparent' => ?_⟩
    · obtain ⟨hmem, hrest⟩ := h.entries entry hentry
      exact ⟨List.mem_append_left _ hmem, hrest⟩
    · rcases List.mem_append.1 hr' with hr' | hr'
      · rcases h.regions r' hr' hparent' with hentry | hskipped | hdeferred
        · exact .inl hentry
        · exact .inr (.inl (List.mem_insert_of_mem hskipped))
        · exact .inr (.inr hdeferred)
      · obtain rfl := List.mem_singleton.1 hr'
        exact .inr (.inl List.mem_insert_self)
  | some calls =>
    refine ⟨fun entry hentry => ?_, fun id => ?_, fun r' hr' hparent' => ?_⟩
    · rcases List.mem_append.1 hentry with hentry | hentry
      · obtain ⟨hmem, hrest⟩ := h.entries entry hentry
        exact ⟨List.mem_append_left _ hmem, hrest⟩
      · obtain rfl := List.mem_singleton.1 hentry
        exact ⟨by simp, hparent, hcalls⟩
    · rw [deferred_add]
      simp only [Plan.add, List.mem_append, List.mem_singleton, or_and_right, exists_or, exists_eq_left]
      rw [← h.deferred id]
      split <;> simp_all
    · rcases List.mem_append.1 hr' with hr' | hr'
      · rcases h.regions r' hr' hparent' with ⟨calls', hentry⟩ | hskipped | hstart
        · exact .inl ⟨calls', List.mem_append_left _ hentry⟩
        · exact .inr (.inl hskipped)
        · exact .inr (.inr (deferred_subset_add plan registry doc r (some calls) hstart))
      · obtain rfl := List.mem_singleton.1 hr'
        exact .inl ⟨calls, by simp [Plan.add]⟩

/-- One more region is accounted for. -/
theorem Accounts.step (h : plan.Accounts registry settings doc regions)
    (hstep : plan.step registry settings doc r = .ok plan') :
    plan'.Accounts registry settings doc (regions ++ [r]) := by
  rcases step_cases hstep with ⟨hr, rfl⟩ | ⟨hr, calls, hcalls, rfl⟩
  · exact h.of_not_interprets hr
  · exact h.add (interprets_iff.1 hr).1 hcalls

theorem Accounts.foldlM {more : List Region} (h : plan.Accounts registry settings doc regions)
    (hsteps : more.foldlM (Plan.step registry settings doc) plan = .ok plan') :
    plan'.Accounts registry settings doc (regions ++ more) := by
  induction more generalizing plan regions with
  | nil =>
    cases hsteps
    simpa using h
  | cons r more ih =>
    rw [List.foldlM_cons] at hsteps
    obtain ⟨next, hstep, hsteps⟩ := Except.bind_eq_ok.1 hsteps
    rw [List.append_cons]
    exact ih (h.step hstep) hsteps

/-- The plan of a document accounts for all of its comments. -/
theorem accounts_ofDocument (h : ofDocument registry settings doc = .ok plan) :
    plan.Accounts registry settings doc doc.regions := by
  simpa using accounts_nil.foldlM h

/-- The entries of a plan are in the order of the regions. -/
theorem sublist_entries (h : ofDocument registry settings doc = .ok plan) :
    (plan.entries.map Prod.fst).Sublist doc.regions := by
  have hsteps : ∀ (rs : List Region) (plan plan' : Plan),
      rs.foldlM (step registry settings doc) plan = .ok plan' →
        ∃ more, plan'.entries = plan.entries ++ more ∧ (more.map Prod.fst).Sublist rs := by
    intro rs
    induction rs with
    | nil =>
      rintro plan _ ⟨⟩
      exact ⟨[], by simp, by simp⟩
    | cons r rs ih =>
      intro plan plan' h
      rw [List.foldlM_cons] at h
      obtain ⟨next, hnext, h⟩ := Except.bind_eq_ok.1 h
      obtain ⟨more, hmore, hsub⟩ := ih next plan' h
      rcases step_cases hnext with ⟨-, rfl⟩ | ⟨-, calls, -, rfl⟩
      · exact ⟨more, hmore, hsub.cons r⟩
      · cases calls with
        | none => exact ⟨more, hmore, hsub.cons r⟩
        | some calls => exact ⟨(r, calls) :: more, by simp [hmore, add], hsub.cons_cons r⟩
  obtain ⟨more, hmore, hsub⟩ := hsteps _ _ _ h
  simpa [hmore] using hsub

/-- No entry starts in the region of an earlier one that leaves placeholders to an edit. -/
theorem pairwise_entries (h : ofDocument registry settings doc = .ok plan) :
    plan.entries.Pairwise fun entry entry' => defers registry entry →
      entry'.1.start ∉ entry.1.paragraphIds doc := by
  refine (Except.foldlM_induction (P := fun plan : Plan =>
    (∃ regions, plan.Accounts registry settings doc regions) ∧
      plan.entries.Pairwise fun entry entry' => defers registry entry →
        entry'.1.start ∉ entry.1.paragraphIds doc)
    (fun plan r next hplan hstep => ?_) ⟨⟨[], accounts_nil⟩, .nil⟩ h).2
  obtain ⟨⟨regions, haccounts⟩, hpairwise⟩ := hplan
  refine ⟨⟨regions ++ [r], haccounts.step hstep⟩, ?_⟩
  rcases step_cases hstep with ⟨-, rfl⟩ | ⟨hr, calls, -, rfl⟩
  · exact hpairwise
  · cases calls with
    | none => exact hpairwise
    | some calls =>
      -- What is in the region of such an entry is deferred, and the new entry does not start there.
      refine List.pairwise_append.2
        ⟨hpairwise, by simp, fun entry hentry entry' hentry' hdefers hmem => ?_⟩
      obtain rfl := List.mem_singleton.1 hentry'
      exact (interprets_iff.1 hr).2 ((haccounts.deferred _).2 ⟨entry, hentry, hdefers, hmem⟩)

end Plan

end DocTemplate
