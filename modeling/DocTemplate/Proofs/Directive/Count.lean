import DocTemplate.Proofs.Directive.Move

/-!
# What edits count

Every pass counts what it does in parts of the report of its own, and leaves the others as they
are, whatever its edits are and whether they can be made.

* `Pass.CountsElsewhere`: the parts of the report that a pass leaves as they are;
* `Move.keeps`: what is counted by a move;
* `Revision.exists_counted`: the number counted is that of the steps that count.
-/

namespace DocTemplate

variable {γ : Type} {part : Report → γ} {f : Filler}

/-- What a pass counts is not seen in a part of the report. -/
def Pass.CountsElsewhere (part : Report → γ) : Pass → Prop
  | paragraphs => ∀ r n, part { r with paragraphsRemoved := n } = part r
  | rows => ∀ r n, part { r with rowsRemoved := n } = part r
  | tables => ∀ r n, part { r with tablesRemoved := n } = part r
  | repetitions => (∀ r resolved recovered, part (r.addExpressions resolved recovered) = part r) ∧
      ∀ r n, part { r with blocksRepeated := n } = part r
  | words => ∀ r n, part { r with wordsReplaced := n } = part r
  | fills => (∀ r n, part { r with tablesRemoved := n } = part r) ∧
      ∀ r n, part { r with tablesFilled := n } = part r

open Revision

theorem Repetition.keeps_copies
    (hpart : ∀ r resolved recovered, part (r.addExpressions resolved recovered) = part r)
    (template : List Block) (layout : Option SectionLayout) (items : List Value) :
    (copies f template layout items).Keeps part := by
  have hcopy : ∀ item, (copy f template item).Keeps part := fun item =>
    keeps_edit.bind fun _ => keeps_liftM.bind fun (blocks, tally) =>
      (keeps_count (f := fun r => r.addExpressions tally.resolved tally.recovered)
        fun r => hpart r _ _).bind fun _ => keeps_pure blocks
  fun_induction copies f template layout items with
  | case1 => exact keeps_pure _
  | case2 item => exact hcopy item
  | case3 item items hitems ih => exact (hcopy item).bind fun _ => ih.bind fun _ => keeps_pure _

theorem TableFill.keeps_target (i : Instruction) : (target i).Keeps part := by
  refine keeps_document.bind fun doc => ?_
  cases target? doc i.site with
  | some table => exact keeps_pure _
  | none =>
    dsimp only
    split
    · exact keeps_pure _
    · exact keeps_throw

theorem TableFill.keeps_fill (hpart : ∀ r n, part { r with tablesFilled := n } = part r)
    (settings : Settings) (data : Grid) (table : NodeId) (layout : TableLayout) :
    (fill settings data table layout).Keeps part := by
  rw [fill]
  dsimp only
  split
  · exact keeps_throw.bind fun _ =>
      (Keeps.mapM (fun _ => keeps_edit) _).bind fun _ => keeps_edit?_count fun r => hpart r _
  · exact (Keeps.mapM (fun _ => keeps_edit) _).bind fun _ => keeps_edit?_count fun r => hpart r _

/-- A move leaves the parts of the report as they are in which its pass does not count. -/
theorem Pass.keeps_perform {pass : Pass} (hpart : pass.CountsElsewhere part) (edit : Edit) :
    (pass.perform f edit).Keeps part := by
  cases pass with
  | repetitions =>
    cases edit with
    | repeatBlocks i items =>
      refine keeps_document.bind fun doc =>
        (Repetition.keeps_copies hpart.1 _ _ items).bind fun generated => ?_
      split
      · exact keeps_pure ()
      · refine keeps_edit?.bind fun replaced => ?_
        cases replaced with
        | none => exact keeps_throw
        | some _ => exact keeps_count fun r => hpart.2 r _
    | _ => exact keeps_pure ()
  | fills =>
    cases edit with
    | dropTable i =>
      refine (TableFill.keeps_target i).bind fun target => ?_
      cases target with
      | none => exact keeps_pure ()
      | some table => exact keeps_edit?_count fun r => hpart.1 r _
    | fillTable i data =>
      refine (TableFill.keeps_target i).bind fun target => ?_
      cases target with
      | none => exact keeps_pure ()
      | some table =>
        refine keeps_document.bind fun doc => ?_
        dsimp only
        cases (doc.table? table).bind fun t => TableLayout.ofRows? t.rows with
        | none => exact keeps_pure ()
        | some layout => exact TableFill.keeps_fill hpart.2 _ _ _ _
    | _ => exact keeps_pure ()
  | _ => cases edit <;> first | exact keeps_edit?_count fun r => hpart r _ | exact keeps_pure ()

theorem Move.keeps {m : Move} (hpart : m.pass.CountsElsewhere part) :
    (m.perform f).Keeps part :=
  Pass.keeps_perform hpart m.edit

/-! ## Steps that count -/

namespace Revision

variable {α : Type} {step : α → Revision Unit} {as : List α} {start d d' : Draft} {k : Nat} {a b : α}

/-- The step `a` of a sequence is the one at the place `k`, and goes from the draft `d` to `d'`. -/
structure StepsAt (step : α → Revision Unit) (as : List α) (start : Draft) (k : Nat) (a : α)
    (d d' : Draft) : Prop where
  get : as[k]? = some a
  before : Yields ((as.take k).forM step) start () d
  yields : Yields (step a) d () d'

namespace StepsAt

theorem eq_append (h : StepsAt step as start k a d d') : as = as.take k ++ a :: as.drop (k + 1) := by
  obtain ⟨hk, rfl⟩ := List.getElem?_eq_some_iff.1 h.get
  rw [← List.drop_eq_getElem_cons hk, List.take_append_drop]

theorem reaches (h : StepsAt step as start k a d d') : Reaches step as start a d :=
  ⟨as.take k, as.drop (k + 1), h.eq_append, h.before⟩

/-- A sequence comes to each place in one way. -/
theorem unique {e e' : Draft} (h : StepsAt step as start k a d d')
    (h' : StepsAt step as start k b e e') : b = a ∧ e = d ∧ e' = d' := by
  obtain rfl := Option.some.inj (h'.get.symm.trans h.get)
  obtain rfl : e = d := congrArg Prod.snd (h'.before.symm.trans h.before)
  exact ⟨rfl, rfl, congrArg Prod.snd (h'.yields.symm.trans h.yields)⟩

end StepsAt

theorem stepsAt_zero_iff :
    StepsAt step (a :: as) start 0 b d d' ↔ b = a ∧ d = start ∧ Yields (step a) start () d' := by
  constructor
  · rintro ⟨hget, hbefore, hyields⟩
    obtain rfl := Option.some.inj hget
    obtain rfl := yields_forM_nil.1 hbefore
    exact ⟨rfl, rfl, hyields⟩
  · rintro ⟨rfl, rfl, hyields⟩
    exact ⟨rfl, yields_forM_nil.2 rfl, hyields⟩

theorem stepsAt_succ_iff {d₁ : Draft} (ha : Yields (step a) start () d₁) :
    StepsAt step (a :: as) start (k + 1) b d d' ↔ StepsAt step as d₁ k b d d' := by
  constructor
  · rintro ⟨hget, hbefore, hyields⟩
    obtain ⟨d₂, ha', hbefore⟩ := yields_forM_cons.1 hbefore
    obtain rfl : d₂ = d₁ := congrArg Prod.snd (ha'.symm.trans ha)
    exact ⟨hget, hbefore, hyields⟩
  · rintro ⟨hget, hbefore, hyields⟩
    exact ⟨hget, yields_forM_cons.2 ⟨d₁, ha, hbefore⟩, hyields⟩

/-- If some steps count one and the others nothing, a sequence counts the places of those that
    do. -/
theorem exists_counted {part : Report → UInt32} {Counts : α → Draft → Draft → Prop}
    (hstep : ∀ a d d', Yields (step a) d () d' →
      (Counts a d d' ∧ part d'.report = part d.report + 1) ∨
        (¬ Counts a d d' ∧ part d'.report = part d.report))
    (h : Yields (as.forM step) start () d) :
    ∃ places : List Nat, places.Nodup ∧
      (∀ k, k ∈ places ↔ ∃ a d d', StepsAt step as start k a d d' ∧ Counts a d d') ∧
        part d.report = part start.report + UInt32.ofNat places.length := by
  induction as generalizing start with
  | nil =>
    obtain rfl := yields_forM_nil.1 h
    refine ⟨[], List.nodup_nil, fun k => iff_of_false List.not_mem_nil ?_, by simp⟩
    rintro ⟨a, d, d', hk, -⟩
    cases hk.get
  | cons a as ih =>
    obtain ⟨d₁, ha, h⟩ := yields_forM_cons.1 h
    obtain ⟨places, hnodup, hplaces, hcount⟩ := ih h
    have hsucc : ∀ k, (∃ b d d', StepsAt step (a :: as) start (k + 1) b d d' ∧ Counts b d d') ↔
        k ∈ places := fun k => by
      simp only [hplaces, stepsAt_succ_iff ha]
    have hzero : (∃ b d d', StepsAt step (a :: as) start 0 b d d' ∧ Counts b d d') ↔
        Counts a start d₁ := by
      simp only [stepsAt_zero_iff]
      constructor
      · rintro ⟨_, _, d', ⟨rfl, rfl, ha'⟩, hcounts⟩
        obtain rfl : d' = d₁ := congrArg Prod.snd (ha'.symm.trans ha)
        exact hcounts
      · exact fun hcounts => ⟨a, start, d₁, ⟨rfl, rfl, ha⟩, hcounts⟩
    have hmap : (places.map (· + 1)).Nodup := hnodup.map fun _ _ => Nat.succ.inj
    rcases hstep a start d₁ ha with ⟨hcounts, hone⟩ | ⟨hcounts, hnone⟩
    · refine ⟨0 :: places.map (· + 1), List.nodup_cons.2 ⟨by simp, hmap⟩, fun k => ?_, ?_⟩
      · cases k with
        | zero => exact iff_of_true List.mem_cons_self (hzero.2 hcounts)
        | succ k => simp [hsucc]
      · rw [hcount, hone, List.length_cons, List.length_map, UInt32.ofNat_add, UInt32.add_assoc,
          UInt32.add_comm 1]
        rfl
    · refine ⟨places.map (· + 1), hmap, fun k => ?_, by rw [hcount, hnone, List.length_map]⟩
      cases k with
      | zero => exact iff_of_false (by simp) (mt hzero.1 hcounts)
      | succ k => simp [hsucc]

end Revision

end DocTemplate
