import DocTemplate.Proofs.Expr.Failure
import DocTemplate.Proofs.Placeholder.Interchange

/-!
# Why paragraphs cannot be filled

The placeholders of a paragraph are taken from the left to the right, and whether one of them
fails does not depend on what became of the others. So the first one that fails is the one
that the error is about (`Filler.failsAs_fillParagraph`).

The built-in renderers take every value but tabular data. What else can go wrong with them is
a pattern that cannot write a date, and that error can be recovered from. So if expressions
fail only with such errors, and the settings make up for these, a placeholder fails if and
only if it is for tabular data (`Filler.fault?_eq`).
-/

namespace DocTemplate

namespace Renderer

variable {settings : Settings} {raw : String} {v : Value}

/-- Nothing renders tabular data. -/
theorem renderBy_builtin_table (h : v.kind = .table) :
    renderBy builtin settings raw v = .error (.noRenderer raw .table) := by
  cases v <;> cases h
  rfl

/-- The rendering of any other value fails only with errors that can be recovered from. -/
theorem recoverable_renderBy_builtin (h : v.kind ≠ .table) :
    Recoverable (renderBy builtin settings raw v) := by
  rcases cases_renderBy_builtin settings raw v with ⟨s, hs⟩ | ⟨s, hs⟩ | ⟨-, hs⟩ | ⟨hkind, -⟩
  · rw [hs]
    exact Except.failsOnly_ok _
  · rw [hs]
    exact Except.failsOnly_ok _
  · rw [hs]
    exact Except.failsOnly_error rfl
  · exact absurd hkind h

end Renderer

namespace Filler

variable (f : Filler) (scope : Value)

/-- The error of a placeholder in a text, if nothing takes the place of it. -/
def fault? (text : String) (p : Placeholder) : Option Error :=
  match f.replacement scope text p with
  | .ok _ => none
  | .error error => some error

variable {f scope}

theorem failsAs_step (text : String) (state : Progress) (p : Placeholder) :
    (f.step scope text state p).FailsAs (f.fault? scope text p) := by
  have hreplacement : (f.replacement scope text p).FailsAs (f.fault? scope text p) := by
    rw [fault?]
    split
    · next h =>
      rw [h]
      exact Except.failsAs_ok _
    · next h =>
      rw [h]
      exact Except.failsAs_error _
  exact hreplacement.bind_none fun _ _ => Except.failsAs_ok _

/-- A paragraph fails over the first of its placeholders that fails. -/
theorem failsAs_fillParagraph (p : Paragraph) :
    (f.fillParagraph scope p).FailsAs
      ((f.delimiters.scan p.text).findSome? (f.fault? scope p.text)) :=
  (Except.FailsAs.foldlM (failsAs_step p.text) _ _).bind_none fun _ _ => Except.failsAs_ok _

theorem exists_recovery? (h : f.settings.recoversUnresolved) :
    ∃ recovered, f.recovery? = some recovered := by
  refine Option.ne_none_iff_exists'.1 fun hnone => ?_
  rw [recovery?_eq_none_iff.1 hnone] at h
  cases h

/-- If the settings make up for what can be recovered from, a placeholder fails only over
    tabular data. -/
theorem fault?_eq (hrenderers : f.renderers = Renderer.builtin)
    (hrecovers : f.settings.recoversUnresolved) {p : Placeholder}
    (hevaluate : Recoverable (f.evaluate scope p.inner)) (text : String) :
    f.fault? scope text p =
      if (f.evaluate scope p.inner).toOption.any fun v => v.kind = .table then
        some (.unresolved p.raw text (.noRenderer p.raw .table))
      else none := by
  obtain ⟨recovered, hrecovered⟩ := exists_recovery? hrecovers
  have hok : Recoverable (f.renderingOf scope p) → f.fault? scope text p = none := by
    intro h
    rw [fault?, replacement]
    cases hr : f.renderingOf scope p with
    | ok rendering => rfl
    | error error => simp only [h error hr, if_pos, hrecovered]
  cases hv : f.evaluate scope p.inner with
  | error error =>
    refine hok ?_
    rw [renderingOf, hv]
    exact Except.failsOnly_error (hevaluate error hv)
  | ok v =>
    have hrendering : f.renderingOf scope p = Renderer.renderBy Renderer.builtin f.settings p.raw v := by
      rw [renderingOf, hv, ← hrenderers]
      rfl
    by_cases hkind : v.kind = .table
    · rw [Renderer.renderBy_builtin_table hkind] at hrendering
      rw [if_pos (by simp [Except.toOption, hkind]), fault?, replacement, hrendering]
      rfl
    · rw [if_neg (by simp [Except.toOption, hkind])]
      refine hok ?_
      rw [hrendering]
      exact Renderer.recoverable_renderBy_builtin hkind

end Filler

end DocTemplate
