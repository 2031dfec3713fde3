import DocTemplate.Expr.Eval
import DocTemplate.Proofs.Except

/-!
# Why expressions fail

An operator, an index, a property or a condition fails with a cause, and the error that
names the expression can be recovered from. So can the error about a text that is no
expression. Accessors do not fail. That leaves functions, which fail as they like, and
refuse arguments of wrong kinds: without functions, an expression fails only in ways that
the settings can make up for.

* `Expr.recoverable_eval`: the value of an expression;
* `Environment.recoverable_evaluate`: the value of a text.
-/

namespace DocTemplate

/-- A computation that fails only with errors that can be recovered from. -/
abbrev Recoverable {α : Type} (outcome : Except Error α) : Prop :=
  outcome.FailsOnly fun error => error.isRecoverable

variable {env : Environment} {scope : Value}

namespace Expr

theorem recoverable_naming (e : Expr) (outcome : Except EvalCause Value) :
    Recoverable (e.naming outcome) := by
  cases outcome with
  | ok v => exact Except.failsOnly_ok v
  | error cause => exact Except.failsOnly_error rfl

theorem recoverable_propertyOf (e : Expr) (target : Value) (name : String) :
    Recoverable (propertyOf env e target name) := by
  rw [propertyOf]
  split
  · exact Except.failsOnly_ok _
  · exact recoverable_naming e _

theorem recoverable_condition (e : Expr) (v : Value) : Recoverable (e.condition v) := by
  cases v with
  | bool b => exact Except.failsOnly_ok b
  | _ => exact Except.failsOnly_error rfl

/-- Without functions, every error of an expression can be recovered from. -/
theorem recoverable_eval (henv : env.functions = []) :
    (e : Expr) → Recoverable (e.eval env scope)
  | literal v => Except.failsOnly_ok v
  | .scope => Except.failsOnly_ok scope
  | ident name => by
    rw [eval]
    exact recoverable_propertyOf _ _ _
  | member target name nullSafe => by
    rw [eval]
    refine (recoverable_eval henv target).bind fun owner => ?_
    split
    · split
      · exact Except.failsOnly_ok _
      · exact recoverable_naming _ _
    · exact recoverable_propertyOf _ _ _
  | index target key => by
    rw [eval]
    exact (recoverable_eval henv target).bind fun owner =>
      (recoverable_eval henv key).bind fun k => recoverable_naming _ _
  | call name args => by
    -- The arguments of an unknown function are not evaluated.
    have hfunction : env.function? name = none := by rw [Environment.function?, henv]; rfl
    rw [eval, hfunction]
    exact recoverable_naming _ _
  | unary op operand => by
    rw [eval]
    exact (recoverable_eval henv operand).bind fun v => recoverable_naming _ _
  | binary op left right => by
    have hleft : Recoverable (left.eval env scope) := recoverable_eval henv left
    have hright : Recoverable (right.eval env scope) := recoverable_eval henv right
    have htruth : Recoverable (do return Value.bool (← right.condition (← right.eval env scope))) :=
      hright.bind fun v => (recoverable_condition right v).bind fun b => Except.failsOnly_ok _
    cases op with
    | and =>
      simp only [eval]
      refine hleft.bind fun v => (recoverable_condition left v).bind fun b => ?_
      cases b with
      | false => exact Except.failsOnly_ok _
      | true => exact htruth
    | or =>
      simp only [eval]
      refine hleft.bind fun v => (recoverable_condition left v).bind fun b => ?_
      cases b with
      | false => exact htruth
      | true => exact Except.failsOnly_ok _
    | _ =>
      simp only [eval]
      exact hleft.bind fun a => hright.bind fun b => recoverable_naming _ _
  | conditional c ifTrue ifFalse => by
    rw [eval]
    refine (recoverable_eval henv c).bind fun v => (recoverable_condition c v).bind fun b => ?_
    cases b with
    | false => exact recoverable_eval henv ifFalse
    | true => exact recoverable_eval henv ifTrue

end Expr

/-- Without functions, every error of a text can be recovered from: also the one that it is
    no expression. -/
theorem Environment.recoverable_evaluate (henv : env.functions = []) (text : String) :
    Recoverable (env.evaluate scope text) := by
  rw [evaluate, Expr.parse]
  cases Expr.parse? text with
  | none => exact Except.failsOnly_error rfl
  | some e =>
    simp only [Option.elim_some, bind, Except.bind]
    split
    · exact Except.failsOnly_error rfl
    · exact Expr.recoverable_eval henv e

end DocTemplate
