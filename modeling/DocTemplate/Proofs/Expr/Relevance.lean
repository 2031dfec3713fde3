import DocTemplate.Expr.Eval

/-!
# What expressions depend on

An expression takes from the scope what it names there: properties, or the scope as a whole.
Everything else that goes into its value is in the expression or in the environment, or comes
from values it already has. So two scopes give an expression the same value, or the same
error, if both are maps and have the same values for the properties that it names
(`Expr.SameIn`); unless there are accessors, which see the scope that they are asked about.

* `Expr.eval_congr`: the value of an expression, and `Expr.evalAll_congr`, those of some
  arguments;
* `Environment.evaluate_congr`: the value of a text.
-/

namespace DocTemplate

namespace Expr

/-! ## What an expression names -/

mutual

/-- The parts of an expression that have no parts themselves, from the left to the right. -/
def leaves : Expr → List Expr
  | literal v => [literal v]
  | scope => [scope]
  | ident name => [ident name]
  | member target _ _ => leaves target
  | index target key => leaves target ++ leaves key
  | call _ args => argLeaves args
  | unary _ operand => leaves operand
  | binary _ left right => leaves left ++ leaves right
  | conditional c ifTrue ifFalse => leaves c ++ leaves ifTrue ++ leaves ifFalse

/-- The parts of some arguments that have no parts themselves. -/
def argLeaves : List Expr → List Expr
  | [] => []
  | x :: xs => leaves x ++ argLeaves xs

end

/-- The property of the scope, of an expression that is one. -/
def ident? : Expr → Option String
  | ident name => some name
  | _ => none

/-- Whether the expression is the scope. -/
def isScope : Expr → Bool
  | scope => true
  | _ => false

/-- The properties of the scope that occur in the expression. Properties of other values and
    functions are not among them. -/
def names (x : Expr) : List String :=
  x.leaves.filterMap ident?

/-- Whether the scope as a whole occurs in the expression. -/
def readsScope (x : Expr) : Bool :=
  x.leaves.any isScope

/-- Two maps have the same values for the properties that occur in some leaves, or the same
    properties are missing; and the scope as a whole does not occur there. -/
structure SameIn (entries entries' : List (String × Value)) (leaves : List Expr) : Prop where
  scope : ∀ x ∈ leaves, x.isScope = false
  names : ∀ name ∈ leaves.filterMap ident?, entries'.lookup name = entries.lookup name

variable {entries entries' : List (String × Value)}

namespace SameIn

variable {xs ys : List Expr}

theorem mono (h : SameIn entries entries' ys) (hsub : xs ⊆ ys) : SameIn entries entries' xs where
  scope x hx := h.scope x (hsub hx)
  names name hname := h.names name (List.filterMap_subset _ hsub hname)

theorem left (h : SameIn entries entries' (xs ++ ys)) : SameIn entries entries' xs :=
  h.mono (List.subset_append_left _ _)

theorem right (h : SameIn entries entries' (xs ++ ys)) : SameIn entries entries' ys :=
  h.mono (List.subset_append_right _ _)

end SameIn

/-! ## Values -/

variable {env : Environment}

/-- A property of the scope, if no accessors are asked for it. -/
theorem propertyOf_congr (henv : env.accessors = []) {name : String}
    (h : entries'.lookup name = entries.lookup name) (x : Expr) :
    propertyOf env x (.map entries') name = propertyOf env x (.map entries) name := by
  have haccess : ∀ v, env.access? v name = none := by simp [Environment.access?, henv]
  simp only [propertyOf, haccess, Value.property, h]

mutual

/-- The value of an expression in two scopes that are the same to it. -/
theorem eval_congr (henv : env.accessors = []) :
    (x : Expr) → SameIn entries entries' x.leaves →
      x.eval env (.map entries') = x.eval env (.map entries)
  | literal _, _ => rfl
  | scope, h => by
    have hscope := h.scope scope (by simp [leaves])
    cases hscope
  | ident name, h => by
    simp only [eval]
    exact propertyOf_congr henv (h.names name (by simp [leaves, ident?])) _
  | member target name nullSafe, h => by
    rw [leaves] at h
    simp only [eval, eval_congr henv target h]
  | index target key, h => by
    rw [leaves] at h
    simp only [eval, eval_congr henv target h.left, eval_congr henv key h.right]
  | call name args, h => by
    rw [leaves] at h
    simp only [eval, evalAll_congr henv args h]
  | unary op operand, h => by
    rw [leaves] at h
    simp only [eval, eval_congr henv operand h]
  | binary op left right, h => by
    rw [leaves] at h
    have hleft := eval_congr henv left h.left
    have hright := eval_congr henv right h.right
    cases op <;> simp only [eval, hleft, hright]
  | conditional c ifTrue ifFalse, h => by
    rw [leaves] at h
    simp only [eval, eval_congr henv c h.left.left, eval_congr henv ifTrue h.left.right,
      eval_congr henv ifFalse h.right]

/-- The values of some arguments in two scopes that are the same to them. -/
theorem evalAll_congr (henv : env.accessors = []) :
    (xs : List Expr) → SameIn entries entries' (argLeaves xs) →
      evalAll env (.map entries') xs = evalAll env (.map entries) xs
  | [], _ => rfl
  | x :: xs, h => by
    rw [argLeaves] at h
    simp only [evalAll, eval_congr henv x h.left, evalAll_congr henv xs h.right]

end

end Expr

/-- The value of a text in two scopes that are the same to the expression it is. -/
theorem Environment.evaluate_congr {env : Environment} (henv : env.accessors = [])
    {entries entries' : List (String × Value)} {text : String}
    (h : ∀ x, Expr.parse? text = some x → Expr.SameIn entries entries' x.leaves) :
    env.evaluate (.map entries') text = env.evaluate (.map entries) text := by
  rw [evaluate, evaluate, Expr.parse]
  cases hparse : Expr.parse? text with
  | none => rfl
  | some x =>
    simp only [Option.elim_some, bind, Except.bind, Expr.eval_congr henv x (h x hparse)]

end DocTemplate
