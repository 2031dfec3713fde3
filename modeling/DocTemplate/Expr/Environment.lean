import DocTemplate.Error

/-!
# Environments

What expressions may use besides the value in whose scope they are evaluated:
functions, each under a name and with the kinds of its parameters, and
*accessors*, which supply properties that the values themselves do not have, or
other values for those they have.

Names of functions are unique: a function takes the place of an earlier one
with its name.
-/

namespace DocTemplate

/-- A function that expressions can call. -/
structure Function where
  name : String
  /-- The kinds of the parameters. -/
  params : List Kind
  /-- What the function does, given arguments of these kinds. -/
  body : List Value → Except Error Value

namespace Function

/-- The arguments as the parameters want them, if they fit. -/
def bind? : List Kind → List Value → Option (List Value)
  | [], [] => some []
  | k :: ks, v :: vs => do return (← v.coerce? k) :: (← bind? ks vs)
  | _, _ => none

/-- The function applied to some arguments. -/
def call (f : Function) (args : List Value) : Except Error Value :=
  match bind? f.params args with
  | some bound => f.body bound
  | none => .error (.badCall f.name f.params (args.map Value.kind))

end Function

/-- A source of properties: the property of a value with a name, or `none` to
    leave it to others. -/
abbrev Accessor := Value → String → Option Value

/-- An environment. -/
structure Environment where
  /-- The functions, no two with one name. -/
  functions : List Function := []
  /-- The accessors, in the order they are asked. -/
  accessors : List Accessor := []

namespace Environment

variable (env : Environment)

/-- The function of a name. -/
def function? (name : String) : Option Function :=
  env.functions.find? fun f => f.name == name

/-- The environment with a function, in place of the one with its name. -/
def addFunction (f : Function) : Environment :=
  { env with functions := env.functions.filter (fun g => g.name != f.name) ++ [f] }

/-- The environment with an accessor that is asked after all others. -/
def addAccessor (a : Accessor) : Environment :=
  { env with accessors := env.accessors ++ [a] }

/-- The property that the first accessor to know it supplies. -/
def access? (target : Value) (name : String) : Option Value :=
  env.accessors.findSome? fun a => a target name

end Environment

end DocTemplate
