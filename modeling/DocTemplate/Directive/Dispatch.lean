import DocTemplate.Directive.Call
import DocTemplate.Directive.Registry
import DocTemplate.Expr.Eval

/-!
# Dispatch of comments

A comment is first *interpreted*: its text is read as calls, each of a known
directive and with the right number of arguments. When the paragraph where it
starts is visited, it is *dispatched*: the arguments of all its calls are
evaluated, and then the instructions are handed to their handlers. So a comment
whose arguments cannot all be evaluated is not dispatched at all.

A comment may be *skipped* instead, which leaves it alone: a comment that is no
sequence of directives, if the settings are lenient about that, and one whose
arguments have no value, if the settings are lenient or make up for expressions
without a value.
-/

namespace DocTemplate

namespace Error

/-- Whether the error says that a comment is not a sequence of directives. -/
def isAboutDirectives : Error → Bool
  | malformed .. | unknownDirective .. => true
  | _ => false

end Error

namespace Registry

variable (r : Registry)

/-- The error of a call in a comment: an unknown directive, or a wrong number of
    arguments. -/
def fault? (comment : String) (call : Call) : Option Error :=
  let name := call.name.toString
  match r.arity? name with
  | none => some (.unknownDirective name (Text.trim comment))
  | some arity =>
    if call.args.length = arity then none
    else some (.malformed (Text.trim comment) (.arity name arity call.args.length))

/-- The calls that a comment makes. -/
def calls (comment : String) : Except Error (List Call) := do
  let calls ← Call.parseAll comment
  match calls.findSome? (r.fault? comment) with
  | some e => .error e
  | none => .ok calls

/-- The calls that a comment makes; `none` for a comment to skip. -/
def interpret (settings : Settings) (comment : String) : Except Error (Option (List Call)) :=
  match r.calls comment with
  | .ok calls => .ok (some calls)
  | .error e => if settings.lenientDirectives && e.isAboutDirectives then .ok none else .error e

end Registry

namespace Call

/-- The values of the arguments. -/
def evaluate (env : Environment) (scope : Value) (call : Call) : Except Error (List Value) :=
  Expr.evalAll env scope call.args

/-- The instructions of some calls at a site; `none` for a comment to skip. -/
def instructions (env : Environment) (settings : Settings) (scope : Value) (site : Site) :
    List Call → Except Error (Option (List Instruction))
  | [] => .ok (some [])
  | call :: calls =>
    match call.evaluate env scope with
    | .ok args => do
      -- The later arguments decide as well whether there are instructions.
      let rest ← instructions env settings scope site calls
      return rest.map fun is => ⟨call.name, args, site⟩ :: is
    | .error e =>
      if e.isRecoverable && (settings.lenientDirectives || settings.recoversUnresolved) then
        .ok none
      else
        .error (.unresolved call.text site.paragraphText e)

end Call

namespace Desks

/-- The desks after the calls of a comment, and the number of these; `none` for a
    comment to skip. -/
def dispatch (env : Environment) (settings : Settings) (scope : Value) (d : Desks) (site : Site)
    (calls : List Call) : Except Error (Option (Nat × Desks)) := do
  match ← Call.instructions env settings scope site calls with
  | none => return none
  | some is => return some (is.length, ← is.foldlM (accept settings) d)

end Desks

end DocTemplate
