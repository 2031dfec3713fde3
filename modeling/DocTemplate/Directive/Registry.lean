import DocTemplate.Directive.Display
import DocTemplate.Directive.Repetition
import DocTemplate.Directive.TableFill
import DocTemplate.Directive.WordReplacement

/-!
# Registries of handlers

A registry holds handlers in the order in which they commit. A directive belongs
to the handler that has its name; a handler can be registered only if none of
its names is taken, by a handler before it or by itself.

For each filling the handlers go to work (`Registry.desks`): every instruction
goes to the desk of its handler (`Desks.accept`), and in the end all desks commit
in order (`Desks.commit`).

* `names_register`: registering adds the names of the handler to the others.
-/

namespace DocTemplate

/-- Handlers, in the order in which they commit. -/
structure Registry where
  handlers : List Handler := []
  deriving Inhabited

namespace Registry

/-- The built-in handlers. -/
def builtin : Registry :=
  ⟨[.display, .repetition, .wordReplacement, .table]⟩

variable (r : Registry)

/-- The names of all directives, each with the number of its arguments. -/
def signatures : List (String × Nat) :=
  r.handlers.flatMap Handler.signatures

/-- The names of all directives. -/
def names : List String :=
  r.signatures.map Prod.fst

/-- The number of arguments of a directive. -/
def arity? (name : String) : Option Nat :=
  r.signatures.lookup name

/-- The handler of a directive. -/
def handler? (name : String) : Option Handler :=
  r.handlers.find? fun h => h.names.contains name

/-- Whether the placeholders in the region of a comment with this directive are
    left to the edit. -/
def defers (name : String) : Bool :=
  (r.handler? name).any fun h => h.defers name

/-- The first name of a handler that is taken, or that it has twice. -/
def conflict? (h : Handler) : Option String :=
  h.names.find? fun name => r.names.contains name || 1 < h.names.count name

/-- The registry with one more handler. -/
def register (h : Handler) : Except Error Registry :=
  match r.conflict? h with
  | some name => .error (.duplicateDirective name)
  | none => .ok ⟨r.handlers ++ [h]⟩

theorem names_register {r r' : Registry} {h : Handler} (e : r.register h = .ok r') :
    r'.names = r.names ++ h.names := by
  unfold register at e
  split at e
  · cases e
  · cases e; simp [names, signatures, Handler.names]

end Registry

/-- The handlers of a registry at work. -/
structure Desks where
  desks : List Desk

/-- The handlers at work, with nothing accepted yet. -/
def Registry.desks (r : Registry) : Desks :=
  ⟨r.handlers.map fun h => { handler := h }⟩

namespace Desks

/-- The desks after one of them, that of the handler with a name, took another
    instruction; `none` if no handler has the name. -/
def acceptAt? (settings : Settings) (i : Instruction) (name : String) :
    List Desk → Option (Except Error (List Desk))
  | [] => none
  | desk :: desks =>
    if desk.handler.names.contains name then
      some ((desk.accept settings i).map fun desk => desk :: desks)
    else
      (acceptAt? settings i name desks).map fun outcome => outcome.map fun desks => desk :: desks

/-- The desks after one more instruction. -/
def accept (settings : Settings) (d : Desks) (i : Instruction) : Except Error Desks :=
  match acceptAt? settings i i.name.toString d.desks with
  | some outcome => outcome.map fun desks => ⟨desks⟩
  | none => .error (.unknownDirective i.name.toString i.site.region.text)

/-- The commitment of all edits, desk by desk. -/
def commit (filler : Filler) (d : Desks) : Revision Unit :=
  d.desks.forM fun desk => desk.commit filler

end Desks

end DocTemplate
