import DocTemplate.Directive.Name
import DocTemplate.Expr.Parser
import DocTemplate.Text.Blank

/-!
# Calls of directives

The text of a comment is a sequence of calls, `name(argument, …)`. The
arguments are expressions; they get their values only when the paragraph of the
comment is visited.
-/

namespace DocTemplate

/-- A call of a directive. -/
structure Call where
  name : DirectiveName
  /-- The arguments, not yet evaluated. -/
  args : List Expr
  /-- The text of the call. -/
  text : String
  deriving Inhabited

namespace Call

/-- The call that an expression is. -/
def ofExpr? (e : Expr) : Option Call :=
  match e with
  | .call name args => some ⟨.ofString name, args, e.text⟩
  | _ => none

/-- The call that an expression of a comment is, or else an error. -/
def ofExpr (comment : String) (e : Expr) : Except Error Call :=
  match ofExpr? e with
  | some call => .ok call
  | none => .error (.malformed (Text.trim comment) (.notCall e.text))

/-- The calls in the text of a comment; none in a blank one. -/
def parseAll (comment : String) : Except Error (List Call) :=
  if Text.isBlank comment then .ok []
  else
    match Expr.parseSequence? comment with
    | none => .error (.malformed (Text.trim comment) .unreadable)
    | some exprs => exprs.mapM (ofExpr comment)

end Call

end DocTemplate
