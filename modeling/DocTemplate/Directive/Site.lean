import DocTemplate.Comment.Region
import DocTemplate.Directive.Name
import DocTemplate.Document.Walk
import DocTemplate.Error
import DocTemplate.Value.Basic

/-!
# Instructions

An instruction is a directive to be carried out: its name, the values of its
arguments, and the *site* of the comment that gave it. Every directive has one
argument at most that matters, `Instruction.arg`.
-/

namespace DocTemplate

/-- Where a comment was found. -/
structure Site where
  /-- The region of the comment. -/
  region : Region
  /-- The paragraph where its range starts. -/
  paragraph : NodeId
  /-- The text of that paragraph, after its placeholders were filled. -/
  paragraphText : String
  /-- The innermost cell around that paragraph. -/
  cell : Option CellPosition
  deriving DecidableEq, Repr

/-- A directive to be carried out. -/
structure Instruction where
  name : DirectiveName
  /-- The values of the arguments. -/
  args : List Value
  site : Site

namespace Instruction

variable (i : Instruction)

/-- The first argument; null if there is none. -/
def arg : Value :=
  i.args.head?.getD .null

/-- The error that the site is not one for the directive. -/
def misplaced (reason : Misplacement) : Error :=
  .misplaced i.name.toString i.site.paragraphText reason

/-- The error that the argument is not what the directive takes. -/
def badArgument (expected : String) : Error :=
  .badArgument i.name.toString expected i.arg.kind

end Instruction

end DocTemplate
