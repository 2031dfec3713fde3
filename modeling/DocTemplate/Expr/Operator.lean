/-!
# Operators

The operators of expressions, their symbols, and how tightly the infix ones
bind. Operators of one precedence associate to the left.
-/

namespace DocTemplate

/-- An operator in front of its operand. -/
inductive UnaryOp where
  | not
  | neg
  deriving DecidableEq, Repr

namespace UnaryOp

/-- How the operator is written. -/
def symbol : UnaryOp → String
  | not => "!"
  | neg => "-"

/-- What the operator is called in messages. -/
def name : UnaryOp → String
  | not => "Not"
  | neg => "Neg"

end UnaryOp

/-- An operator between its operands. -/
inductive BinaryOp where
  | or | and
  | eq | ne
  | lt | le | gt | ge
  | add | sub
  | mul | div | rem
  deriving DecidableEq, Repr

namespace BinaryOp

/-- How the operator is written. -/
def symbol : BinaryOp → String
  | or => "||"
  | and => "&&"
  | eq => "=="
  | ne => "!="
  | lt => "<"
  | le => "<="
  | gt => ">"
  | ge => ">="
  | add => "+"
  | sub => "-"
  | mul => "*"
  | div => "/"
  | rem => "%"

/-- How tightly the operator binds, from 0 to 5. -/
def precedence : BinaryOp → Nat
  | or => 0
  | and => 1
  | eq | ne => 2
  | lt | le | gt | ge => 3
  | add | sub => 4
  | mul | div | rem => 5

theorem precedence_lt (op : BinaryOp) : op.precedence < 6 := by
  cases op <;> decide

end BinaryOp

end DocTemplate
