import DocTemplate.Expr.Operator
import DocTemplate.Value.Basic

/-!
# Errors

Everything that can go wrong while a document is filled, by its cause. The
wording is `Error.message`, and nothing else depends on it.

An error is *recoverable* (`Error.isRecoverable`) when it says that one
expression has no value: it cannot be read or it cannot be evaluated. The
settings may then let the document be filled nevertheless. All other errors
speak about the template or the setup.
-/

namespace DocTemplate

/-- Why an expression has no value. -/
inductive EvalCause where
  /-- A property of null. -/
  | propertyOfNull (name : String)
  /-- No such property; the kind of its owner, unless that is a map. -/
  | noProperty (name : String) (owner : Option Kind)
  /-- No function of that name. -/
  | noFunction (name : String)
  /-- An index outside a list. -/
  | outOfBounds (index : Int64) (length : Nat)
  /-- A key that a map lacks. -/
  | noKey (key : String)
  /-- A value that cannot be indexed so. -/
  | notIndexable (owner key : Kind)
  /-- A value where a truth value is needed. -/
  | notBoolean (actual : Kind)
  /-- An operand to which the operator does not apply. -/
  | badOperand (op : UnaryOp) (actual : Kind)
  /-- Values without an order. -/
  | notComparable (left right : Kind)
  /-- Operands to which the operator does not apply. -/
  | badOperands (op : BinaryOp) (left right : Kind)
  /-- An integer out of range. -/
  | overflow
  /-- A zero divisor. -/
  | divisionByZero
  /-- A pattern that cannot write a date. -/
  | badPattern (kind : Kind)
  /-- A reason given by a function or a renderer. -/
  | other (reason : String)
  deriving DecidableEq, Repr

namespace EvalCause

/-- The wording of a cause. -/
def message : EvalCause → String
  | propertyOfNull name => "cannot read property '" ++ name ++ "' of null"
  | noProperty name none => "property '" ++ name ++ "' not found"
  | noProperty name (some owner) => "property '" ++ name ++ "' not found on " ++ owner.name
  | noFunction name => "unknown function '" ++ name ++ "'"
  | outOfBounds index length =>
    "index " ++ toString index.toInt ++ " out of bounds for length " ++ toString length
  | noKey key => "key '" ++ key ++ "' not found"
  | notIndexable owner key => "cannot index " ++ owner.name ++ " with " ++ key.name
  | notBoolean actual => "expected a boolean, got " ++ actual.name
  | badOperand op actual => "operator " ++ op.name ++ " does not apply to " ++ actual.name
  | notComparable left right => "cannot compare " ++ left.name ++ " with " ++ right.name
  | badOperands op left right =>
    "cannot apply '" ++ op.symbol ++ "' to " ++ left.name ++ " and " ++ right.name
  | overflow => "integer overflow"
  | divisionByZero => "division by zero"
  | badPattern kind => "invalid date format for " ++ kind.name
  | other reason => reason

end EvalCause

/-- Why a directive does not fit the place of its comment. -/
inductive Misplacement where
  /-- The comment does not enclose text within one paragraph. -/
  | notAroundText
  /-- The paragraph is not in a cell, for a directive on rows. -/
  | notInRow
  /-- The paragraph is not in a cell, for a directive on tables. -/
  | notInTable
  /-- There is no table in the region of the comment, nor one around it. -/
  | noTable
  /-- The region is no longer a sequence of neighbours. -/
  | scattered
  deriving DecidableEq, Repr

namespace Misplacement

/-- The wording of a misplacement. -/
def message : Misplacement → String
  | notAroundText => "comment is not anchored to a run"
  | notInRow => "paragraph is not inside a table cell"
  | notInTable => "paragraph is not inside a table"
  | noTable => "comment does not cover or sit inside a table"
  | scattered => "repeated range is no longer contiguous"

end Misplacement

/-- Why the text of a comment is not a sequence of directives. -/
inductive Malformation where
  /-- The text is not a sequence of expressions. -/
  | unreadable
  /-- An expression that is not a call. -/
  | notCall (text : String)
  /-- A wrong number of arguments. -/
  | arity (name : String) (takes given : Nat)
  deriving DecidableEq, Repr

/-- What a reader of expressions says of a text it cannot read. -/
def unreadableMessage : String := "<parse>"

namespace Malformation

/-- The wording of a malformation. -/
def message : Malformation → String
  | unreadable => unreadableMessage
  | notCall text => "'" ++ text ++ "' is not a directive call"
  | arity name takes given =>
    name ++ " takes " ++ toString takes ++ " argument(s), " ++ toString given ++ " given"

end Malformation

/-- An error. -/
inductive Error where
  /-- An expression has no value. -/
  | evaluation (expression : String) (cause : EvalCause)
  /-- A text is not an expression. -/
  | unreadable (expression : String)
  /-- The expression of a placeholder, or of a directive, has no value and no
      setting makes up for it. -/
  | unresolved (placeholder paragraph : String) (source : Error)
  /-- No renderer takes the value. -/
  | noRenderer (placeholder : String) (kind : Kind)
  /-- A directive in a place it does not fit. -/
  | misplaced (directive paragraph : String) (reason : Misplacement)
  /-- The text of a comment is not a sequence of directives. -/
  | malformed (comment : String) (reason : Malformation)
  /-- A directive that nobody handles. -/
  | unknownDirective (name comment : String)
  /-- An argument of a wrong kind; `expected` says what the directive takes. -/
  | badArgument (directive expected : String) (actual : Kind)
  /-- A function called with the wrong number or kinds of arguments. -/
  | badCall (function : String) (expected actual : List Kind)
  /-- A row that does not fit the columns. -/
  | badShape (expected actual : Nat)
  /-- Two handlers for one directive. -/
  | duplicateDirective (name : String)
  /-- An empty delimiter of placeholders. -/
  | badDelimiters (opening closing : String)
  /-- A text that is not the snapshot of a document. -/
  | badSnapshot
  deriving DecidableEq, Repr

namespace Error

/-- The wording of an error. -/
def message : Error → String
  | evaluation expression cause =>
    "Failed to evaluate '" ++ expression ++ "': " ++ cause.message
  | unreadable expression => "Syntax error in '" ++ expression ++ "': " ++ unreadableMessage
  | unresolved placeholder paragraph source =>
    "Expression " ++ placeholder ++ " could not be resolved in paragraph '" ++ paragraph ++
      "': " ++ source.message
  | noRenderer placeholder kind =>
    "No resolver found for " ++ placeholder ++ " (value of kind " ++ kind.name ++ ")"
  | misplaced directive paragraph reason =>
    "Directive '" ++ directive ++ "' cannot be applied to paragraph '" ++ paragraph ++ "': " ++
      reason.message
  | malformed comment reason =>
    "Malformed directive in comment '" ++ comment ++ "': " ++ reason.message
  | unknownDirective name comment =>
    "Unknown directive '" ++ name ++ "' in comment '" ++ comment ++ "'"
  | badArgument directive expected actual =>
    "Directive '" ++ directive ++ "' expects " ++ expected ++ ", got " ++ actual.name
  | badCall function expected actual =>
    "Function '" ++ function ++ "' expects (" ++ Kind.names expected ++ "), got (" ++
      Kind.names actual ++ ")"
  | badShape expected actual =>
    "Table row has " ++ toString actual ++ " cells but the table declares " ++
      toString expected ++ " columns"
  | duplicateDirective name => "Directive '" ++ name ++ "' is already registered"
  | badDelimiters opening closing =>
    "Invalid expression delimiters: prefix '" ++ opening ++ "' and suffix '" ++ closing ++
      "' must both be non-empty"
  | badSnapshot => "JSON error: <json>"

/-- Whether the error says that one expression has no value. -/
def isRecoverable : Error → Bool
  | evaluation .. | unreadable .. => true
  | _ => false

end Error

end DocTemplate
