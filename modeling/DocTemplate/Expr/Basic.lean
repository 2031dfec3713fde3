import DocTemplate.Expr.Operator
import DocTemplate.Text.Search
import DocTemplate.Value.Display

/-!
# Expressions

The syntax of expressions, and their text. The text of an expression has the
parentheses that show its structure, whatever it was read from; texts within it
are written between single quotes, which are doubled inside.
-/

namespace DocTemplate

/-- An expression. -/
inductive Expr where
  /-- A value as it is written. -/
  | literal (v : Value)
  /-- The value in whose scope the expression is evaluated. -/
  | scope
  /-- A property of that value. -/
  | ident (name : String)
  /-- A property of another value; a null-safe one of null is null. -/
  | member (target : Expr) (name : String) (nullSafe : Bool)
  /-- An item of a list, or the value of a key. -/
  | index (target key : Expr)
  /-- A function applied to arguments. -/
  | call (name : String) (args : List Expr)
  | unary (op : UnaryOp) (operand : Expr)
  | binary (op : BinaryOp) (left right : Expr)
  | conditional (condition ifTrue ifFalse : Expr)
  deriving Inhabited

namespace Expr

/-- A value as it is written. -/
def literalText : Value → String
  | .string s => "'" ++ "''".intercalate (Text.splitOn s "'") ++ "'"
  | .null => "null"
  | v => v.text

mutual

/-- The text of an expression. -/
def text : Expr → String
  | literal v => literalText v
  | scope => "#this"
  | ident name => name
  | member target name nullSafe => text target ++ (if nullSafe then "?." else ".") ++ name
  | index target key => text target ++ "[" ++ text key ++ "]"
  | call name args => name ++ "(" ++ ", ".intercalate (argTexts args) ++ ")"
  | unary op operand => op.symbol ++ text operand
  | binary op left right =>
    "(" ++ text left ++ " " ++ op.symbol ++ " " ++ text right ++ ")"
  | conditional condition ifTrue ifFalse =>
    "(" ++ text condition ++ " ? " ++ text ifTrue ++ " : " ++ text ifFalse ++ ")"

/-- The texts of some arguments. -/
def argTexts : List Expr → List String
  | [] => []
  | e :: es => text e :: argTexts es

end

end Expr

end DocTemplate
