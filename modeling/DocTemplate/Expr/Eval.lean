import DocTemplate.Expr.Environment
import DocTemplate.Expr.Parser
import DocTemplate.Number.Word
import DocTemplate.Text.Blank

/-!
# Evaluation

The value of an expression, given an environment and the value in whose scope it
is evaluated. Integer arithmetic is exact or fails; as soon as one operand is a
number, both are taken as numbers. `&&`, `||` and `?:` evaluate only what they
need, and take nothing but truth values for true or false.

An error names the subexpression that has no value (`Expr.eval`), or, when a
whole text is evaluated, that text (`Environment.evaluate`).
-/

namespace DocTemplate

namespace Value

/-- The property that a value has of itself. -/
def property (target : Value) (name : String) : Except EvalCause Value :=
  match target with
  | .map entries => (entries.lookup name).elim (.error (.noProperty name none)) .ok
  | .list items =>
    if name = "size" ∨ name = "length" then .ok (.int (Int64.ofNat items.length))
    else .error (.noProperty name (some .list))
  | .string s =>
    if name = "size" ∨ name = "length" then .ok (.int (Int64.ofNat s.length))
    else .error (.noProperty name (some .string))
  | .table g =>
    if name = "headers" then .ok (.list (g.headers.map .string))
    else .error (.noProperty name (some .table))
  | v => .error (.noProperty name (some v.kind))

/-- The item of a list, or the value of a key of a map. -/
def item (owner key : Value) : Except EvalCause Value :=
  match owner, key with
  | .list items, .int i =>
    let found := if 0 ≤ i.toInt then items[i.toInt.toNat]? else none
    found.elim (.error (.outOfBounds i items.length)) .ok
  | .map entries, .string k => (entries.lookup k).elim (.error (.noKey k)) .ok
  | owner, key => .error (.notIndexable owner.kind key.kind)

/-- Equality as expressions see it: an integer may equal a number. -/
def equals (a b : Value) : Bool :=
  match a, b with
  | .int n, .float x => Number.ofInteger n.toInt == x
  | .float x, .int n => x == Number.ofInteger n.toInt
  | a, b => a == b

/-- The order of two numbers, unless one is not a number. -/
def compareFloats? (x y : Float) : Option Ordering :=
  if x < y then some .lt else if x == y then some .eq else if y < x then some .gt else none

/-- The order of two values that have one. -/
def compare? (a b : Value) : Option Ordering :=
  match a, b with
  | .int a, .int b => some (compare a.toInt b.toInt)
  | .string a, .string b => some (compare a b)
  | .date a, .date b => some (compare a b)
  | .dateTime a, .dateTime b => some (compare a b)
  -- An integer and a number compare as numbers; nothing else does.
  | a, b => do compareFloats? (← a.asFloat?) (← b.asFloat?)

/-- The outcome of an operator on integers. -/
def intArithmetic (op : BinaryOp) (a b : Int64) : Except EvalCause Value :=
  let exact (r : Option Int64) : Except EvalCause Value :=
    r.elim (.error .overflow) fun n => .ok (.int n)
  match op with
  | .add => exact (Word.add? a b)
  | .sub => exact (Word.sub? a b)
  | .mul => exact (Word.mul? a b)
  | .div => if b = 0 then .error .divisionByZero else exact (Word.div? a b)
  | .rem => if b = 0 then .error .divisionByZero else exact (Word.rem? a b)
  | op => .error (.badOperands op .int .int)

/-- The outcome of an operator on numbers. -/
def floatArithmetic? (op : BinaryOp) (x y : Float) : Option Float :=
  match op with
  | .add => some (x + y)
  | .sub => some (x - y)
  | .mul => some (x * y)
  | .div => some (x / y)
  | .rem => some (Number.remainder x y)
  | _ => none

/-- The outcome of an arithmetical operator. -/
def arithmetic (op : BinaryOp) (a b : Value) : Except EvalCause Value :=
  match a, b with
  | .int m, .int n => intArithmetic op m n
  | a, b =>
    let r := do floatArithmetic? op (← a.asFloat?) (← b.asFloat?)
    r.elim (.error (.badOperands op a.kind b.kind)) fun x => .ok (.float x)

/-- Whether the order of two values is as the operator says. -/
def ordered (op : BinaryOp) (a b : Value) : Except EvalCause Value :=
  match compare? a b with
  | none => .error (.notComparable a.kind b.kind)
  | some o => .ok <| .bool <|
    match op with
    | .lt => o = .lt
    | .le => o ≠ .gt
    | .gt => o = .gt
    | _ => o ≠ .lt

/-- The outcome of an infix operator that takes both operands. -/
def binary (op : BinaryOp) (a b : Value) : Except EvalCause Value :=
  match op with
  | .eq => .ok (.bool (equals a b))
  | .ne => .ok (.bool (!equals a b))
  | .lt | .le | .gt | .ge => ordered op a b
  | .add =>
    if a.kind = .string ∨ b.kind = .string then .ok (.string (a.text ++ b.text))
    else arithmetic .add a b
  | op => arithmetic op a b

/-- The outcome of an operator in front. -/
def unary (op : UnaryOp) (v : Value) : Except EvalCause Value :=
  match op, v with
  | .not, .bool b => .ok (.bool !b)
  | .neg, .int n => (Word.neg? n).elim (.error .overflow) fun n => .ok (.int n)
  | .neg, .float x => .ok (.float (-x))
  | op, v => .error (.badOperand op v.kind)

end Value

namespace Expr

variable (env : Environment) (scope : Value)

/-- An outcome whose error names the expression. -/
def naming (e : Expr) : Except EvalCause Value → Except Error Value
  | .ok v => .ok v
  | .error cause => .error (.evaluation e.text cause)

/-- The property of a value, which accessors may supply. -/
def propertyOf (e : Expr) (target : Value) (name : String) : Except Error Value :=
  match env.access? target name with
  | some v => .ok v
  | none => e.naming (target.property name)

/-- The truth value of an expression, given its value. -/
def condition (e : Expr) : Value → Except Error Bool
  | .bool b => .ok b
  | v => .error (.evaluation e.text (.notBoolean v.kind))

mutual

/-- The value of an expression. -/
def eval : Expr → Except Error Value
  | literal v => .ok v
  | .scope => .ok scope
  | ident name => propertyOf env (ident name) scope name
  | member target name nullSafe => do
    let owner ← eval target
    if owner.isNull then
      -- Accessors are not asked for properties of null.
      if nullSafe then return .null
      else (member target name nullSafe).naming (.error (.propertyOfNull name))
    else
      propertyOf env (member target name nullSafe) owner name
  | index target key => do
    let owner ← eval target
    let k ← eval key
    (index target key).naming (owner.item k)
  | call name args =>
    match env.function? name with
    | none => (call name args).naming (.error (.noFunction name))
    | some f => do f.call (← evalAll args)
  | unary op operand => do
    (unary op operand).naming (Value.unary op (← eval operand))
  | binary op left right =>
    match op with
    | .and => do
      if ← left.condition (← eval left) then return .bool (← right.condition (← eval right))
      else return .bool false
    | .or => do
      if ← left.condition (← eval left) then return .bool true
      else return .bool (← right.condition (← eval right))
    | op => do
      let a ← eval left
      let b ← eval right
      (binary op left right).naming (Value.binary op a b)
  | conditional c ifTrue ifFalse => do
    if ← c.condition (← eval c) then eval ifTrue else eval ifFalse

/-- The values of some arguments, from the first to the last. -/
def evalAll : List Expr → Except Error (List Value)
  | [] => .ok []
  | e :: es => do
    let v ← eval e
    let vs ← evalAll es
    return v :: vs

end

end Expr

namespace Environment

variable (env : Environment)

/-- The value of the expression that a text is. -/
def evaluate (scope : Value) (text : String) : Except Error Value := do
  let e ← Expr.parse text
  match e.eval env scope with
  -- The whole text is named, not the subexpression.
  | .error (.evaluation _ cause) => .error (.evaluation (Text.trim text) cause)
  | outcome => outcome

end Environment

end DocTemplate
