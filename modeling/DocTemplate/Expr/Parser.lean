import DocTemplate.Error
import DocTemplate.Expr.Basic
import DocTemplate.Expr.Token

/-!
# Reading expressions

The grammar, from what binds least to what binds most:

* `c ? a : b`, which associates to the right;
* the infix operators by their precedence, which associate to the left, with
  `or` and `and` for `||` and `&&`;
* the operators in front, `!` or `not`, and `-`;
* `.name`, `?.name` and `[key]` behind an expression;
* literals, `#this`, calls, names and parentheses.

Reading goes on the tokens, from the left, and takes the first reading that
works. A part of the grammar is *found* in front of some tokens, or *absent*, in
which case another reading is tried; but once a bracket, a point or a question
mark has committed the reading, the text is *broken* if it does not go on as it
must.

The words `not`, `or` and `and` are names where an operator finds no operand.

A sequence of expressions has a semicolon or a blank between them, and may end
with a semicolon.
-/

namespace DocTemplate

namespace Expr

/-- What is found in front of some tokens, at most `bound - 1` of which are left. -/
inductive Reading (α : Type) (bound : Nat) where
  | found (value : α) (rest : List Lexeme) (h : rest.length < bound)
  | absent
  | broken

namespace Reading

variable {α β : Type} {m n : Nat}

/-- A reading that leaves fewer tokens than it might. -/
def weaken (h : m ≤ n) : Reading α m → Reading α n
  | found a rest hr => found a rest (Nat.lt_of_lt_of_le hr h)
  | absent => absent
  | broken => broken

/-- The reading of something made from what is found. -/
def map (f : α → β) : Reading α n → Reading β n
  | found a rest hr => found (f a) rest hr
  | absent => absent
  | broken => broken

/-- The reading after a token that commits it. -/
def committed : Reading α n → Reading α n
  | absent => broken
  | r => r

end Reading

open Reading

/-- The infix operator that a token is. -/
def operator? : Token → Option BinaryOp
  | .mark .bars => some .or
  | .name "or" => some .or
  | .mark .ampersands => some .and
  | .name "and" => some .and
  | .mark .equals => some .eq
  | .mark .unequal => some .ne
  | .mark .less => some .lt
  | .mark .lessEqual => some .le
  | .mark .greater => some .gt
  | .mark .greaterEqual => some .ge
  | .mark .plus => some .add
  | .mark .minus => some .sub
  | .mark .star => some .mul
  | .mark .slash => some .div
  | .mark .percent => some .rem
  | _ => none

/-- The literal that a token is. -/
def literal? : Token → Option Value
  | .int n => some (.int n)
  | .float x => some (.float x)
  | .string s => some (.string s)
  | .name "true" => some (.bool true)
  | .name "false" => some (.bool false)
  | .name "null" => some .null
  | _ => none

mutual

/-- An expression. -/
def readExpr (ts : List Lexeme) : Reading Expr ts.length :=
  match readChain 0 ts with
  | .found condition (⟨.mark .query, _⟩ :: afterQuery) h =>
    match readExpr afterQuery with
    | .found ifTrue (⟨.mark .colon, _⟩ :: afterColon) h' =>
      ((readExpr afterColon).map (conditional condition ifTrue)).committed.weaken
        (by simp only [List.length_cons] at h h'; omega)
    | _ => .broken
  | r => r
termination_by 12 * ts.length + 10
decreasing_by all_goals grind

/-- Operands joined by operators of the precedence `level` at least. -/
def readChain (level : Nat) (ts : List Lexeme) : Reading Expr ts.length :=
  if level < 6 then
    match readChain (level + 1) ts with
    | .found left rest h => (readOperands level left rest).weaken h
    | r => r
  else
    readUnary ts
termination_by 12 * ts.length + 3 + (6 - level)
decreasing_by all_goals grind

/-- More operands behind `left`, each after an operator of the precedence
    `level`. -/
def readOperands (level : Nat) (left : Expr) (ts : List Lexeme) : Reading Expr (ts.length + 1) :=
  match ts with
  | [] => .found left [] (by simp)
  | t :: rest =>
    match (operator? t.token).filter fun op => op.precedence = level with
    | none => .found left (t :: rest) (by simp)
    | some op =>
      match readChain (level + 1) rest with
      | .found right rest' h =>
        (readOperands level (binary op left right) rest').weaken
          (by simp only [List.length_cons]; omega)
      -- Not an operator then: a word may still begin the next expression.
      | .absent => .found left (t :: rest) (by simp)
      | .broken => .broken
termination_by 12 * ts.length
decreasing_by all_goals grind

/-- An operand with its operators in front. -/
def readUnary (ts : List Lexeme) : Reading Expr ts.length :=
  match ts with
  | ⟨.mark .bang, _⟩ :: rest =>
    ((readUnary rest).map (unary .not)).weaken (by simp)
  | ⟨.mark .minus, _⟩ :: rest =>
    ((readUnary rest).map (unary .neg)).weaken (by simp)
  | ⟨.name "not", spaced⟩ :: rest =>
    match readUnary rest with
    | .found e rest' h => .found (unary .not e) rest' (by simp only [List.length_cons]; omega)
    -- Nothing to negate: a name after all.
    | .absent => readAccess (⟨.name "not", spaced⟩ :: rest)
    | .broken => .broken
  | ts => readAccess ts
termination_by 12 * ts.length + 2
decreasing_by all_goals grind

/-- An operand with its accesses behind. -/
def readAccess (ts : List Lexeme) : Reading Expr ts.length :=
  match readPrimary ts with
  | .found base rest h => (readAccesses base rest).weaken h
  | r => r
termination_by 12 * ts.length + 1
decreasing_by all_goals grind

/-- More accesses behind `base`. -/
def readAccesses (base : Expr) (ts : List Lexeme) : Reading Expr (ts.length + 1) :=
  match ts with
  | ⟨.mark .queryDot, _⟩ :: ⟨.name s, _⟩ :: rest =>
    (readAccesses (member base s true) rest).weaken (by simp only [List.length_cons]; omega)
  | ⟨.mark .queryDot, _⟩ :: _ => .broken
  | ⟨.mark .dot, _⟩ :: ⟨.name s, _⟩ :: rest =>
    (readAccesses (member base s false) rest).weaken (by simp only [List.length_cons]; omega)
  | ⟨.mark .dot, _⟩ :: _ => .broken
  | ⟨.mark .openBracket, _⟩ :: rest =>
    match readExpr rest with
    | .found key (⟨.mark .closeBracket, _⟩ :: rest') h =>
      (readAccesses (index base key) rest').weaken
        (by simp only [List.length_cons] at h ⊢; omega)
    | _ => .broken
  | ts => .found base ts (by simp)
termination_by 12 * ts.length
decreasing_by all_goals grind

/-- A literal, a name, a call or an expression in parentheses. -/
def readPrimary (ts : List Lexeme) : Reading Expr ts.length :=
  match ts with
  | [] => .absent
  | t :: rest =>
    match literal? t.token with
    | some v => .found (literal v) rest (by simp)
    | none =>
      match t.token with
      | .this => .found scope rest (by simp)
      | .name s => (readNamed s rest).weaken (by simp)
      | .mark .openParen =>
        match readExpr rest with
        | .found e (⟨.mark .closeParen, _⟩ :: rest') h =>
          .found e rest' (by simp only [List.length_cons] at h ⊢; omega)
        | _ => .broken
      | _ => .absent
termination_by 12 * ts.length
decreasing_by all_goals grind

/-- What a name begins: a call if a parenthesis follows. -/
def readNamed (s : String) (ts : List Lexeme) : Reading Expr (ts.length + 1) :=
  match ts with
  | ⟨.mark .openParen, _⟩ :: rest =>
    match rest with
    | ⟨.mark .closeParen, _⟩ :: rest =>
      .found (call s []) rest (by simp only [List.length_cons]; omega)
    | rest => ((readArgs rest).map (call s)).weaken (by simp only [List.length_cons]; omega)
  | ts => .found (ident s) ts (by simp)
termination_by 12 * ts.length
decreasing_by all_goals grind

/-- Arguments, one at least, and the parenthesis after them. -/
def readArgs (ts : List Lexeme) : Reading (List Expr) ts.length :=
  match readExpr ts with
  | .found e (⟨.mark .closeParen, _⟩ :: rest) h =>
    .found [e] rest (by simp only [List.length_cons] at h; omega)
  | .found e (⟨.mark .comma, _⟩ :: rest) h =>
    ((readArgs rest).map (e :: ·)).weaken (by simp only [List.length_cons] at h; omega)
  | _ => .broken
termination_by 12 * ts.length + 11
decreasing_by all_goals grind

end

/-- The expressions behind the first one of a sequence. -/
def readMore (ts : List Lexeme) : Option (List Expr) :=
  match ts with
  | [] => some []
  -- The last semicolon separates nothing.
  | [⟨.mark .semicolon, _⟩] => some []
  | ⟨.mark .semicolon, _⟩ :: rest =>
    match readExpr rest with
    | .found e rest' _ => (readMore rest').map (e :: ·)
    | _ => none
  | t :: rest =>
    if t.spaced then
      match readExpr (t :: rest) with
      | .found e rest' _ => (readMore rest').map (e :: ·)
      | _ => none
    else
      none
termination_by ts.length
decreasing_by all_goals grind

/-- The expression that a text is. -/
def parse? (s : String) : Option Expr :=
  (Token.scan? s).bind fun ts =>
    match readExpr ts with
    | .found e [] _ => some e
    | _ => none

/-- The sequence of expressions that a text is; there is one at least. -/
def parseSequence? (s : String) : Option (List Expr) :=
  (Token.scan? s).bind fun ts =>
    match readExpr ts with
    | .found e rest _ => (readMore rest).map (e :: ·)
    | _ => none

/-- The expression of a text; an error if it is none. -/
def parse (s : String) : Except Error Expr :=
  (parse? s).elim (.error (.unreadable s)) .ok

/-- The sequence of expressions of a text; an error if it is none. -/
def parseSequence (s : String) : Except Error (List Expr) :=
  (parseSequence? s).elim (.error (.unreadable s)) .ok

end Expr

end DocTemplate
