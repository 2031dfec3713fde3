import DocTemplate.Expr.Eval
import DocTemplate.Proofs.Except

/-!
# Integer arithmetic

Arithmetic on words of sixty-four bits is that of the integers as long as the results are words, and
fails otherwise. Sums, differences, products and opposites may leave the range. A quotient leaves
it in one case only, that of the least word by minus one, for otherwise the division of words is
exact. A remainder never does; but it is computed with its quotient, and fails where that fails.

* `Value.binary_eq_ofExact`: an operator on two words, but for that one remainder;
* `Expr.IsArithmetic.yieldsExact`: what holds of one operator holds of a whole expression, whose
  parts are words or have failed;
* `Expr.isExact_eval`: all of this together.
-/

namespace DocTemplate

/-! ## Exact results -/

namespace BinaryOp

/-- Whether the operator is one of arithmetic. -/
def isArithmetic : BinaryOp → Bool
  | add | sub | mul | div | rem => true
  | _ => false

/-- The exact result of an arithmetical operator; nothing is divided by zero. Quotients are truncated
    towards zero. -/
def ideal? (op : BinaryOp) (a b : Int) : Option Int :=
  match op with
  | add => some (a + b)
  | sub => some (a - b)
  | mul => some (a * b)
  | div => if b = 0 then none else some (a.tdiv b)
  | rem => if b = 0 then none else some (a.tmod b)
  | _ => none

/-- The one remainder that has no outcome: its quotient is no word, although it is one itself. -/
def IsLeastRemainder (op : BinaryOp) (a b : Int64) : Prop :=
  op = rem ∧ a = Int64.minValue ∧ b = -1

end BinaryOp

namespace Word

variable {a b : Int64} {n : Int}

theorem ofInt?_toInt (w : Int64) : ofInt? w.toInt = some w :=
  ofInt?_eq_some_iff.2 rfl

theorem ofInt?_eq_none_iff :
    ofInt? n = none ↔ ¬ (Int64.minValue.toInt ≤ n ∧ n ≤ Int64.maxValue.toInt) := by
  rw [ofInt?]
  split <;> simp_all

theorem toInt_eq_zero_iff : b.toInt = 0 ↔ b = 0 :=
  Int64.toInt_inj (y := 0)

/-- The quotient of two words is a word, but for the least one by minus one. -/
theorem div?_eq_some (h : ¬ (a = Int64.minValue ∧ b = -1)) : div? a b = some (a / b) := by
  have hquotient : (a / b).toInt = a.toInt.tdiv b.toInt := by
    by_cases ha : a = Int64.minValue
    · exact Int64.toInt_div_of_ne_right a b fun hb => h ⟨ha, hb⟩
    · exact Int64.toInt_div_of_ne_left a b ha
  rw [div?, ← hquotient, ofInt?_toInt]

theorem div?_minValue_neg_one : div? Int64.minValue (-1) = none := by
  decide

/-- The remainder of two words is that of the integers, if their quotient is a word. -/
theorem rem?_eq_ofInt? (h : ¬ (a = Int64.minValue ∧ b = -1)) :
    rem? a b = ofInt? (a.toInt.tmod b.toInt) := by
  rw [rem?, div?_eq_some h, Option.bind_some]

end Word

namespace Value

variable {a b : Int64} {op : BinaryOp} {result? : Option Int} {v : Value}

/-- The outcome of a computation on words by its exact result. -/
def ofExact : Option Int → Except EvalCause Value
  | none => .error .divisionByZero
  | some n => (Word.ofInt? n).elim (.error .overflow) fun w => .ok (.int w)

theorem ofExact_eq_ok_iff :
    ofExact result? = .ok v ↔ ∃ w : Int64, v = .int w ∧ result? = some w.toInt := by
  cases result? with
  | none => simp [ofExact]
  | some n =>
    rw [ofExact]
    cases hn : Word.ofInt? n with
    | none =>
      -- No word is that integer.
      have hne : ∀ w : Int64, n ≠ w.toInt := by
        rintro w rfl
        rw [Word.ofInt?_toInt] at hn
        cases hn
      simp [hne]
    | some w =>
      obtain rfl := Word.ofInt?_eq_some_iff.1 hn
      simp [Int64.toInt_inj, eq_comm]

theorem cause_of_ofExact {cause : EvalCause} (h : ofExact result? = .error cause) :
    cause = .divisionByZero ∧ result? = none ∨
      cause = .overflow ∧ ∃ n, result? = some n ∧
        ¬ (Int64.minValue.toInt ≤ n ∧ n ≤ Int64.maxValue.toInt) := by
  cases result? with
  | none =>
    cases h
    exact .inl ⟨rfl, rfl⟩
  | some n =>
    rw [ofExact] at h
    cases hn : Word.ofInt? n with
    | none =>
      rw [hn] at h
      cases h
      exact .inr ⟨rfl, n, rfl, Word.ofInt?_eq_none_iff.1 hn⟩
    | some w =>
      rw [hn] at h
      cases h

/-- An arithmetical operator on words is exact, but for one remainder. -/
theorem binary_eq_ofExact (hop : op.isArithmetic) (h : ¬ op.IsLeastRemainder a b) :
    binary op (.int a) (.int b) = ofExact (op.ideal? a.toInt b.toInt) := by
  cases op with
  | add => rfl
  | sub => rfl
  | mul => rfl
  | div =>
    simp only [binary, arithmetic, intArithmetic, BinaryOp.ideal?, Word.toInt_eq_zero_iff, Word.div?]
    split <;> rfl
  | rem =>
    have hquotient : ¬ (a = Int64.minValue ∧ b = -1) := fun hab => h ⟨rfl, hab⟩
    simp only [binary, arithmetic, intArithmetic, BinaryOp.ideal?, Word.toInt_eq_zero_iff,
      Word.rem?_eq_ofInt? hquotient]
    split <;> rfl
  | _ => cases hop

theorem binary_of_isLeastRemainder (h : op.IsLeastRemainder a b) :
    binary op (.int a) (.int b) = .error .overflow := by
  obtain ⟨rfl, rfl, rfl⟩ := h
  rfl

theorem unary_eq_ofExact (a : Int64) : unary .neg (.int a) = ofExact (some (-a.toInt)) := rfl

end Value

/-! ## Expressions -/

/-- An evaluation whose exact result is given yields it, if there is one and it is a word; else it fails
    with an error that says which of these is not so. -/
structure Expr.IsExact (result? : Option Int) (outcome : Except Error Value) : Prop where
  ok_iff (v : Value) : outcome = .ok v ↔ ∃ w : Int64, v = .int w ∧ result? = some w.toInt
  cause {error : Error} (h : outcome = .error error) :
    ∃ expression cause, error = .evaluation expression cause ∧
      (cause = .divisionByZero ∧ result? = none ∨
        cause = .overflow ∧ ∃ n, result? = some n ∧
          ¬ (Int64.minValue.toInt ≤ n ∧ n ≤ Int64.maxValue.toInt))

namespace Expr

/-- The expression is made of integers by arithmetical operators. -/
inductive IsArithmetic : Expr → Prop
  | literal (n : Int64) : IsArithmetic (literal (.int n))
  | neg {e : Expr} (h : IsArithmetic e) : IsArithmetic (unary .neg e)
  | binary {op : BinaryOp} {left right : Expr} (hop : op.isArithmetic) (hleft : IsArithmetic left)
      (hright : IsArithmetic right) : IsArithmetic (binary op left right)

/-- The value of such an expression in the integers, if nothing is divided by zero in it. -/
def ideal? : Expr → Option Int
  | literal (.int n) => some n.toInt
  | unary .neg e => do return -(← ideal? e)
  | binary op left right => do op.ideal? (← ideal? left) (← ideal? right)
  | _ => none

/-- The value of such an expression in words: the exact result of every step of the computation is one,
    and no step is that remainder. -/
inductive Computes : Expr → Int64 → Prop
  | literal (n : Int64) : Computes (literal (.int n)) n
  | neg {e : Expr} {a w : Int64} (h : Computes e a) (hw : w.toInt = -a.toInt) :
      Computes (unary .neg e) w
  | binary {op : BinaryOp} {left right : Expr} {a b w : Int64} (hleft : Computes left a)
      (hright : Computes right b) (h : ¬ op.IsLeastRemainder a b)
      (hw : op.ideal? a.toInt b.toInt = some w.toInt) : Computes (binary op left right) w

variable {env : Environment} {scope : Value} {op : BinaryOp} {left right operand e : Expr}
  {a b : Int64}

theorem eval_binary (hop : op.isArithmetic) (left right : Expr) :
    (binary op left right).eval env scope =
      left.eval env scope >>= fun a => right.eval env scope >>= fun b =>
        (binary op left right).naming (Value.binary op a b) := by
  cases op with
  | add | sub | mul | div | rem => simp only [eval]
  | _ => cases hop

theorem isExact_naming (e : Expr) (result? : Option Int) :
    IsExact result? (e.naming (Value.ofExact result?)) := by
  refine ⟨fun v => ?_, fun {error} h => ?_⟩
  · rw [← Value.ofExact_eq_ok_iff]
    cases Value.ofExact result? <;> simp [naming]
  · cases houtcome : Value.ofExact result? with
    | ok v =>
      rw [houtcome] at h
      cases h
    | error cause =>
      rw [houtcome] at h
      cases h
      exact ⟨e.text, cause, rfl, Value.cause_of_ofExact houtcome⟩

/-- An operator between expressions with words for their values is exact, but for one remainder. -/
theorem isExact_eval_binary (hop : op.isArithmetic) (hleft : left.eval env scope = .ok (.int a))
    (hright : right.eval env scope = .ok (.int b)) (h : ¬ op.IsLeastRemainder a b) :
    IsExact (op.ideal? a.toInt b.toInt) ((binary op left right).eval env scope) := by
  rw [eval_binary hop, hleft, hright]
  simp only [bind, Except.bind, Value.binary_eq_ofExact hop h]
  exact isExact_naming _ _

theorem isExact_eval_neg (h : operand.eval env scope = .ok (.int a)) :
    IsExact (some (-a.toInt)) ((unary .neg operand).eval env scope) := by
  rw [eval, h]
  simp only [bind, Except.bind, Value.unary_eq_ofExact]
  exact isExact_naming _ _

/-- That remainder overflows, as its quotient does. -/
theorem eval_of_isLeastRemainder (hleft : left.eval env scope = .ok (.int a))
    (hright : right.eval env scope = .ok (.int b)) (h : op.IsLeastRemainder a b) :
    (binary op left right).eval env scope =
      .error (.evaluation (binary op left right).text .overflow) := by
  have hop : op.isArithmetic := by
    rw [h.1]
    rfl
  rw [eval_binary hop, hleft, hright]
  simp only [bind, Except.bind, Value.binary_of_isLeastRemainder h]
  rfl

/-- An evaluation yields the exact result, or else it fails because of an overflow or of a zero divisor. -/
def YieldsExact (result? : Option Int) (outcome : Except Error Value) : Prop :=
  (∃ w : Int64, outcome = .ok (.int w) ∧ result? = some w.toInt) ∨
    ∃ expression cause, outcome = .error (.evaluation expression cause) ∧
      (cause = .divisionByZero ∨ cause = .overflow)

theorem IsExact.yieldsExact {result? : Option Int} {outcome : Except Error Value}
    (h : IsExact result? outcome) : YieldsExact result? outcome := by
  cases outcome with
  | ok v =>
    obtain ⟨w, rfl, hw⟩ := (h.ok_iff v).1 rfl
    exact .inl ⟨w, rfl, hw⟩
  | error error =>
    obtain ⟨expression, cause, rfl, hcause⟩ := h.cause rfl
    exact .inr ⟨expression, cause, rfl, hcause.imp And.left And.left⟩

/-- The parts of an expression are words, or one of them has failed. -/
theorem IsArithmetic.yieldsExact (h : e.IsArithmetic) :
    YieldsExact e.ideal? (e.eval env scope) := by
  induction h with
  | literal n => exact .inl ⟨n, by rw [eval], rfl⟩
  | @neg operand _ ih =>
    rcases ih with ⟨a, ha, hexact⟩ | ⟨expression, cause, hfails, hcause⟩
    · rw [ideal?, hexact]
      exact (isExact_eval_neg ha).yieldsExact
    · refine .inr ⟨expression, cause, ?_, hcause⟩
      rw [eval, hfails]
      rfl
  | @binary op left right hop _ _ ihleft ihright =>
    rcases ihleft with ⟨a, ha, hleft⟩ | ⟨expression, cause, hfails, hcause⟩
    · rcases ihright with ⟨b, hb, hright⟩ | ⟨expression, cause, hfails, hcause⟩
      · by_cases hrem : op.IsLeastRemainder a b
        · exact .inr ⟨_, _, eval_of_isLeastRemainder ha hb hrem, .inr rfl⟩
        · rw [ideal?, hleft, hright]
          exact (isExact_eval_binary hop ha hb hrem).yieldsExact
      · refine .inr ⟨expression, cause, ?_, hcause⟩
        rw [eval_binary hop, ha, hfails]
        rfl
    · refine .inr ⟨expression, cause, ?_, hcause⟩
      rw [eval_binary hop, hfails]
      rfl

theorem IsArithmetic.exists_word (h : e.IsArithmetic) {v : Value}
    (hv : e.eval env scope = .ok v) : ∃ w, v = .int w := by
  have hexact : YieldsExact e.ideal? (e.eval env scope) := h.yieldsExact
  rw [hv] at hexact
  rcases hexact with ⟨w, hw, -⟩ | ⟨_, _, hfails, -⟩
  · exact ⟨w, Except.ok.inj hw⟩
  · cases hfails

theorem eval_neg_eq_ok_iff (ha : operand.eval env scope = .ok (.int a)) {w : Int64} :
    (unary .neg operand).eval env scope = .ok (.int w) ↔ w.toInt = -a.toInt := by
  simp [(isExact_eval_neg ha).ok_iff, eq_comm]

theorem eval_binary_eq_ok_iff (hop : op.isArithmetic) (ha : left.eval env scope = .ok (.int a))
    (hb : right.eval env scope = .ok (.int b)) {w : Int64} :
    (binary op left right).eval env scope = .ok (.int w) ↔
      ¬ op.IsLeastRemainder a b ∧ op.ideal? a.toInt b.toInt = some w.toInt := by
  by_cases hrem : op.IsLeastRemainder a b
  · simp [eval_of_isLeastRemainder ha hb hrem, hrem]
  · simp [(isExact_eval_binary hop ha hb hrem).ok_iff, hrem]

/-- An expression has a value if and only if every step of its computation has one. -/
theorem IsArithmetic.eval_eq_ok_iff (h : e.IsArithmetic) {w : Int64} :
    e.eval env scope = .ok (.int w) ↔ e.Computes w := by
  induction h generalizing w with
  | literal n =>
    rw [eval]
    constructor
    · intro hw
      cases hw
      exact .literal n
    · intro hw
      cases hw
      rfl
  | @neg operand harithmetic ih =>
    constructor
    · intro hw
      have hw' := hw
      rw [eval] at hw'
      obtain ⟨v, hv, -⟩ := Except.bind_eq_ok.1 hw'
      obtain ⟨a, rfl⟩ := harithmetic.exists_word hv
      exact .neg (ih.1 hv) ((eval_neg_eq_ok_iff hv).1 hw)
    · rintro (_ | ⟨ha, hw⟩)
      exact (eval_neg_eq_ok_iff (ih.2 ha)).2 hw
  | @binary op left right hop harithmetic harithmetic' ihleft ihright =>
    constructor
    · intro hw
      have hw' := hw
      rw [eval_binary hop] at hw'
      obtain ⟨v, hv, hw'⟩ := Except.bind_eq_ok.1 hw'
      obtain ⟨v', hv', -⟩ := Except.bind_eq_ok.1 hw'
      obtain ⟨a, rfl⟩ := harithmetic.exists_word hv
      obtain ⟨b, rfl⟩ := harithmetic'.exists_word hv'
      obtain ⟨hrem, hw⟩ := (eval_binary_eq_ok_iff hop hv hv').1 hw
      exact .binary (ihleft.1 hv) (ihright.1 hv') hrem hw
    · rintro (_ | _ | ⟨ha, hb, hrem, hw⟩)
      exact (eval_binary_eq_ok_iff hop (ihleft.2 ha) (ihright.2 hb)).2 ⟨hrem, hw⟩

/-- An arithmetical operator on integers has the exact result for its value, if there is one and it is a
    word of sixty-four bits, and else fails, as does the remainder of the least word by minus one. So an
    expression that is made of integers and such operators has its exact value, or fails; and it does not
    fail if no step of its computation does. -/
theorem isExact_eval (env : Environment) (scope : Value) :
    (∀ (op : BinaryOp) (left right : Expr) (a b : Int64), op.isArithmetic →
      left.eval env scope = .ok (.int a) → right.eval env scope = .ok (.int b) →
      (¬ op.IsLeastRemainder a b →
        IsExact (op.ideal? a.toInt b.toInt) ((binary op left right).eval env scope)) ∧
      (op.IsLeastRemainder a b → (binary op left right).eval env scope =
        .error (.evaluation (binary op left right).text .overflow))) ∧
    (∀ (operand : Expr) (a : Int64), operand.eval env scope = .ok (.int a) →
      IsExact (some (-a.toInt)) ((unary .neg operand).eval env scope)) ∧
    ∀ e : Expr, e.IsArithmetic → YieldsExact e.ideal? (e.eval env scope) ∧
      ∀ w, e.eval env scope = .ok (.int w) ↔ e.Computes w :=
  ⟨fun _ _ _ _ _ hop hleft hright =>
      ⟨isExact_eval_binary hop hleft hright, eval_of_isLeastRemainder hleft hright⟩,
    fun _ _ h => isExact_eval_neg h, fun _ h => ⟨h.yieldsExact, fun _ => h.eval_eq_ok_iff⟩⟩

/-! ### Shares -/

/-- Half of minus seven. -/
def share : Expr :=
  binary .div (unary .neg (literal (.int 7))) (literal (.int 2))

/-- The least word. Its opposite is none, so it is no literal with an operator in front. -/
def leastWord : Expr :=
  binary .sub (unary .neg (literal (.int 9223372036854775807))) (literal (.int 1))

/-- What the least word leaves when it is divided by minus one. -/
def leastRemainder : Expr :=
  binary .rem leastWord (unary .neg (literal (.int 1)))

/-- The quotient is truncated towards zero, and its opposite is exact again. -/
theorem isExact_eval_share :
    IsExact (BinaryOp.ideal? .div (-7) 2) (share.eval {} .null) ∧
      share.eval {} .null = .ok (.int (-3)) ∧
      IsExact (some (-(-3))) ((unary .neg share).eval {} .null) ∧
      leastRemainder.eval {} .null = .error (.evaluation leastRemainder.text .overflow) ∧
      (unary .neg share).IsArithmetic ∧
      YieldsExact (some 3) ((unary .neg share).eval {} .null) ∧ (unary .neg share).Computes 3 := by
  obtain ⟨hbinary, hneg, hwhole⟩ := isExact_eval {} .null
  have hshare : share.eval {} .null = .ok (.int (-3)) := rfl
  have harithmetic : (unary .neg share).IsArithmetic :=
    .neg (.binary rfl (.neg (.literal 7)) (.literal 2))
  exact ⟨(hbinary .div _ _ (-7) 2 rfl rfl rfl).1 (fun h => by cases h.1), hshare,
    hneg share (-3) hshare,
    (hbinary .rem _ _ Int64.minValue (-1) rfl rfl rfl).2 ⟨rfl, rfl, rfl⟩, harithmetic,
    (hwhole _ harithmetic).1, ((hwhole _ harithmetic).2 3).1 rfl⟩

/-- The exact remainder of the least word by minus one is zero, and it is not what is computed. -/
theorem not_isExact_leastRemainder :
    ¬ ∀ (op : BinaryOp) (left right : Expr) (a b : Int64), op.isArithmetic →
      left.eval {} .null = .ok (.int a) → right.eval {} .null = .ok (.int b) →
        IsExact (op.ideal? a.toInt b.toInt) ((binary op left right).eval {} .null) := by
  intro h
  have hexact : IsExact (some 0) (leastRemainder.eval {} .null) :=
    h .rem leastWord (unary .neg (literal (.int 1))) Int64.minValue (-1) rfl rfl rfl
  have hzero := (hexact.ok_iff (.int 0)).2 ⟨0, rfl, rfl⟩
  cases hzero

end Expr

end DocTemplate
