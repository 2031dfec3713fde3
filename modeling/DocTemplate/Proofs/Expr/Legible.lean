import DocTemplate.Proofs.Expr.Reread
import Mathlib

/-!
# Legible expressions

An expression is read back from its text iff it is legible (`Expr.parse_text_iff`): no target of
an access has an operator in front, since no parentheses are written around it; no number is
written without a point; and no minus sign is behind the name `not`.
-/

namespace DocTemplate

namespace Expr

/-- What the operators in front of an expression apply to. -/
def operandOf : Expr → Expr
  | unary _ operand => operandOf operand
  | e => e

/-- The operators in front of an expression. -/
def operatorsOf : Expr → List UnaryOp
  | unary op operand => op :: operatorsOf operand
  | _ => []

/-- Whether an operator is in front of the expression. -/
def isUnary : Expr → Bool
  | unary _ _ => true
  | _ => false

/-- Whether the value is not a number, or one with a point in its text. -/
def hasPoint : Value → Bool
  | .float x => Number.hasPoint x
  | _ => true

mutual

/-- Whether the expression is the one that its text shows. An access needs a target without an
    operator in front, since no parentheses are written around it, and a number a point in its
    text. A minus sign behind the name `not` is an operator in front of the right operand. -/
def isLegible : Expr → Bool
  | literal v => hasPoint v
  | scope => true
  | ident _ => true
  | member target _ _ => !isUnary target && isLegible target
  | index target key => !isUnary target && isLegible target && isLegible key
  | call _ args => areLegible args
  | unary _ operand => isLegible operand
  | binary op left right =>
    !(op = .sub && isWord (operandOf left)) && isLegible left && isLegible right
  | conditional c a b => isLegible c && isLegible a && isLegible b

/-- Whether each of the arguments is the one that its text shows. -/
def areLegible : List Expr → Bool
  | [] => true
  | e :: es => isLegible e && areLegible es

end

theorem shownToken?_eq {v : Value} (h : hasPoint v) : shownToken? v = literalToken? v := by
  unfold shownToken?
  split
  · next x => exact if_pos h
  · rfl

theorem shown_of_literalToken? {v : Value} {t : Token} (hv : literalToken? v = some t)
    (h : hasPoint v) : shown v = literal v := by
  rw [shown, shownToken?_eq h, hv, Option.bind_some, literal?_of_literalToken? hv]

theorem hasPoint_of_shown {v : Value} (h : shown v = literal v) : hasPoint v := by
  unfold hasPoint
  split
  · next x =>
    by_contra hpoint
    cases hliteral : (shownToken? (.float x)).bind literal? with
    | none =>
      rw [shown, hliteral] at h
      cases h
    | some v =>
      rw [shown, hliteral] at h
      obtain rfl := literal.inj h
      obtain ⟨t, ht, htoken⟩ := Option.bind_eq_some_iff.1 hliteral
      rw [shownToken?, if_neg hpoint] at ht
      split at ht
      · obtain rfl := Option.some.inj ht
        cases htoken
      · obtain ⟨n, -, rfl⟩ := Option.map_eq_some_iff.1 ht
        cases htoken
  · rfl

theorem areLegible_iff {args : List Expr} : areLegible args ↔ ∀ a ∈ args, isLegible a := by
  induction args with
  | nil => simp [areLegible]
  | cons a args ih => rw [areLegible, Bool.and_eq_true, ih, List.forall_mem_cons]

theorem inFront_parts (e : Expr) : inFront (operatorsOf e, operandOf e) = e := by
  fun_induction operandOf e with
  | case1 op operand ih => exact congrArg (unary op) ih
  | case2 e h =>
    rw [operatorsOf]
    · rfl
    · exact h

theorem displayedArgs_eq {args : List Expr} (h : ∀ a ∈ args, inFront (displayed a) = a) :
    displayedArgs args = args := by
  induction args with
  | nil => rw [displayedArgs]
  | cons a args ih =>
    obtain ⟨ha, hargs⟩ := List.forall_mem_cons.1 h
    rw [displayedArgs, ha, ih hargs]

theorem operatorsOf_eq_nil {e : Expr} (h : isUnary e = false) :
    operatorsOf e = [] ∧ operandOf e = e := by
  cases e <;> first | exact ⟨rfl, rfl⟩ | cases h

/-- A legible expression is read as its operators and its operand. -/
theorem displayed_eq {e : Expr} (h : Readable e) (hlegible : isLegible e) :
    displayed e = (operatorsOf e, operandOf e) := by
  induction h with
  | literal hv ht =>
    rw [displayed, shown_of_literalToken? hv hlegible]
    rfl
  | scope | ident => rfl
  | @member target h name _ nullSafe ih =>
    rw [isLegible, Bool.and_eq_true, Bool.not_eq_true'] at hlegible
    obtain ⟨hoperators, hoperand⟩ := operatorsOf_eq_nil hlegible.1
    rw [displayed, ih hlegible.2, hoperators, hoperand]
    rfl
  | @index target key h hkey ih ihk =>
    rw [isLegible, Bool.and_eq_true, Bool.and_eq_true, Bool.not_eq_true'] at hlegible
    obtain ⟨⟨hunary, htarget⟩, hkey⟩ := hlegible
    obtain ⟨hoperators, hoperand⟩ := operatorsOf_eq_nil hunary
    rw [displayed, ih htarget, ihk hkey, inFront_parts, hoperators, hoperand]
    rfl
  | @call name hname hreserved args hargs ih =>
    rw [isLegible, areLegible_iff] at hlegible
    rw [displayed, displayedArgs_eq fun a ha => (ih a ha (hlegible a ha)) ▸ inFront_parts a]
    rfl
  | @unary op operand h ih =>
    rw [isLegible] at hlegible
    rw [displayed, ih hlegible]
    rfl
  | @binary op left right hl hr ihl ihr =>
    rw [isLegible, Bool.and_eq_true, Bool.and_eq_true, Bool.not_eq_true'] at hlegible
    obtain ⟨⟨hword, hleft⟩, hright⟩ := hlegible
    rw [displayed, ihl hleft, ihr hright, inFront_parts, inFront_parts, if_neg]
    · rfl
    · simpa using hword
  | @conditional c a b hc ha hb ihc iha ihb =>
    rw [isLegible, Bool.and_eq_true, Bool.and_eq_true] at hlegible
    obtain ⟨⟨hc, ha⟩, hb⟩ := hlegible
    rw [displayed, ihc hc, iha ha, ihb hb, inFront_parts, inFront_parts, inFront_parts]
    rfl

theorem isSome_argTokens? {args : List Expr} (h : ∀ a ∈ args, (tokens? a).isSome) :
    (argTokens? args).isSome := by
  induction args with
  | nil => rfl
  | cons a args ih =>
    obtain ⟨ha, hargs⟩ := List.forall_mem_cons.1 h
    obtain ⟨ts, hts⟩ := Option.isSome_iff_exists.1 ha
    obtain ⟨tss, htss⟩ := Option.isSome_iff_exists.1 (ih hargs)
    rw [argTokens?, hts, htss]
    rfl

/-- The numerals of a legible expression are numerals. -/
theorem isSome_tokens? {e : Expr} (h : Readable e) (hlegible : isLegible e) :
    (tokens? e).isSome := by
  induction h with
  | literal hv ht =>
    rw [tokens?, shownToken?_eq hlegible, hv]
    rfl
  | scope | ident => rfl
  | member _ _ _ ih =>
    rw [isLegible, Bool.and_eq_true] at hlegible
    rw [tokens?, Option.isSome_map]
    exact ih hlegible.2
  | index _ _ ih ihk =>
    rw [isLegible, Bool.and_eq_true, Bool.and_eq_true] at hlegible
    obtain ⟨ts, hts⟩ := Option.isSome_iff_exists.1 (ih hlegible.1.2)
    rw [tokens?, hts, Option.bind_some, Option.isSome_map]
    exact ihk hlegible.2
  | call _ _ _ ih =>
    rw [isLegible, areLegible_iff] at hlegible
    rw [tokens?, Option.isSome_map]
    exact isSome_argTokens? fun a ha => ih a ha (hlegible a ha)
  | unary _ _ ih =>
    rw [isLegible] at hlegible
    rw [tokens?, Option.isSome_map]
    exact ih hlegible
  | binary _ _ _ ihl ihr =>
    rw [isLegible, Bool.and_eq_true, Bool.and_eq_true] at hlegible
    obtain ⟨ts, hts⟩ := Option.isSome_iff_exists.1 (ihl hlegible.1.2)
    rw [tokens?, hts, Option.bind_some, Option.isSome_map]
    exact ihr hlegible.2
  | conditional _ _ _ ihc iha ihb =>
    rw [isLegible, Bool.and_eq_true, Bool.and_eq_true] at hlegible
    obtain ⟨ts, hts⟩ := Option.isSome_iff_exists.1 (ihc hlegible.1.1)
    obtain ⟨us, hus⟩ := Option.isSome_iff_exists.1 (iha hlegible.1.2)
    rw [tokens?, hts, Option.bind_some, hus, Option.bind_some, Option.isSome_map]
    exact ihb hlegible.2

/-- An operand that an operator in front is none of. -/
theorem inFront_eq_iff {ops : List UnaryOp} {e e' : Expr} (h : isUnary e' = false) :
    inFront (ops, e) = e' ↔ ops = [] ∧ e = e' := by
  cases ops with
  | nil => simp [inFront]
  | cons op ops =>
    simp only [reduceCtorEq, false_and, iff_false]
    rintro rfl
    cases h

theorem operators_displayed_ne_nil {e : Expr} (h : isUnary e) : (displayed e).1 ≠ [] := by
  cases e <;> first | (rw [displayed]; exact List.cons_ne_nil _ _) | cases h

/-- A target that nothing is read in front of. -/
theorem target_of_displayed {target : Expr} (hoperators : (displayed target).1 = [])
    (hoperand : (displayed target).2 = target) :
    isUnary target = false ∧ inFront (displayed target) = target := by
  constructor
  · by_contra hunary
    rw [Bool.not_eq_false] at hunary
    exact operators_displayed_ne_nil hunary hoperators
  · rw [← Prod.mk.eta (p := displayed target), hoperators, hoperand]
    rfl

theorem inFront_of_displayedArgs {args : List Expr} (h : displayedArgs args = args) :
    ∀ a ∈ args, inFront (displayed a) = a := by
  induction args with
  | nil => rintro _ ⟨⟩
  | cons a args ih =>
    rw [displayedArgs] at h
    obtain ⟨ha, hargs⟩ := List.cons.inj h
    exact List.forall_mem_cons.2 ⟨ha, ih hargs⟩

/-- Only a legible expression is read as itself. -/
theorem isLegible_of_inFront {e : Expr} (h : Readable e) (heq : inFront (displayed e) = e) :
    isLegible e := by
  induction h with
  | literal =>
    rw [displayed] at heq
    exact hasPoint_of_shown heq
  | scope | ident => rfl
  | member _ _ _ ih =>
    rw [displayed, inFront_eq_iff rfl] at heq
    obtain ⟨hunary, htarget⟩ := target_of_displayed heq.1 (member.inj heq.2).1
    rw [isLegible, hunary, ih htarget]
    rfl
  | index _ _ ih ihk =>
    rw [displayed, inFront_eq_iff rfl] at heq
    obtain ⟨hoperand, hkey⟩ := index.inj heq.2
    obtain ⟨hunary, htarget⟩ := target_of_displayed heq.1 hoperand
    rw [isLegible, hunary, ih htarget, ihk hkey]
    rfl
  | call _ _ _ ih =>
    rw [displayed] at heq
    rw [isLegible, areLegible_iff]
    intro a ha
    exact ih a ha (inFront_of_displayedArgs (call.inj heq).2 a ha)
  | unary op _ ih =>
    rw [displayed] at heq
    rw [isLegible]
    exact ih (unary.inj heq).2
  | @binary op left right hl hr ihl ihr =>
    rw [displayed] at heq
    split_ifs at heq with hword
    · -- A minus sign behind the name `not` leaves an operator in front.
      obtain ⟨-, hunary⟩ := (inFront_eq_iff rfl).1 heq
      obtain ⟨hoperators, -⟩ := (inFront_eq_iff rfl).1 hunary
      exact absurd hoperators (List.append_ne_nil_of_right_ne_nil _ (List.cons_ne_nil _ _))
    · obtain ⟨-, hleft, hright⟩ := binary.inj heq
      have hlegible := ihl hleft
      rw [displayed_eq hl hlegible] at hword
      rw [isLegible, hlegible, ihr hright, Bool.and_true, Bool.and_true, Bool.not_eq_true',
        ← Bool.not_eq_true, Bool.and_eq_true, decide_eq_true_iff]
      exact hword
  | conditional _ _ _ ihc iha ihb =>
    rw [displayed] at heq
    obtain ⟨hc, ha, hb⟩ := conditional.inj heq
    rw [isLegible, ihc hc, iha ha, ihb hb]
    rfl

/-- An expression is read back from its text iff its text shows it. -/
theorem parse_text_iff {s : String} {e : Expr} (h : parse s = .ok e) :
    parse (text e) = .ok e ↔ isLegible e := by
  have hreadable := readable_of_parse h
  rw [parse, parse?_text hreadable]
  constructor
  · intro hread
    cases htokens : tokens? e with
    | none =>
      rw [htokens] at hread
      cases hread
    | some ts =>
      rw [htokens] at hread
      exact isLegible_of_inFront hreadable (Except.ok.inj hread)
  · intro hlegible
    obtain ⟨ts, hts⟩ := Option.isSome_iff_exists.1 (isSome_tokens? hreadable hlegible)
    rw [hts]
    have heq : reread e = e := by rw [reread, displayed_eq hreadable hlegible, inFront_parts]
    exact congrArg Except.ok heq

/-- An operator in front of an access, the name `not` in front of a sign, and a quote. -/
theorem parse_text_not :
    parse "!a.b or (not + c)*'it''s'" = .ok (binary .or
        (unary .not (member (ident "a") "b" false))
        (binary .mul (binary .add (ident "not") (ident "c")) (literal (.string "it's")))) ∧
      parse (text (binary .or (unary .not (member (ident "a") "b" false))
        (binary .mul (binary .add (ident "not") (ident "c")) (literal (.string "it's"))))) =
      .ok (binary .or (unary .not (member (ident "a") "b" false))
        (binary .mul (binary .add (ident "not") (ident "c")) (literal (.string "it's")))) := by
  have h : parse "!a.b or (not + c)*'it''s'" = .ok (binary .or
      (unary .not (member (ident "a") "b" false))
      (binary .mul (binary .add (ident "not") (ident "c")) (literal (.string "it's")))) := by
    cbv
  exact ⟨h, (parse_text_iff h).2 (by decide +kernel)⟩

/-- No parentheses are written around the operand of an access. -/
theorem parse_text_negatedTarget :
    parse "(-a).b" = .ok (member (unary .neg (ident "a")) "b" false) ∧
      text (member (unary .neg (ident "a")) "b" false) = "-a.b" ∧
      parse "-a.b" = .ok (unary .neg (member (ident "a") "b" false)) ∧
      ¬ ∀ s e, parse s = .ok e → parse (text e) = .ok e := by
  have h : parse "(-a).b" = .ok (member (unary .neg (ident "a")) "b" false) := by cbv
  have htext : text (member (unary .neg (ident "a")) "b" false) = "-a.b" := by decide +kernel
  have h' : parse "-a.b" = .ok (unary .neg (member (ident "a") "b" false)) := by cbv
  refine ⟨h, htext, h', fun hall => ?_⟩
  have := hall _ _ h
  rw [htext, h'] at this
  cases this

end Expr

end DocTemplate
