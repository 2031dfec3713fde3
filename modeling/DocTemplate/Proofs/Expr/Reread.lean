import DocTemplate.Proofs.Expr.Display

/-!
# What displayed expressions are read as

Parentheses are only written around infix operators and conditionals. Hence the text of an
expression is read as operators in front and an operand (`Expr.displayed`): an access behind the
text of a negated expression is one of what is negated, and a minus sign behind the name `not`
makes an operator of it. A large integer is read as an integer value, and infinity as a name.

The tokens of the text of an expression are read as that (`Expr.displays_of_tokens?`), and the
text with them (`Expr.parse?_text`).
-/

namespace DocTemplate

namespace Expr

/-- The literal that the text of a literal is read as; what is none is infinity, a name. -/
def shown (v : Value) : Expr :=
  match (shownToken? v).bind literal? with
  | some v => literal v
  | none => ident "inf"

/-- An operand with operators in front. -/
def inFront : List UnaryOp × Expr → Expr
  | (ops, e) => ops.foldr unary e

/-- Whether this is the name `not`, which is an operator wherever an expression begins behind
    it. -/
def isWord : Expr → Bool
  | ident name => name = "not"
  | _ => false

mutual

/-- What the text of an expression is read as: the operators in front, and the operand. Accesses
    behind the text are ones of the operand. -/
def displayed : Expr → List UnaryOp × Expr
  | literal v => ([], shown v)
  | scope => ([], scope)
  | ident name => ([], ident name)
  | member target name nullSafe =>
    ((displayed target).1, member (displayed target).2 name nullSafe)
  | index target key => ((displayed target).1, index (displayed target).2 (inFront (displayed key)))
  | call name args => ([], call name (displayedArgs args))
  | unary op operand => (op :: (displayed operand).1, (displayed operand).2)
  | binary op left right =>
    if op = .sub ∧ isWord (displayed left).2 then
      -- The word and the sign are operators in front of what is behind.
      ([], inFront ((displayed left).1 ++ .not :: .neg :: (displayed right).1, (displayed right).2))
    else ([], binary op (inFront (displayed left)) (inFront (displayed right)))
  | conditional c a b =>
    ([], conditional (inFront (displayed c)) (inFront (displayed a)) (inFront (displayed b)))

/-- What the texts of some arguments are read as. -/
def displayedArgs : List Expr → List Expr
  | [] => []
  | e :: es => inFront (displayed e) :: displayedArgs es

end

/-- What the text of an expression is read as. -/
def reread (e : Expr) : Expr :=
  inFront (displayed e)

/-- The tokens are those of an operand without operators in front. They begin with the word `not`
    only where it is a name: if nothing is behind it, or nothing that begins an expression. -/
inductive IsOperand : Expr → List Token → Prop
  | plain {e : Expr} {t : Token} (ts : List Token) (ht : unaryOperator? t = none)
    (he : isWord e = false) : IsOperand e (t :: ts)
  | word {e : Expr} {t : Token} (ts : List Token) (ht : begins t = false)
    (he : isWord e = false) : IsOperand e (.name "not" :: t :: ts)
  | bare : IsOperand (ident "not") [.name "not"]

namespace IsOperand

variable {e : Expr} {ts : List Token}

theorem ident (name : String) (hliteral : literal? (.name name) = none) :
    IsOperand (.ident name) [.name name] := by
  by_cases hname : name = "not"
  · subst hname
    exact .bare
  · exact .plain [] (unaryOperator?_name (not_mem_reserved hliteral hname)) (by simp [isWord, hname])

theorem append (h : IsOperand e ts) {e' : Expr} (he : isWord e' = false) {t : Token}
    (ht : begins t = false) (us : List Token) : IsOperand e' (ts ++ t :: us) := by
  cases h with
  | plain ts hu _ => exact .plain _ hu he
  | word ts hu _ => exact .word _ hu he
  | bare => exact .word us ht he

theorem readsAt {bare : Bool} (h : IsOperand e ts) (hread : ReadsAt bare .access e ts) :
    ReadsAt (isWord e) (.chain 6) e ts := by
  cases h with
  | plain _ ht he => exact he ▸ ReadsAt.operand ht hread
  | word _ ht he => exact he ▸ ReadsAt.word ht hread
  | bare => exact (show isWord (.ident "not") = true from rfl) ▸ hread.bareWord

end IsOperand

/-- The tokens are those of the operators, then of the operand. -/
def Displays (ops : List UnaryOp) (e : Expr) (ts : List Token) : Prop :=
  ∃ us, ts = ops.map (fun op => .mark op.mark) ++ us ∧ IsOperand e us ∧ ReadsAt false .access e us

theorem unaryOperator?_mark (op : UnaryOp) : unaryOperator? (.mark op.mark) = some op := by
  cases op <;> rfl

theorem operator?_mark (op : BinaryOp) : operator? (.mark op.mark) = some op := by
  cases op <;> rfl

/-- Operators in front, however they are written. -/
theorem ReadsAt.inFront {ops : List UnaryOp} {os : List Token} {bare : Bool} {e : Expr}
    {ts : List Token} (hops : os.map unaryOperator? = ops.map some)
    (h : ReadsAt bare (.chain 6) e ts) :
    ReadsAt bare (.chain 6) (Expr.inFront (ops, e)) (os ++ ts) := by
  induction ops generalizing os with
  | nil =>
    obtain rfl := List.map_eq_nil_iff.1 hops
    exact h
  | cons op ops ih =>
    obtain ⟨o, os, rfl, ho, hos⟩ := List.map_eq_cons_iff.1 hops
    exact .unary ho (ih hos)

theorem map_unaryOperator?_mark (ops : List UnaryOp) :
    (ops.map fun op => Token.mark op.mark).map unaryOperator? = ops.map some := by
  rw [List.map_map]
  exact List.map_congr_left fun op _ => unaryOperator?_mark op

namespace Displays

variable {ops : List UnaryOp} {e : Expr} {ts : List Token}

theorem ofOperand (h : IsOperand e ts) (hread : ReadsAt false .access e ts) : Displays [] e ts :=
  ⟨ts, rfl, h, hread⟩

theorem readsAt (h : Displays ops e ts) :
    ReadsAt (isWord e) (.chain 6) (inFront (ops, e)) ts := by
  obtain ⟨us, rfl, hoperand, hread⟩ := h
  exact .inFront (map_unaryOperator?_mark ops) (hoperand.readsAt hread)

/-- With anything behind that no expression begins with. -/
theorem readsAt_chain (h : Displays ops e ts) {k : Nat} (hk : k ≤ 6) :
    ReadsAt true (.chain k) (inFront (ops, e)) ts :=
  h.readsAt.toBare.looser hk le_rfl

theorem readsAt_expr (h : Displays ops e ts) : ReadsAt true .expr (inFront (ops, e)) ts :=
  (h.readsAt_chain (Nat.zero_le 6)).expr

theorem parens (h : ReadsAt true .expr e ts) (he : isWord e = false) :
    Displays [] e (.mark .openParen :: (ts ++ [.mark .closeParen])) :=
  .ofOperand (.plain _ rfl he) h.parens.access

/-- A word and the sign behind it are operators. -/
theorem readsAt_word {ops' : List UnaryOp} {e' : Expr} {us : List Token} (h : Displays ops e ts)
    (he : isWord e) (h' : Displays ops' e' us) :
    ReadsAt true .expr (inFront (ops ++ .not :: .neg :: ops', e'))
      (ts ++ .mark .minus :: us) := by
  obtain ⟨vs, rfl, hoperand, -⟩ := h
  obtain ⟨vs', rfl, hoperand', hread'⟩ := h'
  obtain rfl : vs = [.name "not"] := by
    cases hoperand with
    | plain _ _ hne | word _ _ hne =>
      rw [hne] at he
      cases he
    | bare => rfl
  have htokens : ops.map (fun op => Token.mark op.mark) ++ [.name "not"] ++
      .mark .minus :: (ops'.map (fun op => .mark op.mark) ++ vs') =
      (ops.map (fun op => .mark op.mark) ++ .name "not" :: .mark .minus ::
        ops'.map (fun op => .mark op.mark)) ++ vs' := by
    simp
  rw [htokens]
  refine ReadsAt.expr (.looser (Nat.zero_le 6) le_rfl
    (.inFront ?_ (hoperand'.readsAt hread').toBare))
  rw [List.map_append, List.map_cons, List.map_cons, map_unaryOperator?_mark,
    map_unaryOperator?_mark, List.map_append]
  rfl

end Displays

theorem isWord_inFront (ops : List UnaryOp) (op : UnaryOp) (ops' : List UnaryOp) (e : Expr) :
    isWord (inFront (ops ++ op :: ops', e)) = false := by
  cases ops <;> rfl

theorem begins_mark {op : BinaryOp} (h : op ≠ .sub) : begins (.mark op.mark) = false := by
  cases op <;> first | rfl | exact absurd rfl h

/-- The only name that the text of a literal is found as. -/
theorem eq_inf_of_shownToken? {v : Value} {t : Token} (h : shownToken? v = some t)
    (ht : literal? t = none) : t = .name "inf" := by
  unfold shownToken? at h
  split at h
  · split_ifs at h
    · obtain rfl := Option.some.inj h
      cases ht
    · split at h
      · exact (Option.some.inj h).symm
      · obtain ⟨n, -, rfl⟩ := Option.map_eq_some_iff.1 h
        cases ht
  · rw [literal?_of_literalToken? h] at ht
    cases ht

/-- The text of a literal. -/
theorem displays_shown {v : Value} {t : Token} (h : shownToken? v = some t) :
    Displays [] (shown v) [t] := by
  rw [shown, h, Option.bind_some]
  cases hliteral : literal? t with
  | some v =>
    exact .ofOperand (.plain [] (unaryOperator?_of_literal? hliteral) rfl)
      (ReadsAt.literal hliteral).access
  | none =>
    obtain rfl := eq_inf_of_shownToken? h hliteral
    exact .ofOperand (.ident "inf" rfl) (ReadsAt.ident rfl).access

/-- The arguments with the tokens that they are read from. -/
theorem exists_args {args : List Expr} {tss : List (List Token)} (h : argTokens? args = some tss)
    (hargs : ∀ a ∈ args, ∀ {ts : List Token}, tokens? a = some ts →
      Displays (displayed a).1 (displayed a).2 ts) :
    ∃ pairs : List (Expr × List Token), pairs.map Prod.fst = displayedArgs args ∧
      pairs.map Prod.snd = tss ∧ ∀ p ∈ pairs, ReadsAt true .expr p.1 p.2 := by
  induction args generalizing tss with
  | nil =>
    obtain rfl := Option.some.inj h
    exact ⟨[], rfl, rfl, by rintro _ ⟨⟩⟩
  | cons a args ih =>
    rw [argTokens?] at h
    obtain ⟨ts, hts, hmap⟩ := Option.bind_eq_some_iff.1 h
    obtain ⟨tss, htss, rfl⟩ := Option.map_eq_some_iff.1 hmap
    obtain ⟨ha, hargs⟩ := List.forall_mem_cons.1 hargs
    obtain ⟨pairs, hfst, hsnd, hpairs⟩ := ih htss hargs
    refine ⟨(inFront (displayed a), ts) :: pairs, ?_, ?_, ?_⟩
    · rw [List.map_cons, hfst, displayedArgs]
    · rw [List.map_cons, hsnd]
    · exact List.forall_mem_cons.2 ⟨(ha hts).readsAt_expr, hpairs⟩

/-- What the text of an expression is read as. -/
theorem displays_of_tokens? {e : Expr} (h : Readable e) {ts : List Token}
    (htokens : tokens? e = some ts) : Displays (displayed e).1 (displayed e).2 ts := by
  induction h generalizing ts with
  | literal hv ht =>
    rw [tokens?, Option.map_eq_some_iff] at htokens
    obtain ⟨t, ht, rfl⟩ := htokens
    exact displays_shown ht
  | scope =>
    obtain rfl := Option.some.inj htokens
    exact .ofOperand (.plain [] rfl rfl) ReadsAt.scope.access
  | @ident name _ hliteral =>
    obtain rfl := Option.some.inj htokens
    exact .ofOperand (.ident name hliteral) (ReadsAt.ident hliteral).access
  | @member target h name _ nullSafe ih =>
    rw [tokens?, Option.map_eq_some_iff] at htokens
    obtain ⟨ts, hts, rfl⟩ := htokens
    obtain ⟨us, rfl, hoperand, hread⟩ := ih hts
    refine ⟨_, List.append_assoc _ _ _, hoperand.append rfl ?_ _, hread.member name nullSafe⟩
    cases nullSafe <;> rfl
  | @index target key h hkey ih ihk =>
    rw [tokens?, Option.bind_eq_some_iff] at htokens
    obtain ⟨ts, hts, hmap⟩ := htokens
    obtain ⟨us, hus, rfl⟩ := Option.map_eq_some_iff.1 hmap
    obtain ⟨vs, rfl, hoperand, hread⟩ := ih hts
    exact ⟨_, List.append_assoc _ _ _, hoperand.append rfl rfl _,
      hread.index (ihk hus).readsAt_expr⟩
  | @call name hname hreserved args hargs ih =>
    rw [tokens?, Option.map_eq_some_iff] at htokens
    obtain ⟨tss, htss, rfl⟩ := htokens
    obtain ⟨pairs, hfst, rfl, hpairs⟩ := exists_args htss ih
    have hread : ReadsAt false .primary _ _ := ReadsAt.call (literal?_eq_none hreserved) hpairs
    rw [hfst] at hread
    exact .ofOperand (.plain _ (unaryOperator?_name hreserved) rfl) hread.access
  | @unary op operand h ih =>
    rw [tokens?, Option.map_eq_some_iff] at htokens
    obtain ⟨ts, hts, rfl⟩ := htokens
    obtain ⟨us, rfl, hoperand, hread⟩ := ih hts
    exact ⟨us, rfl, hoperand, hread⟩
  | @binary op left right hl hr ihl ihr =>
    rw [tokens?, Option.bind_eq_some_iff] at htokens
    obtain ⟨ts, hts, hmap⟩ := htokens
    obtain ⟨us, hus, rfl⟩ := Option.map_eq_some_iff.1 hmap
    rw [displayed]
    split_ifs with hword
    · obtain ⟨rfl, hword⟩ := hword
      exact .parens ((ihl hts).readsAt_word hword (ihr hus)) (isWord_inFront _ _ _ _)
    · have hlevel := Nat.le_of_lt op.precedence_lt
      refine .parens (((ReadsAt.binary ((ihl hts).readsAt.looser hlevel le_rfl) (operator?_mark op)
        (fun hbare => begins_mark fun hsub => hword ⟨hsub, hbare⟩)
        ((ihr hus).readsAt_chain op.precedence_lt)).looser (Nat.zero_le _) hlevel).expr) rfl
  | @conditional c a b hc ha hb ihc iha ihb =>
    rw [tokens?, Option.bind_eq_some_iff] at htokens
    obtain ⟨ts, hts, hbind⟩ := htokens
    obtain ⟨us, hus, hmap⟩ := Option.bind_eq_some_iff.1 hbind
    obtain ⟨vs, hvs, rfl⟩ := Option.map_eq_some_iff.1 hmap
    exact .parens (.conditional ((ihc hts).readsAt_chain (Nat.zero_le 6)) (iha hus).readsAt_expr
      (ihb hvs).readsAt_expr) rfl

/-- The text of an expression is read, unless a numeral in it is none. -/
theorem parse?_text {e : Expr} (h : Readable e) :
    parse? (text e) = (tokens? e).map fun _ => reread e := by
  have hchars := ofChars?_text h .nil
  rw [List.append_nil, Token.ofChars?_nil] at hchars
  cases htokens : tokens? e with
  | none =>
    rw [htokens, Option.bind_none, Token.ofChars?, Option.map_eq_none_iff] at hchars
    rw [parse?, Token.scan?, hchars]
    rfl
  | some ts =>
    rw [htokens, Option.bind_some, Option.map_some, List.append_nil] at hchars
    exact (displays_of_tokens? h htokens).readsAt_expr.parse? hchars

end Expr

end DocTemplate
