import DocTemplate.Proofs.Expr.Lexing

/-!
# What texts are read as

The tokens of a text are tokens that can be written (`Token.spelled_of_scanFrom?`). An expression
that is read from a text consists of such tokens (`Expr.Readable`): its numbers have no sign, its
names are names, and the words that stand for something else are no names of properties and
functions. The word `not` may be one of a property, where it is found with nothing behind it, but
not of a function, since a parenthesis behind it begins its operand.
-/

namespace DocTemplate

namespace Token

/-- Whether the token can be written. -/
def Spelled (t : Token) : Prop :=
  ∃ cs, t.Spelling cs

/-- A token in front of a text can be written. -/
theorem spelled_of_next? {cs : List Char} {t : Token} {rest : Rest cs}
    (h : next? cs = some (t, rest)) : t.Spelled := by
  have hfound : (next? cs).map bare = some (t, rest.1) := congrArg (Option.map bare) h
  obtain ⟨written, hwritten, -⟩ := next?_iff.1 hfound
  cases hwritten with
  | spelling ht _ => exact ⟨written, ht⟩
  | quoted _ _ => exact ⟨_, .string _⟩

/-- The tokens of a text can be written. -/
theorem spelled_of_scanFrom? {spaced : Bool} {cs : List Char} {ls : List Lexeme}
    (h : scanFrom? spaced cs = some ls) : ∀ l ∈ ls, l.token.Spelled := by
  fun_induction scanFrom? spaced cs generalizing ls with
  | case1 =>
    obtain rfl := Option.some.inj h
    rintro _ ⟨⟩
  | case2 spaced c rest hb ih => exact ih h
  | case3 => cases h
  | case4 spaced c rest hb token r hr hnext ih =>
    obtain ⟨more, hmore, rfl⟩ := Option.map_eq_some_iff.1 h
    exact List.forall_mem_cons.2 ⟨spelled_of_next? hnext, ih hmore⟩

end Token

namespace Expr

/-- The expressions that are read from texts. -/
inductive Readable : Expr → Prop
  | literal {v : Value} {t : Token} (hv : literalToken? v = some t) (ht : t.Spelled) :
    Readable (literal v)
  | scope : Readable scope
  | ident {name : String} (hname : (Token.name name).Spelled)
    (hliteral : literal? (.name name) = none) : Readable (ident name)
  | member {target : Expr} (h : Readable target) {name : String}
    (hname : (Token.name name).Spelled) (nullSafe : Bool) :
    Readable (member target name nullSafe)
  | index {target key : Expr} (h : Readable target) (hkey : Readable key) :
    Readable (index target key)
  | call {name : String} (hname : (Token.name name).Spelled) (hreserved : name ∉ reserved)
    {args : List Expr} (hargs : ∀ a ∈ args, Readable a) : Readable (call name args)
  | unary (op : UnaryOp) {operand : Expr} (h : Readable operand) : Readable (unary op operand)
  | binary (op : BinaryOp) {left right : Expr} (hl : Readable left) (hr : Readable right) :
    Readable (binary op left right)
  | conditional {c a b : Expr} (hc : Readable c) (ha : Readable a) (hb : Readable b) :
    Readable (conditional c a b)

/-- Lexemes of tokens that can be written. -/
def Spelled (ls : List Lexeme) : Prop :=
  ∀ l ∈ ls, l.token.Spelled

theorem spelled_cons {l : Lexeme} {ls : List Lexeme} :
    Spelled (l :: ls) ↔ l.token.Spelled ∧ Spelled ls :=
  List.forall_mem_cons

namespace Reading

variable {α β : Type} {m n : Nat} {p : α → Prop}

/-- What is found has the property, and what is behind it can be written. -/
def Yields (p : α → Prop) : Reading α n → Prop
  | found a rest _ => p a ∧ Spelled rest
  | _ => True

theorem Yields.weaken {r : Reading α m} (h : r.Yields p) (hmn : m ≤ n) :
    (r.weaken hmn).Yields p := by
  cases r with
  | found => exact h
  | _ => trivial

theorem Yields.map {r : Reading α n} (h : r.Yields p) {f : α → β} {p' : β → Prop}
    (hf : ∀ a, p a → p' (f a)) : (r.map f).Yields p' := by
  cases r with
  | found a rest _ => exact ⟨hf a h.1, h.2⟩
  | _ => trivial

theorem Yields.committed {r : Reading α n} (h : r.Yields p) : r.committed.Yields p := by
  cases r with
  | found => exact h
  | _ => trivial

end Reading

theorem literalToken?_of_literal? {t : Token} {v : Value} (h : literal? t = some v) :
    literalToken? v = some t := by
  unfold literal? at h
  split at h <;> first | (obtain rfl := Option.some.inj h; rfl) | cases h

theorem not_mem_reserved {name : String} (hliteral : literal? (.name name) = none)
    (hnot : name ≠ "not") : name ∉ reserved := by
  simp only [reserved, List.mem_cons, List.not_mem_nil, or_false, not_or]
  refine ⟨?_, ?_, ?_, hnot⟩ <;> rintro rfl <;> cases hliteral

open Reading

/-! ## Where something is found, or the text is broken -/

theorem Reading.weaken_ne_absent {α : Type} {m n : Nat} {r : Reading α m} (h : r ≠ .absent)
    (hmn : m ≤ n) : r.weaken hmn ≠ .absent := by
  cases r with
  | absent => exact absurd rfl h
  | found | broken => nofun

theorem readAccesses_ne_absent (base : Expr) (ts : List Lexeme) :
    readAccesses base ts ≠ .absent := by
  rw [readAccesses.eq_def]
  split
  · exact weaken_ne_absent (readAccesses_ne_absent _ _) _
  · rintro ⟨⟩
  · exact weaken_ne_absent (readAccesses_ne_absent _ _) _
  · rintro ⟨⟩
  · split
    · exact weaken_ne_absent (readAccesses_ne_absent _ _) _
    · rintro ⟨⟩
  · rintro ⟨⟩
termination_by ts.length
decreasing_by all_goals grind

/-- A parenthesis commits the reading. -/
theorem readUnary_openParen (spaced : Bool) (ts : List Lexeme) :
    readUnary (⟨.mark .openParen, spaced⟩ :: ts) ≠ .absent := by
  rw [readUnary_eq_readAccess (by rintro _ ⟨⟩; rfl), readAccess, readPrimary]
  simp only [literal?]
  split
  · exact weaken_ne_absent (readAccesses_ne_absent _ _) _
  · next hne =>
    split
    · next e _ rest hlt heq =>
      simp only [heq] at hne
      exact (hne e rest _ rfl).elim
    · rintro ⟨⟩

/-- If the tokens begin with the word `not`, that is no operator. -/
def IsName (ts : List Lexeme) : Prop :=
  ∀ spaced rest, ts = ⟨.name "not", spaced⟩ :: rest → readUnary rest = .absent

/-! ## What is found -/

mutual

theorem yields_readExpr (ts : List Lexeme) (h : Spelled ts) : (readExpr ts).Yields Readable := by
  have hchain := yields_readChain 0 ts h
  rw [readExpr]
  split
  · next condition _ afterQuery hlt heq =>
    rw [heq] at hchain
    obtain ⟨hc, hrest⟩ := hchain
    have htrue := yields_readExpr afterQuery (spelled_cons.1 hrest).2
    split
    · next ifTrue _ afterColon hlt' heq' =>
      rw [heq'] at htrue
      obtain ⟨ha, hrest⟩ := htrue
      have hfalse := yields_readExpr afterColon (spelled_cons.1 hrest).2
      exact ((hfalse.map fun b hb => .conditional hc ha hb).committed).weaken _
    · trivial
  · exact hchain
termination_by 12 * ts.length + 10
decreasing_by all_goals grind

theorem yields_readChain (level : Nat) (ts : List Lexeme) (h : Spelled ts) :
    (readChain level ts).Yields Readable := by
  rw [readChain]
  split
  · next hlevel =>
    have hleft := yields_readChain (level + 1) ts h
    split
    · next left rest hlt heq =>
      rw [heq] at hleft
      exact (yields_readOperands level left rest hleft.1 hleft.2).weaken _
    · exact hleft
  · exact yields_readUnary ts h
termination_by 12 * ts.length + 3 + (6 - level)
decreasing_by all_goals grind

theorem yields_readOperands (level : Nat) (left : Expr) (ts : List Lexeme) (hleft : Readable left)
    (h : Spelled ts) : (readOperands level left ts).Yields Readable := by
  cases ts with
  | nil =>
    rw [readOperands]
    exact ⟨hleft, h⟩
  | cons t rest =>
    rw [readOperands]
    split
    · exact ⟨hleft, h⟩
    · next op hop =>
      have hright := yields_readChain (level + 1) rest (spelled_cons.1 h).2
      split
      · next right rest' hlt heq =>
        rw [heq] at hright
        exact (yields_readOperands level (.binary op left right) rest' (.binary op hleft hright.1)
          hright.2).weaken _
      · exact ⟨hleft, h⟩
      · trivial
termination_by 12 * ts.length
decreasing_by all_goals grind

theorem yields_readUnary (ts : List Lexeme) (h : Spelled ts) :
    (readUnary ts).Yields Readable := by
  rw [readUnary.eq_def]
  split
  · next rest =>
    exact ((yields_readUnary rest (spelled_cons.1 h).2).map fun _ => .unary .not).weaken _
  · next rest =>
    exact ((yields_readUnary rest (spelled_cons.1 h).2).map fun _ => .unary .neg).weaken _
  · next spaced rest =>
    have hoperand := yields_readUnary rest (spelled_cons.1 h).2
    split
    · next heq =>
      rw [heq] at hoperand
      exact ⟨.unary .not hoperand.1, hoperand.2⟩
    · next heq =>
      refine yields_readAccess _ h ?_
      rintro _ _ ⟨⟩
      exact heq
    · trivial
  · next hnot => exact yields_readAccess _ h fun spaced rest heq => (hnot spaced rest heq).elim
termination_by 12 * ts.length + 2
decreasing_by all_goals grind

theorem yields_readAccess (ts : List Lexeme) (h : Spelled ts) (hnot : IsName ts) :
    (readAccess ts).Yields Readable := by
  have hbase := yields_readPrimary ts h hnot
  rw [readAccess]
  split
  · next base rest hlt heq =>
    rw [heq] at hbase
    exact (yields_readAccesses base rest hbase.1 hbase.2).weaken _
  · exact hbase
termination_by 12 * ts.length + 1
decreasing_by all_goals grind

theorem yields_readAccesses (base : Expr) (ts : List Lexeme) (hbase : Readable base)
    (h : Spelled ts) : (readAccesses base ts).Yields Readable := by
  rw [readAccesses.eq_def]
  split
  · next s _ rest =>
    obtain ⟨hname, hrest⟩ := spelled_cons.1 (spelled_cons.1 h).2
    exact (yields_readAccesses _ rest (.member hbase hname true) hrest).weaken _
  · trivial
  · next s _ rest =>
    obtain ⟨hname, hrest⟩ := spelled_cons.1 (spelled_cons.1 h).2
    exact (yields_readAccesses _ rest (.member hbase hname false) hrest).weaken _
  · trivial
  · next rest =>
    have hkey := yields_readExpr rest (spelled_cons.1 h).2
    split
    · next key _ rest' hlt heq =>
      rw [heq] at hkey
      exact (yields_readAccesses _ rest' (.index hbase hkey.1) (spelled_cons.1 hkey.2).2).weaken _
    · trivial
  · exact ⟨hbase, h⟩
termination_by 12 * ts.length
decreasing_by all_goals grind

theorem yields_readPrimary (ts : List Lexeme) (h : Spelled ts) (hnot : IsName ts) :
    (readPrimary ts).Yields Readable := by
  cases ts with
  | nil =>
    rw [readPrimary]
    trivial
  | cons t rest =>
    obtain ⟨ht, hrest⟩ := spelled_cons.1 h
    rw [readPrimary]
    split
    · next v hv => exact ⟨.literal (literalToken?_of_literal? hv) ht, hrest⟩
    · next hliteral =>
      split
      · exact ⟨.scope, hrest⟩
      · next s hs =>
        obtain ⟨t, spaced⟩ := t
        obtain rfl := hs
        refine (yields_readNamed s rest ht hliteral hrest ?_).weaken _
        rintro rfl
        exact hnot spaced rest rfl
      · have he := yields_readExpr rest hrest
        split
        · next e _ rest' hlt heq =>
          rw [heq] at he
          exact ⟨he.1, (spelled_cons.1 he.2).2⟩
        · trivial
      · trivial
termination_by 12 * ts.length
decreasing_by all_goals grind

theorem yields_readNamed (s : String) (ts : List Lexeme) (hname : (Token.name s).Spelled)
    (hliteral : literal? (.name s) = none) (h : Spelled ts)
    (hnot : s = "not" → readUnary ts = .absent) : (readNamed s ts).Yields Readable := by
  rw [readNamed.eq_def]
  split
  · next spaced rest =>
    have hreserved := not_mem_reserved hliteral fun hs => readUnary_openParen spaced rest (hnot hs)
    have hrest := (spelled_cons.1 h).2
    split
    · exact ⟨.call hname hreserved (by rintro _ ⟨⟩), (spelled_cons.1 hrest).2⟩
    · exact ((yields_readArgs rest hrest).map fun args hargs =>
        Readable.call hname hreserved hargs).weaken _
  · exact ⟨.ident hname hliteral, h⟩
termination_by 12 * ts.length
decreasing_by all_goals grind

theorem yields_readArgs (ts : List Lexeme) (h : Spelled ts) :
    (readArgs ts).Yields fun args => ∀ a ∈ args, Readable a := by
  have he := yields_readExpr ts h
  rw [readArgs]
  split
  · next e _ rest hlt heq =>
    rw [heq] at he
    exact ⟨List.forall_mem_singleton.2 he.1, (spelled_cons.1 he.2).2⟩
  · next e _ rest hlt heq =>
    rw [heq] at he
    have hargs := yields_readArgs rest (spelled_cons.1 he.2).2
    exact (hargs.map fun args hargs => List.forall_mem_cons.2 ⟨he.1, hargs⟩).weaken _
  · trivial
termination_by 12 * ts.length + 11
decreasing_by all_goals grind

end

/-- What a text is read as. -/
theorem readable_of_parse {s : String} {e : Expr} (h : parse s = .ok e) : Readable e := by
  obtain ⟨ts, hscan, _, hread⟩ := exists_of_parse h
  have hyields := yields_readExpr ts (Token.spelled_of_scanFrom? hscan)
  rw [hread] at hyields
  exact hyields.1

end Expr

end DocTemplate
