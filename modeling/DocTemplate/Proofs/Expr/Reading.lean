import DocTemplate.Expr.Parser
import Mathlib.Data.List.Basic
import Mathlib.Data.Nat.Init

/-!
# Rules of reading

What the reader makes of the tokens in front of it, as rules that follow the grammar, level by
level: expressions, chains of the operators of a precedence, operands with operators in front,
with accesses behind, and operands alone (`Expr.Level`). `Expr.ReadsAt bare l e ts` says that the
level `l` finds `e` in the tokens `ts`, whatever is behind them, as long as that does not go on
with `e`: a token goes on with what binds as it does or less (`Expr.binding?`, `Expr.Follows`).
Where the grammar has a chain, what is found is the chain so far, and more of it may follow.

The word `not` is a name where no expression begins behind it. Tokens that end with it are `bare`:
they are only read in front of what no expression begins with (`Expr.Ends`).

Each rule of the grammar is a lemma: `ReadsAt.conditional`, `ReadsAt.binary`, `ReadsAt.unary`,
`ReadsAt.member`, `ReadsAt.index`, `ReadsAt.literal`, `ReadsAt.scope`, `ReadsAt.ident`,
`ReadsAt.call`, `ReadsAt.parens`, and `ReadsAt.bareWord` for the word alone; what is read on a
level is also read on those that bind less.
-/

namespace DocTemplate

namespace Expr

namespace Reading

variable {α β : Type} {m n : Nat}

/-- The value is found, in front of the tokens `rest`. -/
def Finds (r : Reading α n) (a : α) (rest : List Lexeme) : Prop :=
  ∃ h, r = found a rest h

theorem Finds.weaken {r : Reading α m} {a : α} {rest : List Lexeme} (h : r.Finds a rest)
    (hmn : m ≤ n) : (r.weaken hmn).Finds a rest := by
  obtain ⟨h, rfl⟩ := h
  exact ⟨_, rfl⟩

theorem Finds.map {r : Reading α n} {a : α} {rest : List Lexeme} (h : r.Finds a rest)
    (f : α → β) : (r.map f).Finds (f a) rest := by
  obtain ⟨h, rfl⟩ := h
  exact ⟨_, rfl⟩

theorem Finds.committed {r : Reading α n} {a : α} {rest : List Lexeme} (h : r.Finds a rest) :
    r.committed.Finds a rest := by
  obtain ⟨h, rfl⟩ := h
  exact ⟨_, rfl⟩

theorem Finds.unique {r : Reading α n} {a b : α} {s t : List Lexeme} (h : r.Finds a s)
    (h' : r.Finds b t) : a = b ∧ s = t := by
  obtain ⟨_, rfl⟩ := h
  obtain ⟨_, h'⟩ := h'
  cases h'
  exact ⟨rfl, rfl⟩

end Reading

/-- The tokens of what a text is. -/
theorem exists_of_parse {s : String} {e : Expr} (h : parse s = .ok e) :
    ∃ ts, Token.scan? s = some ts ∧ (readExpr ts).Finds e [] := by
  have hparse : parse? s = some e := by
    rw [parse] at h
    cases hp : parse? s <;> rw [hp] at h <;> cases h
    rfl
  obtain ⟨ts, hscan, hread⟩ := Option.bind_eq_some_iff.1 hparse
  refine ⟨ts, hscan, ?_⟩
  split at hread
  · next hlt heq => exact ⟨hlt, Option.some.inj hread ▸ heq⟩
  · cases hread

/-! ## What may follow -/

/-- The level of the grammar at which the token goes on with an expression in front of it. -/
def binding? : Token → Option Nat
  | .mark .query => some 0
  | .mark .dot | .mark .queryDot | .mark .openBracket => some 8
  | .mark .openParen => some 9
  | t => (operator? t).map (·.precedence + 1)

/-- The tokens do not go on with an expression of the level `n` or of one that binds more. -/
def Follows (n : Nat) (rest : List Lexeme) : Prop :=
  ∀ t ∈ rest.head?, ∀ b ∈ binding? t.token, b < n

theorem Follows.mono {m n : Nat} {rest : List Lexeme} (h : Follows m rest) (hmn : m ≤ n) :
    Follows n rest :=
  fun t ht b hb => Nat.lt_of_lt_of_le (h t ht b hb) hmn

theorem follows_cons {n : Nat} {t : Lexeme} {rest : List Lexeme} :
    Follows n (t :: rest) ↔ ∀ b ∈ binding? t.token, b < n := by
  simp [Follows]

theorem follows_mark {n : Nat} (m : Mark) (h : (binding? (.mark m)).all (· < n)) (spaced : Bool)
    (rest : List Lexeme) : Follows n (⟨.mark m, spaced⟩ :: rest) :=
  follows_cons.2 fun b hb => of_decide_eq_true ((Option.all_eq_true _ _).1 h b hb)

/-- No token binds as the operators in front do. -/
theorem Follows.of_eight {rest : List Lexeme} (h : Follows 8 rest) : Follows 7 rest := by
  intro t ht b hb
  refine Nat.lt_of_le_of_ne (Nat.le_of_lt_succ (h t ht b hb)) ?_
  rintro rfl
  unfold binding? at hb
  split at hb <;> first | cases hb | skip
  obtain ⟨op, -, hop⟩ := Option.map_eq_some_iff.1 hb
  have := op.precedence_lt
  omega

theorem follows_nil (n : Nat) : Follows n [] := by
  rintro t ⟨⟩

theorem binding?_of_operator? {t : Token} {op : BinaryOp} (h : operator? t = some op) :
    binding? t = some (op.precedence + 1) := by
  unfold operator? at h
  split at h <;> first | cases h; rfl | cases h

/-- The operator in front of an operand that a token is. -/
def unaryOperator? : Token → Option UnaryOp
  | .mark .bang => some .not
  | .name "not" => some .not
  | .mark .minus => some .neg
  | _ => none

/-- The tokens do not go on with an expression at the level `n`. -/
def Stops (n : Nat) (rest : List Lexeme) : Prop :=
  ∀ t ∈ rest.head?, binding? t.token ≠ some n

theorem Follows.stops {n : Nat} {rest : List Lexeme} (h : Follows n rest) : Stops n rest :=
  fun t ht hn => Nat.lt_irrefl n (h t ht n hn)

/-- No operator of the precedence `k` is in front of the tokens. -/
theorem Stops.operator?_filter {k : Nat} {t : Lexeme} {rest : List Lexeme}
    (h : Stops (k + 1) (t :: rest)) :
    ((operator? t.token).filter fun op => op.precedence = k) = none := by
  rw [Option.filter_eq_none_iff]
  intro op hop hk
  exact h t rfl (of_decide_eq_true hk ▸ binding?_of_operator? hop)

/-- Lexemes of a token and more. -/
theorem map_token_eq_cons_iff {ls : List Lexeme} {t : Token} {ts : List Token} :
    ls.map Lexeme.token = t :: ts ↔
      ∃ spaced l, ls = ⟨t, spaced⟩ :: l ∧ l.map Lexeme.token = ts := by
  rw [List.map_eq_cons_iff]
  constructor
  · rintro ⟨⟨t, spaced⟩, l, rfl, rfl, h⟩
    exact ⟨spaced, l, rfl, h⟩
  · rintro ⟨spaced, l, rfl, h⟩
    exact ⟨⟨t, spaced⟩, l, rfl, rfl, h⟩

/-- No more operands where the chain does not go on. -/
theorem finds_readOperands {k : Nat} {rest : List Lexeme} (h : Stops (k + 1) rest) (e : Expr) :
    (readOperands k e rest).Finds e rest := by
  rw [readOperands.eq_def]
  cases rest with
  | nil => exact ⟨_, rfl⟩
  | cons t rest =>
    simp only [h.operator?_filter]
    exact ⟨_, rfl⟩

/-- No more accesses where none follows. -/
theorem finds_readAccesses {rest : List Lexeme} (h : Stops 8 rest) (e : Expr) :
    (readAccesses e rest).Finds e rest := by
  unfold readAccesses
  split
  · exact absurd rfl (h _ rfl)
  · exact absurd rfl (h _ rfl)
  · exact absurd rfl (h _ rfl)
  · exact absurd rfl (h _ rfl)
  · exact absurd rfl (h _ rfl)
  · exact ⟨_, rfl⟩

/-- No conditional where no question mark follows. -/
theorem finds_readExpr {ts rest : List Lexeme} {e : Expr} (h : (readChain 0 ts).Finds e rest)
    (hrest : Stops 0 rest) : (readExpr ts).Finds e rest := by
  obtain ⟨hlt, hchain⟩ := h
  rw [readExpr, hchain]
  split
  · next heq =>
    cases heq
    exact absurd rfl (hrest _ rfl)
  · exact ⟨_, rfl⟩

/-- No operators are read where none is in front. -/
theorem readUnary_eq_readAccess {ls : List Lexeme}
    (h : ∀ l ∈ ls.head?, unaryOperator? l.token = none) : readUnary ls = readAccess ls := by
  unfold readUnary
  split
  · cases h _ rfl
  · cases h _ rfl
  · cases h _ rfl
  · rfl

/-! ## Where nothing is found -/

/-- Whether an expression begins with the token. -/
def begins : Token → Bool
  | .mark .openParen | .mark .bang | .mark .minus => true
  | .mark _ => false
  | _ => true

theorem readPrimary_of_not_begins {l : Lexeme} (h : begins l.token = false) (ls : List Lexeme) :
    readPrimary (l :: ls) = .absent := by
  obtain ⟨t, spaced⟩ := l
  cases t with
  | mark m => cases m <;> first | (rw [readPrimary]; rfl) | cases h
  | _ => cases h

theorem readUnary_of_not_begins {l : Lexeme} (h : begins l.token = false) (ls : List Lexeme) :
    readUnary (l :: ls) = .absent := by
  rw [readUnary_eq_readAccess, readAccess, readPrimary_of_not_begins h]
  rintro _ ⟨⟩
  obtain ⟨t, spaced⟩ := l
  cases t with
  | mark m => cases m <;> first | rfl | cases h
  | _ => cases h

theorem readChain_of_not_begins {l : Lexeme} (h : begins l.token = false) (ls : List Lexeme)
    {k : Nat} (hk : k ≤ 6) : readChain k (l :: ls) = .absent := by
  induction hk using Nat.decreasingInduction with
  | self => rw [readChain, if_neg (Nat.lt_irrefl 6), readUnary_of_not_begins h]
  | of_succ k hk ih => rw [readChain, if_pos hk, ih]

theorem readExpr_of_not_begins {l : Lexeme} (h : begins l.token = false) (ls : List Lexeme) :
    readExpr (l :: ls) = .absent := by
  rw [readExpr, readChain_of_not_begins h ls (Nat.zero_le 6)]

/-- The tokens do not begin an expression. -/
def Ends (rest : List Lexeme) : Prop :=
  ∀ l ∈ rest.head?, begins l.token = false

theorem ends_mark (m : Mark) (h : begins (.mark m) = false) (spaced : Bool) (rest : List Lexeme) :
    Ends (⟨.mark m, spaced⟩ :: rest) := by
  rintro _ ⟨⟩
  exact h

theorem readUnary_of_ends {rest : List Lexeme} (h : Ends rest) : readUnary rest = .absent := by
  cases rest with
  | nil => rw [readUnary_eq_readAccess (by rintro _ ⟨⟩), readAccess, readPrimary]
  | cons l rest => exact readUnary_of_not_begins (h l rfl) rest

/-! ## Levels -/

/-- The levels of the grammar. -/
inductive Level where
  | expr
  /-- Operands joined by operators of the precedence `k` at least; operands with operators in
      front if `k` is 6. -/
  | chain (k : Nat)
  | access
  | primary

/-- The level finds the expression in the tokens, in front of what does not go on with it. On a
    level of chains the expression is the first of what is joined or accessed. The tokens are
    `bare` if they end with the word `not` as a name; then no expression may begin behind them. -/
def ReadsAt (bare : Bool) : Level → Expr → List Token → Prop
  | .expr, e, ts => ∀ ls rest, ls.map Lexeme.token = ts → Follows 0 rest → (bare → Ends rest) →
      (readExpr (ls ++ rest)).Finds e rest
  | .chain k, e, ts => ∀ ls rest, ls.map Lexeme.token = ts → Follows (k + 2) rest →
      (bare → Ends rest) →
      ∀ x r, (readOperands k e rest).Finds x r → (readChain k (ls ++ rest)).Finds x r
  | .access, e, ts => ∀ ls rest, ls.map Lexeme.token = ts → Follows 9 rest →
      ∀ x r, (readAccesses e rest).Finds x r → (readAccess (ls ++ rest)).Finds x r
  | .primary, e, ts => ∀ ls rest, ls.map Lexeme.token = ts → Follows 9 rest →
      (readPrimary (ls ++ rest)).Finds e rest

namespace ReadsAt

variable {bare : Bool} {e : Expr} {ts : List Token}

/-- Nothing more is asked of what is behind tokens that are not bare. -/
theorem toBare {l : Level} (h : ReadsAt bare l e ts) : ReadsAt true l e ts := by
  cases l with
  | expr => exact fun ls rest hls hrest hends => h ls rest hls hrest fun _ => hends rfl
  | chain k => exact fun ls rest hls hrest hends => h ls rest hls hrest fun _ => hends rfl
  | access | primary => exact h

/-- A whole chain is read where it does not go on. -/
theorem readChain {k : Nat} (h : ReadsAt bare (.chain k) e ts) {ls rest : List Lexeme}
    (hls : ls.map Lexeme.token = ts) (hrest : Follows (k + 1) rest) (hends : bare → Ends rest) :
    (readChain k (ls ++ rest)).Finds e rest :=
  h ls rest hls (hrest.mono (Nat.le_succ _)) hends e rest
    (finds_readOperands hrest.stops e)

/-- All accesses are read where no more follow. -/
theorem readAccess (h : ReadsAt bare .access e ts) {ls rest : List Lexeme}
    (hls : ls.map Lexeme.token = ts) (hrest : Follows 8 rest) :
    (readAccess (ls ++ rest)).Finds e rest :=
  h ls rest hls (hrest.mono (by decide)) e rest (finds_readAccesses hrest.stops e)

/-- Operands with operators in front are no chains. -/
theorem readUnary_iff : ReadsAt bare (.chain 6) e ts ↔ ∀ ls rest, ls.map Lexeme.token = ts →
    Follows 8 rest → (bare → Ends rest) → (Expr.readUnary (ls ++ rest)).Finds e rest := by
  have hchain (l : List Lexeme) : Expr.readChain 6 l = Expr.readUnary l := by
    rw [Expr.readChain, if_neg (Nat.lt_irrefl 6)]
  constructor
  · intro h ls rest hls hrest hends
    rw [← hchain]
    exact h.readChain hls hrest.of_eight hends
  · intro h ls rest hls hrest hends x r hx
    obtain ⟨rfl, rfl⟩ := (finds_readOperands hrest.of_eight.stops e).unique hx
    rw [hchain]
    exact h ls _ hls hrest hends

theorem access (h : ReadsAt bare .primary e ts) : ReadsAt bare .access e ts := by
  intro ls rest hls hrest x r hr
  obtain ⟨hlt, hprimary⟩ := h ls rest hls hrest
  rw [Expr.readAccess, hprimary]
  exact hr.weaken _

theorem chain {k : Nat} (hk : k < 6) (h : ReadsAt bare (.chain (k + 1)) e ts) :
    ReadsAt bare (.chain k) e ts := by
  intro ls rest hls hrest hends x r hr
  obtain ⟨hlt, hchain⟩ := h.readChain hls hrest hends
  rw [Expr.readChain, if_pos hk, hchain]
  exact hr.weaken _

theorem expr (h : ReadsAt bare (.chain 0) e ts) : ReadsAt bare .expr e ts := by
  intro ls rest hls hrest hends
  exact finds_readExpr (h.readChain hls (hrest.mono (by decide)) hends) hrest.stops

/-- A chain is one of the operators that bind less. -/
theorem looser {k n : Nat} (hk : k ≤ n) (hn : n ≤ 6) (h : ReadsAt bare (.chain n) e ts) :
    ReadsAt bare (.chain k) e ts :=
  Nat.decreasingInduction (fun _ hk h => h.chain (Nat.lt_of_lt_of_le hk hn)) h hk

theorem conditional {c a b : Expr} {tc ta tb : List Token} (hc : ReadsAt true (.chain 0) c tc)
    (ha : ReadsAt true .expr a ta) (hb : ReadsAt bare .expr b tb) :
    ReadsAt bare .expr (conditional c a b) (tc ++ .mark .query :: (ta ++ .mark .colon :: tb)) := by
  intro ls rest hls hrest hends
  simp only [List.map_eq_append_iff, map_token_eq_cons_iff] at hls
  obtain ⟨lc, _, rfl, hlc, sq, _, rfl, la, _, rfl, hla, sc, lb, rfl, hlb⟩ := hls
  rw [List.append_assoc, List.cons_append, List.append_assoc, List.cons_append]
  obtain ⟨_, ha⟩ := ha la _ hla (follows_mark .colon rfl sc (lb ++ rest))
    fun _ => ends_mark .colon rfl sc (lb ++ rest)
  obtain ⟨_, hc⟩ := hc.readChain hlc
    (follows_mark .query rfl sq (la ++ ⟨.mark .colon, sc⟩ :: (lb ++ rest)))
    fun _ => ends_mark .query rfl sq (la ++ ⟨.mark .colon, sc⟩ :: (lb ++ rest))
  rw [readExpr, hc]
  dsimp only
  rw [ha]
  exact ((hb lb rest hlb hrest hends).map _).committed.weaken _

/-- The operator must not begin an expression itself behind a bare word. -/
theorem binary {bareLeft : Bool} {l r : Expr} {tl tr : List Token} {op : BinaryOp} {t : Token}
    (hl : ReadsAt bareLeft (.chain op.precedence) l tl) (ht : operator? t = some op)
    (hbegins : bareLeft → begins t = false)
    (hr : ReadsAt bare (.chain (op.precedence + 1)) r tr) :
    ReadsAt bare (.chain op.precedence) (binary op l r) (tl ++ t :: tr) := by
  intro ls rest hls hrest hends x rest' hx
  simp only [List.map_eq_append_iff, map_token_eq_cons_iff] at hls
  obtain ⟨ll, _, rfl, hll, spaced, lr, rfl, hlr⟩ := hls
  rw [List.append_assoc, List.cons_append]
  refine hl ll _ hll ?_ ?_ x rest' ?_
  · rw [follows_cons, binding?_of_operator? ht]
    rintro b ⟨⟩
    exact Nat.lt_succ_self _
  · rintro hbare _ ⟨⟩
    exact hbegins hbare
  · obtain ⟨_, hr⟩ := hr.readChain hlr hrest hends
    have hop : ((operator? t).filter fun o => o.precedence = op.precedence) = some op := by
      simp [ht]
    rw [readOperands.eq_def]
    simp only [hop, hr]
    exact hx.weaken _

theorem unary {op : UnaryOp} {t : Token} (ht : unaryOperator? t = some op)
    (h : ReadsAt bare (.chain 6) e ts) : ReadsAt bare (.chain 6) (unary op e) (t :: ts) := by
  rw [readUnary_iff] at h ⊢
  intro ls rest hls hrest hends
  obtain ⟨_, ls, rfl, hts⟩ := map_token_eq_cons_iff.1 hls
  obtain ⟨_, h⟩ := h ls rest hts hrest hends
  unfold unaryOperator? at ht
  rw [List.cons_append]
  split at ht <;> first | obtain rfl := Option.some.inj ht | cases ht
  all_goals
    rw [readUnary, h]
    exact ⟨_, rfl⟩

/-- An operand alone, which no operator begins. -/
theorem operand {t : Token} (ht : unaryOperator? t = none) (h : ReadsAt bare .access e (t :: ts)) :
    ReadsAt bare (.chain 6) e (t :: ts) := by
  rw [readUnary_iff]
  intro ls rest hls hrest _
  rw [readUnary_eq_readAccess]
  · exact h.readAccess hls hrest
  · obtain ⟨_, ls, rfl, -⟩ := map_token_eq_cons_iff.1 hls
    rintro l ⟨⟩
    exact ht

/-- The word `not` is a name where no expression begins behind it. -/
theorem readUnary_not {l : Lexeme} (hl : l.token = .name "not") {ls : List Lexeme}
    (h : Ends ls) : Expr.readUnary (l :: ls) = Expr.readAccess (l :: ls) := by
  obtain ⟨t, spaced⟩ := l
  obtain rfl := hl
  rw [readUnary, readUnary_of_ends h]

/-- An operand that begins with the word. -/
theorem word {t : Token} (ht : begins t = false)
    (h : ReadsAt bare .access e (.name "not" :: t :: ts)) :
    ReadsAt bare (.chain 6) e (.name "not" :: t :: ts) := by
  rw [readUnary_iff]
  intro ls rest hls hrest _
  have hread := h.readAccess hls hrest
  obtain ⟨_, ls, rfl, hts⟩ := map_token_eq_cons_iff.1 hls
  obtain ⟨_, ls, rfl, -⟩ := map_token_eq_cons_iff.1 hts
  rw [List.cons_append, readUnary_not rfl]
  · exact hread
  · rintro _ ⟨⟩
    exact ht

/-- The word alone. -/
theorem bareWord (h : ReadsAt bare .access e [.name "not"]) :
    ReadsAt true (.chain 6) e [.name "not"] := by
  rw [readUnary_iff]
  intro ls rest hls hrest hends
  have hread := h.readAccess hls hrest
  obtain ⟨_, ls, rfl, hts⟩ := map_token_eq_cons_iff.1 hls
  obtain rfl := List.map_eq_nil_iff.1 hts
  rw [List.cons_append, List.nil_append, readUnary_not rfl (hends rfl)]
  exact hread

theorem member (h : ReadsAt bare .access e ts) (name : String) (nullSafe : Bool) :
    ReadsAt bare .access (member e name nullSafe)
      (ts ++ [.mark (if nullSafe then .queryDot else .dot), .name name]) := by
  intro ls rest hls hrest x r hx
  simp only [List.map_eq_append_iff, map_token_eq_cons_iff, List.map_eq_nil_iff] at hls
  obtain ⟨ls, _, rfl, hls, _, _, rfl, _, _, rfl, rfl⟩ := hls
  rw [List.append_assoc, List.cons_append, List.cons_append, List.nil_append]
  cases nullSafe with
  | false =>
    refine h ls _ hls (follows_mark .dot rfl _ _) x r ?_
    exact (readAccesses.eq_3 _ _ _ _ _).symm ▸ hx.weaken _
  | true =>
    refine h ls _ hls (follows_mark .queryDot rfl _ _) x r ?_
    exact (readAccesses.eq_1 _ _ _ _ _).symm ▸ hx.weaken _

theorem index {k : Expr} {tk : List Token} (h : ReadsAt bare .access e ts)
    (hk : ReadsAt true .expr k tk) :
    ReadsAt bare .access (index e k)
      (ts ++ .mark .openBracket :: (tk ++ [.mark .closeBracket])) := by
  intro ls rest hls hrest x r hx
  simp only [List.map_eq_append_iff, map_token_eq_cons_iff, List.map_eq_nil_iff] at hls
  obtain ⟨ls, _, rfl, hls, _, _, rfl, lk, _, rfl, hlk, s, _, rfl, rfl⟩ := hls
  rw [List.append_assoc, List.cons_append, List.append_assoc, List.cons_append, List.nil_append]
  refine h ls _ hls (follows_mark .openBracket rfl _ _) x r ?_
  obtain ⟨_, hk⟩ := hk lk _ hlk (follows_mark .closeBracket rfl s rest)
    fun _ => ends_mark .closeBracket rfl s rest
  rw [readAccesses, hk]
  exact hx.weaken _

theorem parens (h : ReadsAt true .expr e ts) :
    ReadsAt bare .primary e (.mark .openParen :: (ts ++ [.mark .closeParen])) := by
  intro ls rest hls hrest
  simp only [List.map_eq_append_iff, map_token_eq_cons_iff, List.map_eq_nil_iff] at hls
  obtain ⟨_, _, rfl, ls, _, rfl, hls, s, _, rfl, rfl⟩ := hls
  rw [List.cons_append, List.append_assoc, List.cons_append, List.nil_append]
  obtain ⟨_, h⟩ := h ls _ hls (follows_mark .closeParen rfl s rest)
    fun _ => ends_mark .closeParen rfl s rest
  rw [readPrimary]
  simp only [literal?, h]
  exact ⟨_, rfl⟩

theorem literal {t : Token} {v : Value} (ht : literal? t = some v) :
    ReadsAt bare .primary (literal v) [t] := by
  intro ls rest hls hrest
  simp only [map_token_eq_cons_iff, List.map_eq_nil_iff] at hls
  obtain ⟨_, _, rfl, rfl⟩ := hls
  rw [List.cons_append, readPrimary]
  simp only [ht]
  exact ⟨_, rfl⟩

theorem scope : ReadsAt bare .primary scope [.this] := by
  intro ls rest hls hrest
  simp only [map_token_eq_cons_iff, List.map_eq_nil_iff] at hls
  obtain ⟨_, _, rfl, rfl⟩ := hls
  rw [List.cons_append, readPrimary]
  exact ⟨_, rfl⟩

theorem ident {name : String} (hname : literal? (.name name) = none) :
    ReadsAt bare .primary (ident name) [.name name] := by
  intro ls rest hls hrest
  simp only [map_token_eq_cons_iff, List.map_eq_nil_iff] at hls
  obtain ⟨_, _, rfl, rfl⟩ := hls
  rw [List.cons_append, List.nil_append, readPrimary]
  simp only [hname]
  refine Reading.Finds.weaken ?_ _
  unfold readNamed
  split
  · exact absurd (follows_cons.1 hrest 9 rfl) (by decide)
  · exact ⟨_, rfl⟩

theorem args {a : Expr × List Token} {args : List (Expr × List Token)}
    (h : ∀ b ∈ a :: args, ReadsAt true .expr b.1 b.2) {ls rest : List Lexeme} {spaced : Bool}
    (hls : ls.map Lexeme.token = [.mark .comma].intercalate ((a :: args).map Prod.snd)) :
    (readArgs (ls ++ ⟨.mark .closeParen, spaced⟩ :: rest)).Finds ((a :: args).map Prod.fst)
      rest := by
  induction args generalizing a ls with
  | nil =>
    obtain ⟨_, ha⟩ := h a List.mem_cons_self ls _ (by simpa using hls)
      (follows_mark .closeParen rfl spaced rest) fun _ => ends_mark .closeParen rfl spaced rest
    rw [readArgs, ha]
    exact ⟨_, rfl⟩
  | cons b args ih =>
    rw [List.map_cons, List.map_cons, List.intercalate_cons_cons] at hls
    simp only [List.map_eq_append_iff, map_token_eq_cons_iff, List.append_assoc,
      List.cons_append, List.nil_append] at hls
    obtain ⟨la, _, rfl, hla, s, lb, rfl, hlb⟩ := hls
    have hb := ih (fun b hb => h b (List.mem_cons_of_mem a hb)) hlb
    rw [List.append_assoc, List.cons_append]
    obtain ⟨_, ha⟩ := h a List.mem_cons_self la _ hla
      (follows_mark .comma rfl s (lb ++ ⟨.mark .closeParen, spaced⟩ :: rest))
      fun _ => ends_mark .comma rfl s (lb ++ ⟨.mark .closeParen, spaced⟩ :: rest)
    rw [readArgs, ha]
    exact (hb.map _).weaken _

theorem call {name : String} (hname : literal? (.name name) = none)
    {args : List (Expr × List Token)} (hargs : ∀ a ∈ args, ReadsAt true .expr a.1 a.2) :
    ReadsAt bare .primary (call name (args.map Prod.fst)) (.name name :: .mark .openParen ::
      ([.mark .comma].intercalate (args.map Prod.snd) ++ [.mark .closeParen])) := by
  intro ls rest hls hrest
  simp only [List.map_eq_append_iff, map_token_eq_cons_iff, List.map_eq_nil_iff] at hls
  obtain ⟨_, _, rfl, _, _, rfl, ls, _, rfl, hls, s, _, rfl, rfl⟩ := hls
  rw [List.cons_append, List.cons_append, List.append_assoc, List.cons_append, List.nil_append,
    readPrimary]
  simp only [hname]
  refine Reading.Finds.weaken ?_ _
  cases args with
  | nil =>
    obtain rfl := List.map_eq_nil_iff.1 hls
    rw [List.nil_append, readNamed]
    exact ⟨_, rfl⟩
  | cons a args =>
    have hfinds := @ReadsAt.args a args hargs ls rest s hls
    revert hfinds
    generalize ls ++ ⟨.mark .closeParen, s⟩ :: rest = l
    intro hfinds
    rw [readNamed.eq_def]
    dsimp only
    split
    · -- No expression begins with the parenthesis at the end.
      rw [readArgs, readExpr_of_not_begins rfl] at hfinds
      cases hfinds.choose_spec
    · exact (hfinds.map _).weaken _

end ReadsAt

end Expr

end DocTemplate
