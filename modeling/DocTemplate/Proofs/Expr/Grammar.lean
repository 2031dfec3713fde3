import DocTemplate.Proofs.Expr.Reading
import DocTemplate.Proofs.Expr.Tokens

/-!
# The grammar

`Expr.Phrase l e ts` says that the tokens `ts` are a way to write the expression `e` on a level
of the grammar: the operators by one of their spellings, and any part in parentheses. Each level
is one of those that bind less, so that only what binds less than it has to is in parentheses.

However it is written, an expression is read back (`Expr.parse_of_spells`): each token of a
phrase is found in a text of the phrase, since no two tokens in a row clash
(`Expr.Phrase.whole`), and each level finds what its phrases are of (`Expr.Phrase.readsAt`).
-/

namespace DocTemplate

/-- The ways to write an infix operator. -/
def BinaryOp.tokens : BinaryOp → List Token
  | or => [.mark .bars, .name "or"]
  | and => [.mark .ampersands, .name "and"]
  | eq => [.mark .equals]
  | ne => [.mark .unequal]
  | lt => [.mark .less]
  | le => [.mark .lessEqual]
  | gt => [.mark .greater]
  | ge => [.mark .greaterEqual]
  | add => [.mark .plus]
  | sub => [.mark .minus]
  | mul => [.mark .star]
  | div => [.mark .slash]
  | rem => [.mark .percent]

/-- The ways to write an operator in front. -/
def UnaryOp.tokens : UnaryOp → List Token
  | not => [.mark .bang, .name "not"]
  | neg => [.mark .minus]

namespace Expr

/-- The token of a value that can be written. -/
def literalToken? : Value → Option Token
  | .null => some (.name "null")
  | .bool true => some (.name "true")
  | .bool false => some (.name "false")
  | .int n => some (.int n)
  | .float x => some (.float x)
  | .string s => some (.string s)
  | _ => none

/-- The names that stand for something else than a property or a function. The words `or` and
    `and` do so only behind an operand, where no name can be. -/
def reserved : List String :=
  ["true", "false", "null", "not"]

/-- The ways to write an expression on a level of the grammar. -/
inductive Phrase : Level → Expr → List Token → Prop
  | chain {e : Expr} {ts : List Token} (h : Phrase (.chain 0) e ts) : Phrase .expr e ts
  | tighter {k : Nat} {e : Expr} {ts : List Token} (hk : k < 6)
    (h : Phrase (.chain (k + 1)) e ts) : Phrase (.chain k) e ts
  | operand {e : Expr} {ts : List Token} (h : Phrase .access e ts) : Phrase (.chain 6) e ts
  | target {e : Expr} {ts : List Token} (h : Phrase .primary e ts) : Phrase .access e ts
  /-- The two last parts may be conditionals themselves, without parentheses. -/
  | conditional {c a b : Expr} {tc ta tb : List Token} (hc : Phrase (.chain 0) c tc)
    (ha : Phrase .expr a ta) (hb : Phrase .expr b tb) :
    Phrase .expr (conditional c a b) (tc ++ .mark .query :: (ta ++ .mark .colon :: tb))
  /-- The left operand may have operators of the same precedence, without parentheses. -/
  | binary {op : BinaryOp} {t : Token} {l r : Expr} {tl tr : List Token}
    (hl : Phrase (.chain op.precedence) l tl) (ht : t ∈ op.tokens)
    (hr : Phrase (.chain (op.precedence + 1)) r tr) :
    Phrase (.chain op.precedence) (binary op l r) (tl ++ t :: tr)
  | unary {op : UnaryOp} {t : Token} {e : Expr} {ts : List Token} (ht : t ∈ op.tokens)
    (h : Phrase (.chain 6) e ts) : Phrase (.chain 6) (unary op e) (t :: ts)
  | member {e : Expr} {ts : List Token} (h : Phrase .access e ts) (name : String)
    (nullSafe : Bool) :
    Phrase .access (member e name nullSafe)
      (ts ++ [.mark (if nullSafe then .queryDot else .dot), .name name])
  | index {e k : Expr} {ts tk : List Token} (h : Phrase .access e ts) (hk : Phrase .expr k tk) :
    Phrase .access (index e k) (ts ++ .mark .openBracket :: (tk ++ [.mark .closeBracket]))
  | literal {v : Value} {t : Token} (ht : literalToken? v = some t) :
    Phrase .primary (literal v) [t]
  | scope : Phrase .primary scope [.this]
  | ident {name : String} (hname : name ∉ reserved) : Phrase .primary (ident name) [.name name]
  | call {name : String} (hname : name ∉ reserved) {args : List (Expr × List Token)}
    (hargs : ∀ a ∈ args, Phrase .expr a.1 a.2) :
    Phrase .primary (call name (args.map Prod.fst)) (.name name :: .mark .openParen ::
      ([.mark .comma].intercalate (args.map Prod.snd) ++ [.mark .closeParen]))
  | parens {e : Expr} {ts : List Token} (h : Phrase .expr e ts) :
    Phrase .primary e (.mark .openParen :: (ts ++ [.mark .closeParen]))

/-- What has no infix operators outside of parentheses is a chain of any precedence. -/
theorem Phrase.ofOperand {e : Expr} {ts : List Token} (h : Phrase (.chain 6) e ts) {k : Nat}
    (hk : k ≤ 6) : Phrase (.chain k) e ts :=
  Nat.decreasingInduction (fun _ hk h => .tighter hk h) h hk

theorem Phrase.ofPrimary {e : Expr} {ts : List Token} (h : Phrase .primary e ts) {k : Nat}
    (hk : k ≤ 6) : Phrase (.chain k) e ts :=
  .ofOperand (.operand (.target h)) hk

/-! ## Phrases are read -/

theorem operator?_of_mem_tokens {op : BinaryOp} {t : Token} (h : t ∈ op.tokens) :
    operator? t = some op := by
  cases op <;> simp only [BinaryOp.tokens, List.mem_cons, List.not_mem_nil, or_false] at h <;>
    first | (obtain rfl := h; rfl) | (obtain rfl | rfl := h <;> rfl)

theorem unaryOperator?_of_mem_tokens {op : UnaryOp} {t : Token} (h : t ∈ op.tokens) :
    unaryOperator? t = some op := by
  cases op <;> simp only [UnaryOp.tokens, List.mem_cons, List.not_mem_nil, or_false] at h <;>
    first | (obtain rfl := h; rfl) | (obtain rfl | rfl := h <;> rfl)

theorem literal?_of_literalToken? {v : Value} {t : Token} (h : literalToken? v = some t) :
    literal? t = some v := by
  unfold literalToken? at h
  split at h <;> first | (obtain rfl := Option.some.inj h; rfl) | cases h

theorem literal?_eq_none {name : String} (h : name ∉ reserved) : literal? (.name name) = none := by
  unfold literal?
  split <;> first | rfl | (next heq => cases heq; simp [reserved] at h) | (next heq => cases heq)

theorem unaryOperator?_of_literal? {t : Token} {v : Value} (h : literal? t = some v) :
    unaryOperator? t = none := by
  unfold literal? at h
  split at h <;> first | rfl | cases h

theorem unaryOperator?_name {name : String} (h : name ∉ reserved) :
    unaryOperator? (.name name) = none := by
  unfold unaryOperator?
  split <;> first | rfl | (next heq => cases heq; simp [reserved] at h) | (next heq => cases heq)

/-- On the levels of accesses and operands no phrase begins with an operator. -/
theorem Phrase.exists_cons {l : Level} {e : Expr} {ts : List Token} (h : Phrase l e ts) :
    ∃ t ts', ts = t :: ts' ∧ (l = .access ∨ l = .primary → unaryOperator? t = none) := by
  induction h with
  | chain _ ih | tighter _ _ ih | operand _ ih =>
    obtain ⟨t, ts, rfl, -⟩ := ih
    exact ⟨t, ts, rfl, by simp⟩
  | target _ ih =>
    obtain ⟨t, ts, rfl, ht⟩ := ih
    exact ⟨t, ts, rfl, fun _ => ht (.inr rfl)⟩
  | conditional _ _ _ ih _ _ =>
    obtain ⟨t, ts, rfl, -⟩ := ih
    exact ⟨t, _, rfl, by simp⟩
  | binary _ _ _ ih _ =>
    obtain ⟨t, ts, rfl, -⟩ := ih
    exact ⟨t, _, rfl, by simp⟩
  | unary _ _ _ => exact ⟨_, _, rfl, by simp⟩
  | member _ _ _ ih =>
    obtain ⟨t, ts, rfl, ht⟩ := ih
    exact ⟨t, _, rfl, fun _ => ht (.inl rfl)⟩
  | index _ _ ih _ =>
    obtain ⟨t, ts, rfl, ht⟩ := ih
    exact ⟨t, _, rfl, fun _ => ht (.inl rfl)⟩
  | literal ht =>
    exact ⟨_, _, rfl, fun _ => unaryOperator?_of_literal? (literal?_of_literalToken? ht)⟩
  | scope => exact ⟨_, _, rfl, fun _ => rfl⟩
  | ident hname | call hname _ _ => exact ⟨_, _, rfl, fun _ => unaryOperator?_name hname⟩
  | parens _ _ => exact ⟨_, _, rfl, fun _ => rfl⟩

/-- Each level finds what its phrases are of. -/
theorem Phrase.readsAt {l : Level} {e : Expr} {ts : List Token} (h : Phrase l e ts) :
    ReadsAt false l e ts := by
  induction h with
  | chain _ ih => exact ih.expr
  | tighter hk _ ih => exact ih.chain hk
  | operand h ih =>
    obtain ⟨t, ts, rfl, ht⟩ := h.exists_cons
    exact ih.operand (ht (.inl rfl))
  | target _ ih => exact ih.access
  | conditional _ _ _ ihc iha ihb => exact .conditional ihc.toBare iha.toBare ihb
  | binary _ ht _ ihl ihr => exact .binary ihl (operator?_of_mem_tokens ht) (by simp) ihr
  | unary ht _ ih => exact .unary (unaryOperator?_of_mem_tokens ht) ih
  | member _ name nullSafe ih => exact ih.member name nullSafe
  | index _ _ ih ihk => exact ih.index ihk.toBare
  | literal ht => exact .literal (literal?_of_literalToken? ht)
  | scope => exact .scope
  | ident hname => exact .ident (literal?_eq_none hname)
  | call hname _ ih => exact .call (literal?_eq_none hname) fun a ha => (ih a ha).toBare
  | parens _ ih => exact ih.toBare.parens

/-! ## Phrases are found in their texts -/

/-- Whether an expression ends with the token. -/
def ends : Token → Bool
  | .mark .closeParen | .mark .closeBracket => true
  | .mark _ => false
  | _ => true

/-- Whether the token may stand in front of an expression. -/
def leads : Token → Bool
  | .mark m => m != .dot
  | .name _ => true
  | _ => false

/-- Tokens from the first to the last one of an expression, none of which clashes with the
    next. -/
structure Whole (ts : List Token) : Prop where
  isChain : ts.IsChain fun t u => ¬ Token.clash t u
  head : ∃ t, ts.head? = some t ∧ begins t
  last : ∃ t, ts.getLast? = some t ∧ ends t

theorem not_clash_of_begins {t u : Token} (ht : leads t) (hu : begins u) : ¬ Token.clash t u := by
  unfold Token.clash
  split <;> simp_all [leads, begins]

theorem not_clash_of_ends {t u : Token} (ht : ends t) (hu : leads u ∨ u = .mark .dot) :
    ¬ Token.clash t u := by
  have hnumeral : u.isNumeral = false := by
    rcases hu with hu | rfl
    · cases u <;> first | rfl | cases hu
    · rfl
  unfold Token.clash
  split <;> simp_all [leads, ends]

namespace Whole

theorem single {t : Token} (hbegins : begins t) (hends : ends t) : Whole [t] :=
  ⟨.singleton t, ⟨t, rfl, hbegins⟩, ⟨t, rfl, hends⟩⟩

variable {as bs : List Token} {t : Token}

theorem isChain_cons (ht : leads t) (h : Whole as) :
    (t :: as).IsChain fun t u => ¬ Token.clash t u := by
  obtain ⟨a, ha, hbegins⟩ := h.head
  refine List.isChain_cons.2 ⟨fun u hu => ?_, h.isChain⟩
  obtain rfl := Option.some.inj (ha.symm.trans hu)
  exact not_clash_of_begins ht hbegins

theorem isChain_concat (h : Whole as) (ht : leads t ∨ t = .mark .dot) :
    (as ++ [t]).IsChain fun t u => ¬ Token.clash t u := by
  obtain ⟨z, hz, hends⟩ := h.last
  refine List.isChain_append.2 ⟨h.isChain, .singleton t, fun x hx y hy => ?_⟩
  obtain rfl := Option.some.inj (hz.symm.trans hx)
  obtain rfl := Option.some.inj hy
  exact not_clash_of_ends hends ht

/-- Behind an operator. -/
theorem cons (ht : leads t) (hbegins : begins t) (h : Whole as) : Whole (t :: as) := by
  obtain ⟨z, hz, hends⟩ := h.last
  exact ⟨h.isChain_cons ht, ⟨t, rfl, hbegins⟩, ⟨z, by simp [List.getLast?_cons, hz], hends⟩⟩

/-- In front of a bracket. -/
theorem concat (h : Whole as) (ht : leads t) (hends : ends t) : Whole (as ++ [t]) := by
  obtain ⟨a, ha, hbegins⟩ := h.head
  exact ⟨h.isChain_concat (.inl ht), ⟨a, by simp [ha], hbegins⟩, ⟨t, by simp, hends⟩⟩

/-- On both sides of a token. -/
theorem append (ha : Whole as) (ht : leads t) (hb : Whole bs) : Whole (as ++ t :: bs) := by
  obtain ⟨a, hhead, hbegins⟩ := ha.head
  obtain ⟨z, hlast, hends⟩ := hb.last
  exact ⟨List.isChain_split.2 ⟨ha.isChain_concat (.inl ht), hb.isChain_cons ht⟩,
    ⟨a, by simp [hhead], hbegins⟩, ⟨z, by simp [List.getLast?_cons, hlast], hends⟩⟩

/-- In front of a name that is accessed. -/
theorem access (h : Whole as) (name : String) (nullSafe : Bool) :
    Whole (as ++ [.mark (if nullSafe then .queryDot else .dot), .name name]) := by
  obtain ⟨a, ha, hbegins⟩ := h.head
  refine ⟨List.isChain_split.2 ⟨h.isChain_concat ?_, ?_⟩, ⟨a, by simp [ha], hbegins⟩,
    ⟨.name name, by simp, rfl⟩⟩
  · cases nullSafe
    · exact .inr rfl
    · exact .inl rfl
  · cases nullSafe <;> simp [Token.clash, Token.isNumeral]

theorem intercalate {ts : List (List Token)} (hts : ∀ us ∈ ts, Whole us) (hne : ts ≠ []) :
    Whole ([.mark .comma].intercalate ts) := by
  induction ts with
  | nil => exact absurd rfl hne
  | cons us ts ih =>
    obtain ⟨hus, hts⟩ := List.forall_mem_cons.1 hts
    cases ts with
    | nil => simpa using hus
    | cons vs ts =>
      rw [List.intercalate_cons_cons, List.append_assoc]
      exact hus.append rfl (ih hts (List.cons_ne_nil vs ts))

end Whole

theorem leads_of_mem_tokens {op : BinaryOp} {t : Token} (h : t ∈ op.tokens) : leads t := by
  cases op <;> simp only [BinaryOp.tokens, List.mem_cons, List.not_mem_nil, or_false] at h <;>
    first | (obtain rfl := h; rfl) | (obtain rfl | rfl := h <;> rfl)

theorem begins_of_mem_tokens {op : UnaryOp} {t : Token} (h : t ∈ op.tokens) :
    leads t ∧ begins t := by
  cases op <;> simp only [UnaryOp.tokens, List.mem_cons, List.not_mem_nil, or_false] at h <;>
    first | (obtain rfl := h; decide) | (obtain rfl | rfl := h <;> decide)

theorem begins_of_literalToken? {v : Value} {t : Token} (h : literalToken? v = some t) :
    begins t ∧ ends t := by
  unfold literalToken? at h
  split at h <;> first | (obtain rfl := Option.some.inj h; exact ⟨rfl, rfl⟩) | cases h

/-- No two tokens in a row of a phrase clash. -/
theorem Phrase.whole {l : Level} {e : Expr} {ts : List Token} (h : Phrase l e ts) : Whole ts := by
  induction h with
  | chain _ ih | tighter _ _ ih | operand _ ih | target _ ih => exact ih
  | conditional _ _ _ ihc iha ihb => exact ihc.append rfl (iha.append rfl ihb)
  | binary _ ht _ ihl ihr => exact ihl.append (leads_of_mem_tokens ht) ihr
  | unary ht _ ih =>
    obtain ⟨hleads, hbegins⟩ := begins_of_mem_tokens ht
    exact ih.cons hleads hbegins
  | member _ name nullSafe ih => exact ih.access name nullSafe
  | index _ _ ih ihk => exact ih.append rfl (ihk.concat rfl rfl)
  | literal ht => exact .single (begins_of_literalToken? ht).1 (begins_of_literalToken? ht).2
  | scope => exact .single rfl rfl
  | ident hname => exact .single rfl rfl
  | @call name _ args _ ih =>
    have hname : Whole [.name name] := .single rfl rfl
    cases args with
    | nil => exact ⟨by simp [Token.clash], ⟨_, rfl, rfl⟩, ⟨.mark .closeParen, rfl, rfl⟩⟩
    | cons a args =>
      have hargs : Whole ([.mark .comma].intercalate ((a :: args).map Prod.snd)) :=
        .intercalate (List.forall_mem_map.2 ih) (List.cons_ne_nil _ _)
      exact hname.append rfl (hargs.concat rfl rfl)
  | parens _ ih => exact (ih.concat rfl rfl).cons rfl rfl

/-! ## Texts of phrases -/

/-- What the grammar finds in the tokens of a text is the expression of the text. -/
theorem ReadsAt.parse? {e : Expr} {s : String} {ts : List Token} (h : ReadsAt true .expr e ts)
    (hs : Token.ofChars? s.toList = some ts) : parse? s = some e := by
  obtain ⟨ls, hscan, rfl⟩ := Token.exists_scan?_of_ofChars? hs
  have hread := h ls [] rfl (follows_nil 0) (by rintro - _ ⟨⟩)
  rw [List.append_nil] at hread
  obtain ⟨_, hread⟩ := hread
  rw [Expr.parse?, hscan, Option.bind_some, hread]

/-- However an expression is written, it is read back. -/
theorem parse_of_spells {e : Expr} {ts : List Token} {cs : List Char} (h : Phrase .expr e ts)
    (hcs : Token.Spells ts cs) : parse (String.ofList cs) = .ok e := by
  have htokens : Token.ofChars? (String.ofList cs).toList = some ts := by
    rw [String.toList_ofList]
    exact Token.ofChars?_of_spells hcs h.whole.isChain
  rw [parse, h.readsAt.toBare.parse? htokens]
  rfl

open Token in
/-- Subtractions from the left, operators in words, and blanks only where they have to be. -/
theorem parse_of_spells_conditional :
    ∃ ts cs, Phrase .expr (conditional
        (binary .sub (binary .sub (ident "a") (ident "b"))
          (member (binary .or (unary .not (ident "c")) (ident "d")) "or" true))
        (literal (.string "it's")) (call "f" [literal (.int 10)])) ts ∧
      Spells ts cs ∧ String.ofList cs = "a-b -(not c\nor d)?.or?'it''s':f( 10)" ∧
      parse "a-b -(not c\nor d)?.or?'it''s':f( 10)" = .ok (conditional
        (binary .sub (binary .sub (ident "a") (ident "b"))
          (member (binary .or (unary .not (ident "c")) (ident "d")) "or" true))
        (literal (.string "it's")) (call "f" [literal (.int 10)])) := by
  -- The phrase, from its parts.
  have name {s : String} (hs : s ∉ reserved) {k : Nat} (hk : k ≤ 6) :
      Phrase (.chain k) (ident s) [.name s] := .ofPrimary (.ident hs) hk
  have hnot : Phrase (.chain 0) (unary .not (ident "c")) [.name "not", .name "c"] :=
    .ofOperand (.unary (List.mem_cons_of_mem _ List.mem_cons_self) (name (by decide) le_rfl))
      (by decide)
  have hor : Phrase (.chain 0) (binary .or (unary .not (ident "c")) (ident "d"))
      ([.name "not", .name "c"] ++ .name "or" :: [.name "d"]) :=
    @Phrase.binary .or _ _ _ _ _ hnot (List.mem_cons_of_mem _ List.mem_cons_self)
      (name (by decide) (by decide))
  have hab : Phrase (.chain 4) (binary .sub (ident "a") (ident "b"))
      ([.name "a"] ++ .mark .minus :: [.name "b"]) :=
    @Phrase.binary .sub _ _ _ _ _ (name (by decide) (by decide)) List.mem_cons_self
      (name (by decide) (by decide))
  have hsub := @Phrase.binary .sub _ _ _ _ _ hab List.mem_cons_self <|
    .ofOperand (.operand (.member (.target (.parens (.chain hor))) "or" true)) (by decide)
  have hstring := @Phrase.literal (.string "it's") _ rfl
  have hcall := @Phrase.call "f" (by decide) [(literal (.int 10), [.int 10])]
    (by simpa using .chain (.ofPrimary (.literal rfl) (by decide)))
  have h := Phrase.conditional
    (.tighter (by decide) (.tighter (by decide) (.tighter (by decide) (.tighter (by decide) hsub))))
    (.chain (.ofPrimary hstring (by decide))) (.chain (.ofPrimary hcall (by decide)))
  -- Its text, from the end.
  have blank : Blank [] := by rintro c ⟨⟩
  have space : Blank [' '] := by rintro c (_ | ⟨_, ⟨⟩⟩); rfl
  have line : Blank ['\n'] := by rintro c (_ | ⟨_, ⟨⟩⟩); rfl
  have stop {t : Token} {c : Char} {cs : List Char} (hc : inName c = false) :
      t.isName → ∀ d ∈ (c :: cs).head?, inName d = false := by rintro - d ⟨⟩; exact hc
  have h₁ := Spells.cons space (@Spelling.int 10 ['1', '0'] (.ofAll (by decide) rfl) rfl) nofun <|
    .cons blank (.mark .closeParen) nofun (.nil blank)
  have h₂ := Spells.cons blank (@Spelling.name 'f' [] rfl nofun) (stop rfl) <|
    .cons blank (.mark .openParen) nofun h₁
  have h₃ := Spells.cons blank (.mark .query) nofun <| .cons blank (.string "it's") nofun <|
    .cons blank (.mark .colon) nofun h₂
  have h₄ := Spells.cons blank (.mark .closeParen) nofun <| .cons blank (.mark .queryDot) nofun <|
    .cons blank (@Spelling.ofAll 'o' ['r'] rfl rfl) (stop rfl) h₃
  have h₅ := Spells.cons line (@Spelling.ofAll 'o' ['r'] rfl rfl) (stop rfl) <|
    .cons space (@Spelling.name 'd' [] rfl nofun) (stop rfl) h₄
  have h₆ := Spells.cons blank (@Spelling.ofAll 'n' ['o', 't'] rfl rfl) (stop rfl) <|
    .cons space (@Spelling.name 'c' [] rfl nofun) (stop rfl) h₅
  have h₇ := Spells.cons space (.mark .minus) nofun <| .cons blank (.mark .openParen) nofun h₆
  have h₈ := Spells.cons blank (@Spelling.name 'a' [] rfl nofun) (stop rfl) <|
    .cons blank (.mark .minus) nofun <|
    .cons blank (@Spelling.name 'b' [] rfl nofun) (stop rfl) h₇
  exact ⟨_, _, h, h₈, rfl, parse_of_spells h h₈⟩

end Expr

end DocTemplate
