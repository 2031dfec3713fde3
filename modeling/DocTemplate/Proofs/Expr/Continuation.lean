import DocTemplate.Proofs.Expr.Reading

/-!
# What is behind an expression

Reading looks at the tokens behind what it finds, so in general what is found depends on them. It
does not if the last token is a closing parenthesis and the tokens behind it do not go on with an
operand (`Expr.Fresh`): nothing that is found ends within the parenthesis, and where nothing is
found, nothing would be with more tokens (`Expr.continues_readExpr`).

A call is such an expression: its last token is the parenthesis behind its arguments, or the one
around it (`Expr.IsCall.closes`). Hence it is read in front of whatever does not go on with it as
it is alone (`Expr.IsCall.append`).
-/

namespace DocTemplate

namespace Expr

open Reading

/-! ## What is left -/

namespace Reading

variable {α β : Type} {m n : Nat} {ts us : List Lexeme}

/-- What is behind what is found are the last ones of the tokens. -/
def Leaves (ts : List Lexeme) : Reading α n → Prop
  | found _ rest _ => rest <:+ ts
  | _ => True

theorem Leaves.weaken {r : Reading α m} (h : r.Leaves us) (hus : us <:+ ts) (hmn : m ≤ n) :
    (r.weaken hmn).Leaves ts := by
  cases r with
  | found => exact h.trans hus
  | _ => trivial

theorem Leaves.map {r : Reading α n} (h : r.Leaves ts) (f : α → β) : (r.map f).Leaves ts := by
  cases r with
  | found => exact h
  | _ => trivial

theorem Leaves.committed {r : Reading α n} (h : r.Leaves ts) : r.committed.Leaves ts := by
  cases r with
  | found => exact h
  | _ => trivial

end Reading

theorem suffix_of_cons_suffix {t : Lexeme} {us ts : List Lexeme} (h : t :: us <:+ ts) : us <:+ ts :=
  (List.suffix_cons t us).trans h

mutual

theorem leaves_readExpr (ts : List Lexeme) : (readExpr ts).Leaves ts := by
  have hchain := leaves_readChain 0 ts
  rw [readExpr]
  split
  · next condition _ afterQuery hlt heq =>
    rw [heq] at hchain
    have htrue := leaves_readExpr afterQuery
    split
    · next ifTrue _ afterColon hlt' heq' =>
      rw [heq'] at htrue
      have hcolon := (suffix_of_cons_suffix htrue).trans (suffix_of_cons_suffix hchain)
      exact ((leaves_readExpr afterColon).map _).committed.weaken hcolon _
    · trivial
  · exact hchain
termination_by 12 * ts.length + 10
decreasing_by all_goals grind

theorem leaves_readChain (level : Nat) (ts : List Lexeme) : (readChain level ts).Leaves ts := by
  rw [readChain]
  split
  · have hleft := leaves_readChain (level + 1) ts
    split
    · next left rest hlt heq =>
      rw [heq] at hleft
      exact (leaves_readOperands level left rest).weaken hleft _
    · exact hleft
  · exact leaves_readUnary ts
termination_by 12 * ts.length + 3 + (6 - level)
decreasing_by all_goals grind

theorem leaves_readOperands (level : Nat) (left : Expr) (ts : List Lexeme) :
    (readOperands level left ts).Leaves ts := by
  rw [readOperands.eq_def]
  split
  · exact List.suffix_rfl
  · next t rest =>
    split
    · exact List.suffix_rfl
    · next op hop =>
      have hright := leaves_readChain (level + 1) rest
      split
      · next right rest' hlt heq =>
        rw [heq] at hright
        exact (leaves_readOperands level _ rest').weaken (hright.trans (List.suffix_cons t rest)) _
      · exact List.suffix_rfl
      · trivial
termination_by 12 * ts.length
decreasing_by all_goals grind

theorem leaves_readUnary (ts : List Lexeme) : (readUnary ts).Leaves ts := by
  rw [readUnary.eq_def]
  split
  · next rest => exact ((leaves_readUnary rest).map _).weaken (List.suffix_cons _ _) _
  · next rest => exact ((leaves_readUnary rest).map _).weaken (List.suffix_cons _ _) _
  · next spaced rest =>
    have hoperand := leaves_readUnary rest
    split
    · next heq =>
      rw [heq] at hoperand
      exact List.IsSuffix.trans hoperand (List.suffix_cons _ _)
    · exact leaves_readAccess _
    · trivial
  · exact leaves_readAccess _
termination_by 12 * ts.length + 2
decreasing_by all_goals grind

theorem leaves_readAccess (ts : List Lexeme) : (readAccess ts).Leaves ts := by
  have hbase := leaves_readPrimary ts
  rw [readAccess]
  split
  · next base rest hlt heq =>
    rw [heq] at hbase
    exact (leaves_readAccesses base rest).weaken hbase _
  · exact hbase
termination_by 12 * ts.length + 1
decreasing_by all_goals grind

theorem leaves_readAccesses (base : Expr) (ts : List Lexeme) :
    (readAccesses base ts).Leaves ts := by
  rw [readAccesses.eq_def]
  split
  · next l spaced rest => exact (leaves_readAccesses _ rest).weaken ⟨[_, _], rfl⟩ _
  · trivial
  · next l spaced rest => exact (leaves_readAccesses _ rest).weaken ⟨[_, _], rfl⟩ _
  · trivial
  · next rest =>
    have hkey := leaves_readExpr rest
    split
    · next key _ rest' hlt heq =>
      rw [heq] at hkey
      exact (leaves_readAccesses _ rest').weaken
        ((suffix_of_cons_suffix hkey).trans (List.suffix_cons _ rest)) _
    · trivial
  · exact List.suffix_rfl
termination_by 12 * ts.length
decreasing_by all_goals grind

theorem leaves_readPrimary (ts : List Lexeme) : (readPrimary ts).Leaves ts := by
  rw [readPrimary.eq_def]
  split
  · trivial
  · next t rest =>
    split
    · exact List.suffix_cons t rest
    · split
      · exact List.suffix_cons t rest
      · next s _ => exact (leaves_readNamed s rest).weaken (List.suffix_cons t rest) _
      · have he := leaves_readExpr rest
        split
        · next e _ rest' hlt heq =>
          rw [heq] at he
          exact (suffix_of_cons_suffix he).trans (List.suffix_cons t rest)
        · trivial
      · trivial
termination_by 12 * ts.length
decreasing_by all_goals grind

theorem leaves_readNamed (s : String) (ts : List Lexeme) : (readNamed s ts).Leaves ts := by
  rw [readNamed.eq_def]
  split
  · next rest =>
    split
    · exact ⟨[_, _], rfl⟩
    · exact ((leaves_readArgs rest).map _).weaken (List.suffix_cons _ rest) _
  · exact List.suffix_rfl
termination_by 12 * ts.length
decreasing_by all_goals grind

theorem leaves_readArgs (ts : List Lexeme) : (readArgs ts).Leaves ts := by
  have he := leaves_readExpr ts
  rw [readArgs]
  split
  · next e _ rest hlt heq =>
    rw [heq] at he
    exact suffix_of_cons_suffix he
  · next e _ rest hlt heq =>
    rw [heq] at he
    exact ((leaves_readArgs rest).map _).weaken (suffix_of_cons_suffix he) _
  · trivial
termination_by 12 * ts.length + 11
decreasing_by all_goals grind

end

/-! ## What is read with more behind -/

/-- None of the tokens is left, or the last one is a closing parenthesis. -/
def Closed (ts : List Lexeme) : Prop :=
  ∀ t ∈ ts.getLast?, t.token = .mark .closeParen

/-- The last one of the tokens is a closing parenthesis. -/
def Closes (ts : List Lexeme) : Prop :=
  ts ≠ [] ∧ Closed ts

theorem Closed.of_suffix {ts us : List Lexeme} (h : Closed ts) (hus : us <:+ ts) : Closed us := by
  obtain ⟨front, rfl⟩ := hus
  intro t ht
  exact h t (List.mem_getLast?_append_of_mem_getLast? ht)

/-- Something is behind each token but a closing parenthesis. -/
theorem Closed.tail {t : Lexeme} {ts : List Lexeme} (h : Closed (t :: ts))
    (ht : t.token ≠ .mark .closeParen) : Closes ts := by
  refine ⟨?_, h.of_suffix (List.suffix_cons t ts)⟩
  rintro rfl
  exact ht (h t rfl)

/-- The tokens do not go on with an expression. A parenthesis in front of them may go on with a
    name. -/
def Fresh (more : List Lexeme) : Prop :=
  ∀ n, n ≠ 9 → Stops n more

theorem fresh_nil : Fresh [] := by
  rintro n - t ⟨⟩

theorem Stops.append {n : Nat} {rest more : List Lexeme} (h : Stops n rest) (hmore : Stops n more) :
    Stops n (rest ++ more) := by
  intro t ht
  rw [List.head?_append, Option.mem_def, Option.or_eq_some_iff] at ht
  exact ht.elim (h t) fun ht => hmore t ht.2

theorem eq_query_of_binding? {t : Token} (h : binding? t = some 0) : t = .mark .query := by
  unfold binding? at h
  split at h <;> first | rfl | cases h | skip
  obtain ⟨op, -, hop⟩ := Option.map_eq_some_iff.1 h
  cases hop

theorem eq_access_of_binding? {t : Token} (h : binding? t = some 8) :
    t = .mark .dot ∨ t = .mark .queryDot ∨ t = .mark .openBracket := by
  unfold binding? at h
  split at h
  · cases h
  · simp
  · simp
  · simp
  · cases h
  · obtain ⟨op, -, hop⟩ := Option.map_eq_some_iff.1 h
    have hlt := op.precedence_lt
    omega

/-- What is found in front of some tokens is found in front of more of them, and nothing where
    nothing is found. -/
def Reading.Continues {α : Type} {m n : Nat} (more : List Lexeme) (r : Reading α m)
    (r' : Reading α n) : Prop :=
  match r with
  | found a rest _ => r'.Finds a (rest ++ more)
  | absent => r' = absent
  | broken => True

namespace Reading.Continues

variable {α β : Type} {m n m' n' : Nat} {more : List Lexeme} {r : Reading α m} {r' : Reading α n}

theorem weaken (h : Continues more r r') (hm : m ≤ m') (hn : n ≤ n') :
    Continues more (r.weaken hm) (r'.weaken hn) := by
  cases r with
  | found => exact Finds.weaken h hn
  | absent => exact congrArg (Reading.weaken hn) h
  | broken => trivial

theorem map (h : Continues more r r') (f : α → β) : Continues more (r.map f) (r'.map f) := by
  cases r with
  | found => exact Finds.map h f
  | absent => exact congrArg (Reading.map f) h
  | broken => trivial

theorem committed (h : Continues more r r') : Continues more r.committed r'.committed := by
  cases r with
  | found => exact Finds.committed h
  | absent | broken => trivial

end Reading.Continues

/-- What tokens do not begin with, they do not begin with if more are behind. -/
theorem Closes.append_ne_cons {ts : List Lexeme} (h : Closes ts) {t : Lexeme}
    (ht : ∀ rest, ts = t :: rest → False) (more rest : List Lexeme) :
    ts ++ more = t :: rest → False := by
  intro heq
  rcases List.append_eq_cons_iff.1 heq with ⟨hnil, -⟩ | ⟨rest, hcons, -⟩
  · exact h.1 hnil
  · exact ht rest hcons

variable {more : List Lexeme}

mutual

theorem continues_readExpr (hmore : Fresh more) (ts : List Lexeme) (h : Closes ts) :
    Continues more (readExpr ts) (readExpr (ts ++ more)) := by
  have hchain := continues_readChain hmore 0 ts h
  have hleaves := leaves_readChain 0 ts
  rw [readExpr.eq_1 ts]
  split
  · next condition _ afterQuery hlt heq =>
    rw [heq] at hchain hleaves
    obtain ⟨_, hchain⟩ := hchain
    -- The tokens end with a parenthesis, so there are some behind the question mark.
    have hquery := (h.2.of_suffix hleaves).tail nofun
    have htrue := continues_readExpr hmore afterQuery hquery
    have hleaves' := leaves_readExpr afterQuery
    split
    · next ifTrue _ afterColon hlt' heq' =>
      rw [heq'] at htrue hleaves'
      obtain ⟨_, htrue⟩ := htrue
      have hfalse := continues_readExpr hmore afterColon ((hquery.2.of_suffix hleaves').tail nofun)
      rw [readExpr.eq_1 (ts ++ more), hchain]
      simp only [List.cons_append, htrue]
      exact (hfalse.map _).committed.weaken _ _
    · trivial
  · next hne =>
    cases hread : readChain 0 ts with
    | found e rest hlt =>
      rw [hread] at hchain
      -- A question mark is neither in front of the tokens that are left, nor of more of them.
      refine finds_readExpr hchain (Stops.append ?_ (hmore 0 (by decide)))
      rintro ⟨t, spaced⟩ ht hquery
      obtain ⟨rest, rfl⟩ := List.head?_eq_some_iff.1 ht
      obtain rfl := eq_query_of_binding? hquery
      exact hne e spaced rest hlt hread
    | absent =>
      have hchain : readChain 0 (ts ++ more) = absent := by rwa [hread] at hchain
      rw [readExpr, hchain]
      rfl
    | broken => trivial
termination_by 12 * ts.length + 10
decreasing_by all_goals grind

theorem continues_readChain (hmore : Fresh more) (level : Nat) (ts : List Lexeme)
    (h : Closes ts) :
    Continues more (readChain level ts) (readChain level (ts ++ more)) := by
  rw [readChain.eq_1 level ts, readChain.eq_1 level (ts ++ more)]
  split
  · next hlevel =>
    have hleft := continues_readChain hmore (level + 1) ts h
    have hleaves := leaves_readChain (level + 1) ts
    cases hread : readChain (level + 1) ts with
    | found left rest hlt =>
      rw [hread] at hleft hleaves
      obtain ⟨_, hleft⟩ := hleft
      rw [hleft]
      exact (continues_readOperands hmore hlevel left rest (h.2.of_suffix hleaves)).weaken _ _
    | absent =>
      have hleft : readChain (level + 1) (ts ++ more) = absent := by rwa [hread] at hleft
      rw [hleft]
      rfl
    | broken => trivial
  · exact continues_readUnary hmore ts h
termination_by 12 * ts.length + 3 + (6 - level)
decreasing_by all_goals grind

theorem continues_readOperands (hmore : Fresh more) {level : Nat} (hlevel : level < 6)
    (left : Expr) (ts : List Lexeme) (h : Closed ts) :
    Continues more (readOperands level left ts) (readOperands level left (ts ++ more)) := by
  cases ts with
  | nil =>
    -- Only here what is behind the tokens is looked at.
    rw [readOperands]
    exact finds_readOperands (hmore (level + 1) (by omega)) left
  | cons t rest =>
    rw [List.cons_append, readOperands.eq_def level left (t :: rest),
      readOperands.eq_def level left (t :: (rest ++ more))]
    dsimp only
    split
    · exact ⟨_, rfl⟩
    · next op hop =>
      have ht : t.token ≠ .mark .closeParen := by
        rintro ht
        rw [ht] at hop
        cases hop
      have hrest := h.tail ht
      have hright := continues_readChain hmore (level + 1) rest hrest
      have hleaves := leaves_readChain (level + 1) rest
      cases hread : readChain (level + 1) rest with
      | found right rest' hlt =>
        rw [hread] at hright hleaves
        obtain ⟨_, hright⟩ := hright
        rw [hright]
        exact (continues_readOperands hmore hlevel _ rest' (hrest.2.of_suffix hleaves)).weaken _ _
      | absent =>
        have hright : readChain (level + 1) (rest ++ more) = absent := by rwa [hread] at hright
        rw [hright]
        exact ⟨_, rfl⟩
      | broken => trivial
termination_by 12 * ts.length
decreasing_by all_goals grind

theorem continues_readUnary (hmore : Fresh more) (ts : List Lexeme) (h : Closes ts) :
    Continues more (readUnary ts) (readUnary (ts ++ more)) := by
  rw [readUnary.eq_def ts]
  split
  · next rest =>
    rw [List.cons_append, readUnary]
    exact ((continues_readUnary hmore rest (h.2.tail nofun)).map _).weaken _ _
  · next rest =>
    rw [List.cons_append, readUnary]
    exact ((continues_readUnary hmore rest (h.2.tail nofun)).map _).weaken _ _
  · next spaced rest =>
    have hoperand := continues_readUnary hmore rest (h.2.tail nofun)
    have haccess := continues_readAccess hmore _ h
    rw [List.cons_append, readUnary.eq_3]
    cases hread : readUnary rest with
    | found e rest' hlt =>
      rw [hread] at hoperand
      obtain ⟨_, hoperand⟩ := hoperand
      rw [hoperand]
      exact ⟨_, rfl⟩
    | absent =>
      have hoperand : readUnary (rest ++ more) = absent := by rwa [hread] at hoperand
      rw [hoperand]
      exact haccess
    | broken => trivial
  · next hbang hminus hnot =>
    rw [readUnary.eq_4 (ts ++ more) (fun s => h.append_ne_cons (hbang s) more)
      (fun s => h.append_ne_cons (hminus s) more) fun s => h.append_ne_cons (hnot s) more]
    exact continues_readAccess hmore ts h
termination_by 12 * ts.length + 2
decreasing_by all_goals grind

theorem continues_readAccess (hmore : Fresh more) (ts : List Lexeme) (h : Closes ts) :
    Continues more (readAccess ts) (readAccess (ts ++ more)) := by
  have hbase := continues_readPrimary hmore ts h
  have hleaves := leaves_readPrimary ts
  rw [readAccess.eq_1 ts, readAccess.eq_1 (ts ++ more)]
  cases hread : readPrimary ts with
  | found base rest hlt =>
    rw [hread] at hbase hleaves
    obtain ⟨_, hbase⟩ := hbase
    rw [hbase]
    exact (continues_readAccesses hmore base rest (h.2.of_suffix hleaves)).weaken _ _
  | absent =>
    have hbase : readPrimary (ts ++ more) = absent := by rwa [hread] at hbase
    rw [hbase]
    rfl
  | broken => trivial
termination_by 12 * ts.length + 1
decreasing_by all_goals grind

theorem continues_readAccesses (hmore : Fresh more) (base : Expr) (ts : List Lexeme)
    (h : Closed ts) :
    Continues more (readAccesses base ts) (readAccesses base (ts ++ more)) := by
  rw [readAccesses.eq_def base ts]
  split
  · next rest =>
    rw [List.cons_append, List.cons_append, readAccesses]
    exact (continues_readAccesses hmore _ rest (h.of_suffix ⟨[_, _], rfl⟩)).weaken _ _
  · trivial
  · next rest =>
    rw [List.cons_append, List.cons_append, readAccesses]
    exact (continues_readAccesses hmore _ rest (h.of_suffix ⟨[_, _], rfl⟩)).weaken _ _
  · trivial
  · next rest =>
    have hrest := h.tail nofun
    have hkey := continues_readExpr hmore rest hrest
    have hleaves := leaves_readExpr rest
    split
    · next key _ rest' hlt heq =>
      rw [heq] at hkey hleaves
      obtain ⟨_, hkey⟩ := hkey
      rw [List.cons_append, readAccesses, hkey]
      exact (continues_readAccesses hmore _ rest'
        (hrest.2.of_suffix (suffix_of_cons_suffix hleaves))).weaken _ _
    · trivial
  · next _ hqueryDot _ hdot hbracket =>
    refine finds_readAccesses (Stops.append ?_ (hmore 8 (by decide))) base
    rintro ⟨t, spaced⟩ ht haccess
    obtain ⟨rest, rfl⟩ := List.head?_eq_some_iff.1 ht
    rcases eq_access_of_binding? haccess with rfl | rfl | rfl
    · exact hdot spaced rest rfl
    · exact hqueryDot spaced rest rfl
    · exact hbracket spaced rest rfl
termination_by 12 * ts.length
decreasing_by all_goals grind

theorem continues_readPrimary (hmore : Fresh more) (ts : List Lexeme) (h : Closes ts) :
    Continues more (readPrimary ts) (readPrimary (ts ++ more)) := by
  cases ts with
  | nil => exact absurd rfl h.1
  | cons t rest =>
    rw [List.cons_append, readPrimary.eq_def (t :: rest), readPrimary.eq_def (t :: (rest ++ more))]
    dsimp only
    split
    · exact ⟨_, rfl⟩
    · split
      · exact ⟨_, rfl⟩
      · next s hs =>
        exact (continues_readNamed hmore s rest (h.2.tail (by rw [hs]; nofun))).weaken _ _
      · next hs =>
        have hrest := h.2.tail (by rw [hs]; nofun)
        have he := continues_readExpr hmore rest hrest
        split
        · next e _ rest' hlt heq =>
          rw [heq] at he
          obtain ⟨_, he⟩ := he
          rw [he]
          exact ⟨_, rfl⟩
        · trivial
      · rfl
termination_by 12 * ts.length
decreasing_by all_goals grind

theorem continues_readNamed (hmore : Fresh more) (s : String) (ts : List Lexeme)
    (h : Closes ts) :
    Continues more (readNamed s ts) (readNamed s (ts ++ more)) := by
  rw [readNamed.eq_def s ts]
  split
  · next rest =>
    have hrest := h.2.tail nofun
    split
    · rw [List.cons_append, List.cons_append, readNamed]
      exact ⟨_, rfl⟩
    · next hclose =>
      rw [List.cons_append,
        readNamed.eq_2 _ _ (rest ++ more) fun s => hrest.append_ne_cons (hclose s) more]
      exact ((continues_readArgs hmore rest hrest).map _).weaken _ _
  · next hopen =>
    rw [readNamed.eq_3 _ (ts ++ more) fun s => h.append_ne_cons (hopen s) more]
    exact ⟨_, rfl⟩
termination_by 12 * ts.length
decreasing_by all_goals grind

theorem continues_readArgs (hmore : Fresh more) (ts : List Lexeme) (h : Closes ts) :
    Continues more (readArgs ts) (readArgs (ts ++ more)) := by
  have he := continues_readExpr hmore ts h
  have hleaves := leaves_readExpr ts
  rw [readArgs.eq_1 ts]
  split
  · next e _ rest hlt heq =>
    rw [heq] at he
    obtain ⟨_, he⟩ := he
    rw [readArgs, he]
    exact ⟨_, rfl⟩
  · next e _ rest hlt heq =>
    rw [heq] at he hleaves
    obtain ⟨_, he⟩ := he
    have hargs := continues_readArgs hmore rest ((h.2.of_suffix hleaves).tail nofun)
    rw [readArgs.eq_1 (ts ++ more), he]
    exact (hargs.map _).weaken _ _
  · trivial
termination_by 12 * ts.length + 11
decreasing_by all_goals grind

end

/-! ## Calls -/

namespace Reading

variable {α β : Type} {m n : Nat} {rest : List Lexeme}

theorem Finds.of_weaken {r : Reading α m} {hmn : m ≤ n} {a : α}
    (h : (r.weaken hmn).Finds a rest) : r.Finds a rest := by
  obtain ⟨hlt, h⟩ := h
  cases r <;> cases h
  exact ⟨_, rfl⟩

theorem Finds.of_map {r : Reading α n} {f : α → β} {b : β} (h : (r.map f).Finds b rest) :
    ∃ a, r.Finds a rest ∧ f a = b := by
  obtain ⟨hlt, h⟩ := h
  cases r <;> cases h
  exact ⟨_, ⟨_, rfl⟩, rfl⟩

theorem Finds.of_committed {r : Reading α n} {a : α} (h : r.committed.Finds a rest) :
    r.Finds a rest := by
  obtain ⟨hlt, h⟩ := h
  cases r <;> cases h
  exact ⟨_, rfl⟩

end Reading

/-! A call is nothing that has operands or accesses. -/

theorem eq_of_readOperands {level : Nat} {left : Expr} {ts rest : List Lexeme} {name : String}
    {args : List Expr} (h : (readOperands level left ts).Finds (call name args) rest) :
    left = call name args ∧ ts = rest := by
  rw [readOperands.eq_def] at h
  split at h
  · cases h.2
    exact ⟨rfl, rfl⟩
  · split at h
    · cases h.2
      exact ⟨rfl, rfl⟩
    · split at h
      · cases (eq_of_readOperands h.of_weaken).1
      · cases h.2
        exact ⟨rfl, rfl⟩
      · cases h.2
termination_by ts.length
decreasing_by all_goals grind

theorem eq_of_readAccesses {base : Expr} {ts rest : List Lexeme} {name : String}
    {args : List Expr} (h : (readAccesses base ts).Finds (call name args) rest) :
    base = call name args ∧ ts = rest := by
  rw [readAccesses.eq_def] at h
  split at h
  · cases (eq_of_readAccesses h.of_weaken).1
  · cases h.2
  · cases (eq_of_readAccesses h.of_weaken).1
  · cases h.2
  · split at h
    · cases (eq_of_readAccesses h.of_weaken).1
    · cases h.2
  · cases h.2
    exact ⟨rfl, rfl⟩
termination_by ts.length
decreasing_by all_goals grind

section

variable {ts rest : List Lexeme} {name : String} {args : List Expr}

theorem readPrimary_of_readAccess (h : (readAccess ts).Finds (call name args) rest) :
    (readPrimary ts).Finds (call name args) rest := by
  rw [readAccess] at h
  split at h
  · next base rest' hlt heq =>
    obtain ⟨rfl, rfl⟩ := eq_of_readAccesses h.of_weaken
    exact ⟨hlt, heq⟩
  · exact h

theorem readAccess_of_readUnary (h : (readUnary ts).Finds (call name args) rest) :
    (readAccess ts).Finds (call name args) rest := by
  rw [readUnary.eq_def] at h
  split at h
  · obtain ⟨e, -, he⟩ := h.of_weaken.of_map
    cases he
  · obtain ⟨e, -, he⟩ := h.of_weaken.of_map
    cases he
  · split at h
    · cases h.2
    · exact h
    · cases h.2
  · exact h

theorem readUnary_of_readChain {k : Nat} (hk : k ≤ 6)
    (h : (readChain k ts).Finds (call name args) rest) :
    (readUnary ts).Finds (call name args) rest := by
  induction hk using Nat.decreasingInduction with
  | self => rwa [readChain, if_neg (Nat.lt_irrefl 6)] at h
  | of_succ k hk ih =>
    rw [readChain, if_pos hk] at h
    split at h
    · next left rest' hlt heq =>
      obtain ⟨rfl, rfl⟩ := eq_of_readOperands h.of_weaken
      exact ih ⟨hlt, heq⟩
    · exact ih h

theorem readChain_of_readExpr (h : (readExpr ts).Finds (call name args) rest) :
    (readChain 0 ts).Finds (call name args) rest := by
  rw [readExpr] at h
  split at h
  · split at h
    · obtain ⟨e, -, he⟩ := h.of_weaken.of_committed.of_map
      cases he
    · cases h.2
  · exact h

/-- A call alone is all there is of an expression. -/
theorem readPrimary_of_readExpr (h : (readExpr ts).Finds (call name args) rest) :
    (readPrimary ts).Finds (call name args) rest :=
  readPrimary_of_readAccess (readAccess_of_readUnary (readUnary_of_readChain (Nat.zero_le 6)
    (readChain_of_readExpr h)))

end

/-! Its last token is a closing parenthesis. -/

theorem exists_closeParen_of_readArgs {ts rest : List Lexeme} {args : List Expr}
    (h : (readArgs ts).Finds args rest) :
    ∃ s, ⟨.mark .closeParen, s⟩ :: rest <:+ ts := by
  have hleaves := leaves_readExpr ts
  rw [readArgs] at h
  split at h
  · next e s rest' hlt heq =>
    rw [heq] at hleaves
    cases h.2
    exact ⟨s, hleaves⟩
  · next e s rest' hlt heq =>
    rw [heq] at hleaves
    obtain ⟨args, h, -⟩ := h.of_weaken.of_map
    obtain ⟨s, hs⟩ := exists_closeParen_of_readArgs h
    exact ⟨s, hs.trans (suffix_of_cons_suffix hleaves)⟩
  · cases h.2
termination_by ts.length
decreasing_by all_goals grind

theorem exists_closeParen_of_readNamed {s name : String} {ts rest : List Lexeme}
    {args : List Expr} (h : (readNamed s ts).Finds (call name args) rest) :
    s = name ∧ ∃ s, ⟨.mark .closeParen, s⟩ :: rest <:+ ts := by
  rw [readNamed.eq_def] at h
  split at h
  · split at h
    · next s rest' =>
      cases h.2
      exact ⟨rfl, s, List.suffix_cons _ _⟩
    · obtain ⟨args, h, hcall⟩ := h.of_weaken.of_map
      obtain ⟨s, hs⟩ := exists_closeParen_of_readArgs h
      cases hcall
      exact ⟨rfl, s, hs.trans (List.suffix_cons _ _)⟩
  · cases h.2

/-- A call begins with its name or with a parenthesis, and ends with a parenthesis. -/
theorem exists_of_readPrimary {ts rest : List Lexeme} {name : String} {args : List Expr}
    (h : (readPrimary ts).Finds (call name args) rest) :
    ∃ t ts' s, ts = t :: ts' ∧ (t.token = .name name ∨ t.token = .mark .openParen) ∧
      ⟨.mark .closeParen, s⟩ :: rest <:+ ts' := by
  rw [readPrimary.eq_def] at h
  split at h
  · cases h.2
  · next t ts' =>
    split at h
    · cases h.2
    · split at h
      · cases h.2
      · next hname =>
        obtain ⟨rfl, s, hs⟩ := exists_closeParen_of_readNamed h.of_weaken
        exact ⟨t, ts', s, rfl, .inl hname, hs⟩
      · next hopen =>
        have hleaves := leaves_readExpr ts'
        split at h
        · next e s rest' hlt heq =>
          rw [heq] at hleaves
          cases h.2
          exact ⟨t, ts', s, rfl, .inr hopen, hleaves⟩
        · cases h.2
      · cases h.2

/-! It is read from there, whatever does not go on with it. -/

theorem readPrimary_spaced {t : Token} {s : Bool} {ts rest : List Lexeme} {e : Expr}
    (h : (readPrimary (⟨t, s⟩ :: ts)).Finds e rest) (s' : Bool) :
    (readPrimary (⟨t, s'⟩ :: ts)).Finds e rest := by
  rw [readPrimary.eq_def] at h ⊢
  exact h

theorem finds_readChain {ts rest : List Lexeme} {e : Expr} (h : (readUnary ts).Finds e rest)
    (hrest : Fresh rest) {k : Nat} (hk : k ≤ 6) : (readChain k ts).Finds e rest := by
  induction hk using Nat.decreasingInduction with
  | self => rwa [readChain, if_neg (Nat.lt_irrefl 6)]
  | of_succ k hk ih =>
    obtain ⟨_, ih⟩ := ih
    rw [readChain, if_pos hk, ih]
    exact (finds_readOperands (hrest (k + 1) (by omega)) e).weaken _

theorem finds_readExpr_of_readPrimary {ts rest : List Lexeme} {e : Expr}
    (h : (readPrimary ts).Finds e rest) (hts : ∀ t ∈ ts.head?, unaryOperator? t.token = none)
    (hrest : Fresh rest) : (readExpr ts).Finds e rest := by
  have haccess : (readAccess ts).Finds e rest := by
    obtain ⟨_, h⟩ := h
    rw [readAccess, h]
    exact (finds_readAccesses (hrest 8 (by decide)) e).weaken _
  rw [← readUnary_eq_readAccess hts] at haccess
  exact finds_readExpr (finds_readChain haccess hrest (Nat.zero_le 6)) (hrest 0 (by decide))

/-- The tokens are those of the expression, which is a call. Its name is none of the words for
    operators. -/
structure IsCall (e : Expr) (ts : List Lexeme) : Prop where
  eq_call : ∃ name args, e = call name args ∧ name ∉ ["or", "and", "not"]
  reads : (readExpr ts).Finds e []

namespace IsCall

variable {e : Expr} {ts : List Lexeme}

theorem readPrimary (h : IsCall e ts) : (readPrimary ts).Finds e [] := by
  obtain ⟨⟨name, args, rfl, -⟩, hreads⟩ := h
  exact readPrimary_of_readExpr hreads

theorem closes (h : IsCall e ts) : Closes ts := by
  have hprimary := h.readPrimary
  obtain ⟨name, args, rfl, -⟩ := h.eq_call
  obtain ⟨t, ts', s, rfl, -, front, rfl⟩ := exists_of_readPrimary hprimary
  refine ⟨List.cons_ne_nil _ _, fun u hu => ?_⟩
  rw [← List.cons_append, List.getLast?_append, List.getLast?_singleton] at hu
  obtain rfl := Option.some.inj hu
  rfl

/-- The first token of a call begins an expression, but does not go on with one in front of it. -/
theorem head (h : IsCall e ts) :
    ∀ t ∈ ts.head?, begins t.token ∧ unaryOperator? t.token = none ∧
      ∀ n ∈ binding? t.token, n = 9 := by
  have hprimary := h.readPrimary
  obtain ⟨name, args, rfl, hname⟩ := h.eq_call
  obtain ⟨⟨t, s⟩, ts', -, rfl, rfl | rfl, -⟩ := exists_of_readPrimary hprimary
  · rintro _ ⟨⟩
    -- The name is none of the words for operators.
    have hoperator : operator? (.name name) = none := by
      unfold operator?
      split <;> simp_all
    refine ⟨rfl, ?_, ?_⟩
    · unfold unaryOperator?
      split <;> simp_all
    · rintro n hn
      rw [show binding? (.name name) = none from congrArg (Option.map _) hoperator] at hn
      cases hn
  · rintro _ ⟨⟩
    refine ⟨rfl, rfl, ?_⟩
    rintro n ⟨⟩
    rfl

theorem fresh (h : IsCall e ts) (more : List Lexeme) : Fresh (ts ++ more) := by
  obtain ⟨t, ts', rfl⟩ := List.exists_cons_of_ne_nil h.closes.1
  rintro n hn _ ⟨⟩ hbinding
  exact hn ((h.head t rfl).2.2 n hbinding)

/-- A call is read in front of whatever does not go on with it as it is alone. -/
theorem append (h : IsCall e ts) {more : List Lexeme} (hmore : Fresh more) :
    (readExpr (ts ++ more)).Finds e more := by
  -- Nothing is left of the call itself, so operands or accesses could only be behind it.
  have hcontinues := continues_readPrimary hmore ts h.closes
  obtain ⟨_, hprimary⟩ := h.readPrimary
  rw [hprimary] at hcontinues
  refine finds_readExpr_of_readPrimary hcontinues ?_ hmore
  obtain ⟨t, ts', rfl⟩ := List.exists_cons_of_ne_nil h.closes.1
  rintro _ ⟨⟩
  exact (h.head t rfl).2.1

/-- A blank may be before it or not. -/
theorem spaced {t : Token} {s : Bool} (h : IsCall e (⟨t, s⟩ :: ts)) (s' : Bool) :
    IsCall e (⟨t, s'⟩ :: ts) where
  eq_call := h.eq_call
  reads := by
    refine finds_readExpr_of_readPrimary (readPrimary_spaced h.readPrimary s') ?_ fresh_nil
    rintro _ ⟨⟩
    exact (h.head _ rfl).2.1

end IsCall

end Expr

end DocTemplate
