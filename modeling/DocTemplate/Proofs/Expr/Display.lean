import DocTemplate.Proofs.Expr.Literal

/-!
# The text of an expression

The tokens of the text of an expression (`Expr.tokens?`) are those of its parts, with parentheses
around infix operators and conditionals, and none otherwise. They are found in the text, whatever
is behind it, as long as that does not make the last token longer (`Expr.ofChars?_text`). There
are none if a number without a point in the text is too large for an integer.
-/

namespace DocTemplate

/-- The sign of an infix operator. -/
def BinaryOp.mark : BinaryOp → Mark
  | or => .bars
  | and => .ampersands
  | eq => .equals
  | ne => .unequal
  | lt => .less
  | le => .lessEqual
  | gt => .greater
  | ge => .greaterEqual
  | add => .plus
  | sub => .minus
  | mul => .star
  | div => .slash
  | rem => .percent

/-- The sign of an operator in front. -/
def UnaryOp.mark : UnaryOp → Mark
  | not => .bang
  | neg => .minus

theorem BinaryOp.toList_symbol (op : BinaryOp) : op.symbol.toList = op.mark.chars := by
  cases op <;> rfl

theorem UnaryOp.toList_symbol (op : UnaryOp) : op.symbol.toList = op.mark.chars := by
  cases op <;> rfl

namespace Expr

/-! ## The tokens of the text of an expression -/

mutual

/-- The tokens of the text of an expression, unless a numeral in it is none. -/
def tokens? : Expr → Option (List Token)
  | literal v => (shownToken? v).map fun t => [t]
  | scope => some [.this]
  | ident name => some [.name name]
  | member target name nullSafe => (tokens? target).map fun ts =>
    ts ++ [.mark (if nullSafe then .queryDot else .dot), .name name]
  | index target key => (tokens? target).bind fun ts => (tokens? key).map fun us =>
    ts ++ .mark .openBracket :: (us ++ [.mark .closeBracket])
  | call name args => (argTokens? args).map fun tss =>
    .name name :: .mark .openParen :: ([.mark .comma].intercalate tss ++ [.mark .closeParen])
  | unary op operand => (tokens? operand).map fun ts => .mark op.mark :: ts
  | binary op left right => (tokens? left).bind fun ts => (tokens? right).map fun us =>
    .mark .openParen :: (ts ++ .mark op.mark :: us ++ [.mark .closeParen])
  | conditional c a b => (tokens? c).bind fun ts => (tokens? a).bind fun us =>
    (tokens? b).map fun vs =>
      .mark .openParen ::
        (ts ++ .mark .query :: (us ++ .mark .colon :: vs) ++ [.mark .closeParen])

/-- The tokens of the texts of some arguments. -/
def argTokens? : List Expr → Option (List (List Token))
  | [] => some []
  | e :: es => (tokens? e).bind fun ts => (argTokens? es).map fun tss => ts :: tss

end

open Token

theorem toList_text_member (target : Expr) (name : String) (nullSafe : Bool) :
    (text (member target name nullSafe)).toList =
      (text target).toList ++
        ((if nullSafe then Mark.queryDot else Mark.dot).chars ++ name.toList) := by
  change (text target ++ (if nullSafe then "?." else ".") ++ name).toList = _
  cases nullSafe <;> simp [Mark.chars]

theorem toList_text_binary (op : BinaryOp) (left right : Expr) :
    (text (binary op left right)).toList = '(' :: ((text left).toList ++ ' ' :: (op.mark.chars ++
      ' ' :: ((text right).toList ++ [')']))) := by
  change ("(" ++ text left ++ " " ++ op.symbol ++ " " ++ text right ++ ")").toList = _
  simp [op.toList_symbol]

theorem toList_text_index (target key : Expr) : (text (index target key)).toList =
    (text target).toList ++ '[' :: ((text key).toList ++ [']']) := by
  change (text target ++ "[" ++ text key ++ "]").toList = _
  simp

theorem toList_text_unary (op : UnaryOp) (operand : Expr) :
    (text (unary op operand)).toList = op.mark.chars ++ (text operand).toList := by
  change (op.symbol ++ text operand).toList = _
  simp [op.toList_symbol]

theorem toList_text_conditional (c a b : Expr) :
    (text (conditional c a b)).toList = '(' :: ((text c).toList ++ ' ' :: '?' :: ' ' ::
      ((text a).toList ++ ' ' :: ':' :: ' ' :: ((text b).toList ++ [')']))) := by
  change ("(" ++ text c ++ " ? " ++ text a ++ " : " ++ text b ++ ")").toList = _
  simp

theorem toList_text_call (name : String) (args : List Expr) :
    (text (call name args)).toList = name.toList ++ '(' ::
      ([',', ' '].intercalate ((argTexts args).map String.toList) ++ [')']) := by
  change (name ++ "(" ++ ", ".intercalate (argTexts args) ++ ")").toList = _
  simp

/-- The point in front of a name. -/
theorem detached_point {name : String} {cs : List Char} (h : Spelling (.name name) cs)
    (rest : List Char) : Detached (Mark.dot.chars ++ (cs ++ rest)) := by
  cases h with
  | name hc _ =>
    refine .point_cons ?_ _
    by_contra hdigit
    rw [Bool.not_eq_false] at hdigit
    rw [startsName_eq_false_of_isDigit hdigit] at hc
    cases hc

theorem exists_of_argTokens?_cons {e : Expr} {es : List Expr} {tss : List (List Token)}
    (h : argTokens? (e :: es) = some tss) : ∃ ts uss, tss = ts :: uss := by
  rw [argTokens?] at h
  obtain ⟨ts, -, h⟩ := Option.bind_eq_some_iff.1 h
  obtain ⟨uss, -, rfl⟩ := Option.map_eq_some_iff.1 h
  exact ⟨ts, uss, rfl⟩

/-- Arguments, from what is known of each of them. -/
theorem ofChars?_argTexts {args : List Expr} {rest : List Char}
    (h : ∀ a ∈ args, ∀ {rest : List Char}, Detached rest → ofChars? ((text a).toList ++ rest) =
      (tokens? a).bind fun ts => (ofChars? rest).map (ts ++ ·)) :
    ofChars? ([',', ' '].intercalate ((argTexts args).map String.toList) ++ ')' :: rest) =
      (argTokens? args).bind fun tss => (ofChars? rest).map fun us =>
        [.mark .comma].intercalate tss ++ .mark .closeParen :: us := by
  induction args with
  | nil =>
    rw [argTexts, argTokens?]
    exact ofChars?_cons (m := .closeParen) rfl trivial
  | cons a args ih =>
    obtain ⟨ha, hargs⟩ := List.forall_mem_cons.1 h
    cases args with
    | nil =>
      rw [argTexts, argTexts, argTokens?, argTokens?]
      simp only [List.map_cons, List.map_nil, List.intercalate_singleton]
      rw [ha (.cons rfl _), ofChars?_cons (m := .closeParen) rfl trivial]
      cases tokens? a <;> cases ofChars? rest <;> simp
    | cons b args =>
      have htexts : [',', ' '].intercalate ((argTexts (a :: b :: args)).map String.toList) =
          (text a).toList ++ ',' :: ' ' ::
            [',', ' '].intercalate ((argTexts (b :: args)).map String.toList) := by
        rw [argTexts, argTexts, List.map_cons, List.map_cons, List.intercalate_cons_cons]
        simp
      rw [htexts, argTokens?]
      simp only [List.append_assoc, List.cons_append]
      rw [ha (.cons rfl _), ofChars?_cons (m := .comma) rfl trivial, ofChars?_blank rfl, ih hargs]
      cases htss : argTokens? (b :: args) with
      | none => cases tokens? a <;> rfl
      | some tss =>
        obtain ⟨ts, uss, rfl⟩ := exists_of_argTokens?_cons htss
        cases tokens? a <;> cases ofChars? rest <;> simp [List.intercalate_cons_cons]

/-- No text of an expression begins as the second half of a sign does. -/
theorem head?_text {e : Expr} (h : Readable e) :
    ∃ c cs, (text e).toList = c :: cs ∧ c ≠ '=' := by
  induction h with
  | literal hv ht =>
    rw [text]
    exact head?_literalText hv ht
  | scope => exact ⟨_, _, rfl, by decide⟩
  | ident hname _ =>
    obtain ⟨cs, hcs⟩ := hname
    rw [text, ← eq_toList_of_spelling hcs]
    exact ne_equals_of_spelling hcs nofun
  | member h _ nullSafe ih =>
    obtain ⟨c, cs, hcs, hc⟩ := ih
    exact ⟨c, _, by rw [toList_text_member, hcs, List.cons_append], hc⟩
  | index h _ ih _ =>
    obtain ⟨c, cs, hcs, hc⟩ := ih
    exact ⟨c, _, by rw [toList_text_index, hcs, List.cons_append], hc⟩
  | call hname _ _ _ =>
    obtain ⟨cs, hcs⟩ := hname
    obtain ⟨c, rest, rfl, hc⟩ := ne_equals_of_spelling hcs nofun
    exact ⟨c, _, by rw [toList_text_call, ← eq_toList_of_spelling hcs, List.cons_append], hc⟩
  | unary op _ _ =>
    rw [toList_text_unary]
    cases op <;> exact ⟨_, _, rfl, by decide⟩
  | binary op _ _ _ _ => exact ⟨_, _, toList_text_binary op _ _, by decide⟩
  | conditional _ _ _ _ _ _ => exact ⟨_, _, toList_text_conditional _ _ _, by decide⟩

/-- A sign in front of a blank. -/
theorem ofChars?_mark_blank (m : Mark) (rest : List Char) :
    ofChars? (m.chars ++ ' ' :: rest) = (ofChars? rest).map (.mark m :: ·) := by
  rw [ofChars?_mark m, ofChars?_blank rfl]
  cases m <;> first | trivial | simp [Apart]

/-- The text of an expression in front of another text: its tokens, then those of the other. -/
theorem ofChars?_text {e : Expr} (h : Readable e) {rest : List Char} (hrest : Detached rest) :
    ofChars? ((text e).toList ++ rest) =
      (tokens? e).bind fun ts => (ofChars? rest).map (ts ++ ·) := by
  induction h generalizing rest with
  | literal hv ht =>
    rw [text, ofChars?_literalText hv ht hrest, tokens?]
    cases shownToken? _ <;> rfl
  | scope =>
    rw [show (text scope).toList = ['#', 't', 'h', 'i', 's'] from rfl,
      ofChars?_append .this trivial]
    rfl
  | @ident name hname _ =>
    obtain ⟨cs, hcs⟩ := hname
    obtain rfl := eq_toList_of_spelling hcs
    rw [text, ofChars?_append hcs (hrest.apart nofun)]
    rfl
  | @member target h name hname nullSafe ih =>
    obtain ⟨cs, hcs⟩ := hname
    obtain rfl := eq_toList_of_spelling hcs
    rw [toList_text_member, List.append_assoc, ih, List.append_assoc, ofChars?_mark,
      ofChars?_append hcs (hrest.apart nofun), tokens?]
    · cases tokens? target <;> cases ofChars? rest <;> simp
    · cases nullSafe <;> trivial
    · cases nullSafe
      · exact detached_point hcs rest
      · exact .cons rfl _
  | @index target key h hkey ih ihk =>
    rw [toList_text_index, List.append_assoc, List.cons_append, List.append_assoc,
      List.singleton_append, ih (.cons rfl _), tokens?,
      ofChars?_cons (m := .openBracket) rfl trivial,
      ihk (.cons rfl _),
      ofChars?_cons (m := .closeBracket) rfl trivial]
    cases tokens? target <;> cases tokens? key <;> cases ofChars? rest <;> simp
  | @call name hname _ args hargs ih =>
    obtain ⟨cs, hcs⟩ := hname
    obtain rfl := eq_toList_of_spelling hcs
    rw [toList_text_call]
    simp only [List.cons_append, List.append_assoc, List.nil_append]
    rw [ofChars?_append hcs (Detached.apart (.cons rfl _) nofun),
      ofChars?_cons (m := .openParen) rfl trivial, ofChars?_argTexts ih, tokens?]
    cases argTokens? args <;> cases ofChars? rest <;> simp
  | @unary op operand h ih =>
    rw [toList_text_unary, List.append_assoc, ofChars?_mark, ih hrest, tokens?]
    · cases tokens? operand <;> cases ofChars? rest <;> simp
    · -- The operator does not run into what its operand begins with.
      obtain ⟨c, cs, hcs, hc⟩ := head?_text h
      rw [hcs]
      cases op
      · simpa [UnaryOp.mark, Apart] using hc
      · trivial
  | @binary op left right hl hr ihl ihr =>
    rw [toList_text_binary]
    simp only [List.cons_append, List.append_assoc, List.nil_append]
    rw [ofChars?_cons (m := .openParen) rfl trivial, ihl (.cons rfl _), ofChars?_blank rfl,
      ofChars?_mark_blank, ihr (.cons rfl _), ofChars?_cons (m := .closeParen) rfl trivial, tokens?]
    cases tokens? left <;> cases tokens? right <;> cases ofChars? rest <;> simp
  | @conditional c a b hc ha hb ihc iha ihb =>
    rw [toList_text_conditional]
    simp only [List.cons_append, List.append_assoc, List.nil_append]
    rw [ofChars?_cons (m := .openParen) rfl trivial, ihc (.cons rfl _), ofChars?_blank rfl,
      ofChars?_cons (m := .query) rfl (by simp [Apart]), ofChars?_blank rfl, iha (.cons rfl _),
      ofChars?_blank rfl, ofChars?_cons (m := .colon) rfl trivial, ofChars?_blank rfl,
      ihb (.cons rfl _), ofChars?_cons (m := .closeParen) rfl trivial, tokens?]
    cases tokens? c <;> cases tokens? a <;> cases tokens? b <;> cases ofChars? rest <;> simp

end Expr

end DocTemplate
