import DocTemplate.Proofs.Expr.Grammar

/-!
# Texts between quotes

A text is written between quotes in one of four styles (`Token.Quotation`). In three of them the
closing quote is doubled inside. In the fourth, between straight double quotes, a quote or a
backslash stands behind a backslash, and so may a line break or a tab, as a letter
(`Token.Escapes`). The quotes of the other styles are characters like any other.

Whatever characters a text has, it can be written in each style, and what is written is read as the
text (`Expr.parse_quoted`). Conversely, what is read behind an opening quote is only what is written
for a text (`Token.Quotation.tail?_iff`): a doubled quote does not end it, so behind the closing
quote there must not be another one.
-/

namespace DocTemplate

namespace Token

/-- The styles of quotes. -/
inductive Quotation where
  /-- Straight single quotes. -/
  | straight
  /-- Typographic single quotes. -/
  | single
  /-- Typographic double quotes. -/
  | double
  /-- Straight double quotes, with backslashes inside. -/
  | escaped
  deriving DecidableEq, Repr

/-- What is written between straight double quotes for the characters of a text. Line breaks and
    tabs may be written as they are. -/
inductive Escapes : List Char → List Char → Prop
  | nil : Escapes [] []
  | quote {cs written : List Char} (h : Escapes cs written) :
    Escapes ('"' :: cs) ('\\' :: '"' :: written)
  | backslash {cs written : List Char} (h : Escapes cs written) :
    Escapes ('\\' :: cs) ('\\' :: '\\' :: written)
  | newline {cs written : List Char} (h : Escapes cs written) :
    Escapes ('\n' :: cs) ('\\' :: 'n' :: written)
  | tab {cs written : List Char} (h : Escapes cs written) :
    Escapes ('\t' :: cs) ('\\' :: 't' :: written)
  | plain {c : Char} (hquote : c ≠ '"') (hbackslash : c ≠ '\\') {cs written : List Char}
    (h : Escapes cs written) : Escapes (c :: cs) (c :: written)

namespace Quotation

/-- The quote in front of the text. -/
def opening : Quotation → Char
  | straight => '\''
  | single => '‘'
  | double => '“'
  | escaped => '"'

/-- The quote behind the text. -/
def closing : Quotation → Char
  | straight => '\''
  | single => '’'
  | double => '”'
  | escaped => '"'

/-- What is written between the quotes for the characters of a text. -/
def Encodes : Quotation → List Char → List Char → Prop
  | escaped, cs, written => Escapes cs written
  | q, cs, written => written = doubling q.closing cs

/-- A way to write a text. -/
def Writes (q : Quotation) (s : String) (written : List Char) : Prop :=
  ∃ inner, q.Encodes s.toList inner ∧ written = q.opening :: (inner ++ [q.closing])

/-- What is behind the closing quote does not make it a doubled one. -/
def Ends (q : Quotation) (rest : List Char) : Prop :=
  q ≠ escaped → rest.head? ≠ some q.closing

end Quotation

/-! ## Texts are written -/

/-- Every text has an escaped form. -/
theorem exists_escapes (cs : List Char) : ∃ written, Escapes cs written := by
  induction cs with
  | nil => exact ⟨[], .nil⟩
  | cons c cs ih =>
    obtain ⟨written, h⟩ := ih
    rcases eq_or_ne c '"' with rfl | hquote
    · exact ⟨_, .quote h⟩
    rcases eq_or_ne c '\\' with rfl | hbackslash
    · exact ⟨_, .backslash h⟩
    exact ⟨_, .plain hquote hbackslash h⟩

theorem Quotation.exists_writes (q : Quotation) (s : String) : ∃ written, q.Writes s written := by
  match q with
  | straight | single | double => exact ⟨_, _, rfl, rfl⟩
  | escaped =>
    obtain ⟨written, h⟩ := exists_escapes s.toList
    exact ⟨_, _, h, rfl⟩

/-! ## What is written is read -/

theorem escapedTail?_pair {x c : Char} (hx : escaped? x = some c) (read cs : List Char) :
    (escapedTail? read ('\\' :: x :: cs)).map bare = (escapedTail? (c :: read) cs).map bare := by
  rw [escapedTail?]
  simp only [hx]
  rw [Option.map_map]
  rfl

theorem escapedTail?_plain {c : Char} (hquote : c ≠ '"') (hbackslash : c ≠ '\\')
    (read cs : List Char) :
    (escapedTail? read (c :: cs)).map bare = (escapedTail? (c :: read) cs).map bare := by
  rw [escapedTail?.eq_4 _ _ _ (fun h => hquote h) (fun _ _ h _ => hbackslash h), if_neg hbackslash,
    Option.map_map]
  rfl

theorem escapedTail?_escapes {cs written : List Char} (h : Escapes cs written)
    (read rest : List Char) :
    (escapedTail? read (written ++ '"' :: rest)).map bare =
      some (String.ofList (read.reverse ++ cs), rest) := by
  have hcons (c : Char) (read cs : List Char) :
      (c :: read).reverse ++ cs = read.reverse ++ c :: cs := by
    rw [List.reverse_cons, List.append_assoc, List.singleton_append]
  induction h generalizing read with
  | nil =>
    rw [List.append_nil]
    rfl
  | quote _ ih => exact (escapedTail?_pair rfl read _).trans ((ih _).trans (by rw [hcons]))
  | backslash _ ih => exact (escapedTail?_pair rfl read _).trans ((ih _).trans (by rw [hcons]))
  | newline _ ih => exact (escapedTail?_pair rfl read _).trans ((ih _).trans (by rw [hcons]))
  | tab _ ih => exact (escapedTail?_pair rfl read _).trans ((ih _).trans (by rw [hcons]))
  | plain hquote hbackslash _ ih =>
    exact (escapedTail?_plain hquote hbackslash read _).trans ((ih _).trans (by rw [hcons]))

/-! ## Only what is written is read -/

theorem exists_of_quotedTail? {close : Char} {read cs rest : List Char} {s : String}
    (h : (quotedTail? close read cs).map bare = some (s, rest)) :
    ∃ inner, s = String.ofList (read.reverse ++ inner) ∧
      cs = doubling close inner ++ close :: rest ∧ rest.head? ≠ some close := by
  fun_induction quotedTail? close read cs with
  | case1 => cases h
  | case2 read =>
    obtain ⟨rfl, rfl⟩ := Prod.mk.inj (Option.some.inj h)
    exact ⟨[], by simp, rfl, nofun⟩
  | case3 => cases h
  | case4 read cs ih =>
    -- a doubled quote
    rw [Option.map_map] at h
    obtain ⟨inner, rfl, rfl, hrest⟩ := ih h
    exact ⟨close :: inner, by simp, by simp, hrest⟩
  | case5 read d cs hd =>
    obtain ⟨rfl, rfl⟩ := Prod.mk.inj (Option.some.inj h)
    exact ⟨[], by simp, rfl, fun hhead => hd (Option.some.inj hhead)⟩
  | case6 read c d cs hc ih =>
    rw [Option.map_map] at h
    obtain ⟨inner, rfl, hcs, hrest⟩ := ih h
    exact ⟨c :: inner, by simp, by rw [doubling_cons_of_ne hc, hcs, List.cons_append], hrest⟩

theorem escapes_cons_of_escaped? {x c : Char} (hx : escaped? x = some c) {cs written : List Char}
    (h : Escapes cs written) : Escapes (c :: cs) ('\\' :: x :: written) := by
  unfold escaped? at hx
  split at hx
  · exact Option.some.inj hx ▸ h.quote
  · exact Option.some.inj hx ▸ h.backslash
  · exact Option.some.inj hx ▸ h.newline
  · exact Option.some.inj hx ▸ h.tab
  · cases hx

theorem exists_of_escapedTail? {read cs rest : List Char} {s : String}
    (h : (escapedTail? read cs).map bare = some (s, rest)) :
    ∃ inner written, s = String.ofList (read.reverse ++ inner) ∧ Escapes inner written ∧
      cs = written ++ '"' :: rest := by
  fun_induction escapedTail? read cs with
  | case1 => cases h
  | case2 read cs =>
    obtain ⟨rfl, rfl⟩ := Prod.mk.inj (Option.some.inj h)
    exact ⟨[], [], by simp, .nil, rfl⟩
  | case3 read x cs c hx ih =>
    rw [Option.map_map] at h
    obtain ⟨inner, written, rfl, hescapes, rfl⟩ := ih h
    exact ⟨c :: inner, _, by simp, escapes_cons_of_escaped? hx hescapes, rfl⟩
  | case4 => cases h
  | case5 => cases h
  | case6 read c cs hquote _ hbackslash ih =>
    rw [Option.map_map] at h
    obtain ⟨inner, written, rfl, hescapes, rfl⟩ := ih h
    exact ⟨c :: inner, c :: written, by simp, .plain (fun hc => hquote hc) hbackslash hescapes, rfl⟩

/-! ## Behind the opening quote -/

namespace Quotation

/-- The text behind an opening quote, and what is behind the closing one. -/
def tail? : Quotation → List Char → Option (String × List Char)
  | escaped, cs => (escapedTail? [] cs).map bare
  | q, cs => (quotedTail? q.closing [] cs).map bare

variable {q : Quotation} {s : String} {cs rest : List Char}

theorem next?_opening (q : Quotation) (cs : List Char) :
    (next? (q.opening :: cs)).map bare = (q.tail? cs).map (Prod.map string id) := by
  cases q with
  | straight =>
    rw [opening, next?.eq_2, tail?, Option.map_map, Option.map_map]
    · rfl
    · rintro ⟨⟩
  | single =>
    rw [opening, next?.eq_3, tail?, Option.map_map, Option.map_map]
    · rfl
    · rintro ⟨⟩
  | double =>
    rw [opening, next?.eq_4, tail?, Option.map_map, Option.map_map]
    · rfl
    · rintro ⟨⟩
  | escaped =>
    rw [opening, next?.eq_5, tail?, Option.map_map, Option.map_map]
    rfl

theorem tail?_iff : q.tail? cs = some (s, rest) ↔
    ∃ inner, q.Encodes s.toList inner ∧ cs = inner ++ q.closing :: rest ∧ q.Ends rest := by
  have hdoubling (q : Quotation) (hq : q ≠ escaped) :
      (quotedTail? q.closing [] cs).map bare = some (s, rest) ↔ ∃ inner,
        inner = doubling q.closing s.toList ∧ cs = inner ++ q.closing :: rest ∧ q.Ends rest := by
    constructor
    · intro h
      obtain ⟨inner, rfl, hcs, hrest⟩ := exists_of_quotedTail? h
      exact ⟨doubling q.closing inner, by simp, hcs, fun _ => hrest⟩
    · rintro ⟨_, rfl, rfl, hrest⟩
      rw [quotedTail?_doubling q.closing [] s.toList (hrest hq), List.reverse_nil, List.nil_append,
        String.ofList_toList]
  match q with
  | straight => exact hdoubling straight nofun
  | single => exact hdoubling single nofun
  | double => exact hdoubling double nofun
  | escaped =>
    constructor
    · intro h
      obtain ⟨inner, written, rfl, hescapes, rfl⟩ := exists_of_escapedTail? h
      exact ⟨written, by simpa [Encodes] using hescapes, rfl, fun hne => absurd rfl hne⟩
    · rintro ⟨written, hescapes, rfl, -⟩
      have htail := escapedTail?_escapes hescapes [] rest
      rwa [List.reverse_nil, List.nil_append, String.ofList_toList] at htail

end Quotation

/-- A text between quotes is found in front of what does not double the closing quote. -/
theorem next?_of_writes {q : Quotation} {s : String} {written rest : List Char}
    (h : q.Writes s written) (hrest : q.Ends rest) :
    (next? (written ++ rest)).map bare = some (string s, rest) := by
  obtain ⟨inner, hinner, rfl⟩ := h
  rw [List.cons_append, List.append_assoc, List.singleton_append, q.next?_opening,
    Quotation.tail?_iff.2 ⟨inner, hinner, rfl, hrest⟩]
  rfl

end Token

namespace Expr

open Token

/-- Every text can be written in every style of quotes, and however it is written, it is read
    back. -/
theorem parse_quoted (q : Quotation) (s : String) :
    (∃ written, q.Writes s written) ∧ ∀ written, q.Writes s written →
      parse (String.ofList written) = .ok (literal (.string s)) := by
  refine ⟨q.exists_writes s, fun written h => ?_⟩
  have hends : q.Ends [] := by rintro - ⟨⟩
  have hnext := next?_of_writes h hends
  rw [List.append_nil] at hnext
  have htokens : ofChars? (String.ofList written).toList = some [.string s] := by
    rw [String.toList_ofList, ofChars?_of_next? hnext, ofChars?_nil]
    rfl
  have hread : Phrase .expr (literal (.string s)) [.string s] :=
    .chain (.ofPrimary (.literal rfl) (Nat.zero_le 6))
  rw [parse, hread.readsAt.toBare.parse? htokens]
  rfl

/-- Closing quotes at both ends of a text with others in it, and a text with quotes, a backslash,
    and line breaks written in both ways. -/
theorem parse_quoted_mixed :
    parse "‘’’a'\"”’’’" = .ok (literal (.string "’a'\"”’")) ∧
      parse "\"\\\"\\\\’\\n\n\\t\"" = .ok (literal (.string "\"\\’\n\n\t")) := by
  constructor
  · exact (parse_quoted .single "’a'\"”’").2 _ ⟨_, rfl, rfl⟩
  · refine (parse_quoted .escaped "\"\\’\n\n\t").2 _
      ⟨['\\', '"', '\\', '\\', '’', '\\', 'n', '\n', '\\', 't'], ?_, rfl⟩
    exact .quote <| .backslash <| .plain (by decide) (by decide) <| .newline <|
      .plain (by decide) (by decide) <| .tab .nil

end Expr

end DocTemplate
