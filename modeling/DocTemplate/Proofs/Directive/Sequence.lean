import DocTemplate.Directive.Call
import DocTemplate.Proofs.Except
import DocTemplate.Proofs.Expr.Continuation
import DocTemplate.Proofs.Expr.Lexing
import Mathlib

/-!
# Comments with several calls

A comment holds calls one after the other (`Call.IsSequence`), with blanks or a semicolon between
them (`Call.Separator`), and perhaps a semicolon at the end. What separates calls may also stand
within the texts of their arguments.

Each call is read as it is alone (`Call.parseAll_of_isSequence`): no token of its text goes on with
what separates it from the next call, and what is behind it does not go on with it as an
expression (`Expr.IsCall.append`). The words `or` and `and` are names of no such calls, since they
would be operators behind another call.
-/

namespace DocTemplate

namespace Expr

/-! ## Calls behind a call -/

/-- Calls behind a call, and their tokens with those of what separates them. -/
inductive Behind : List Expr → List Lexeme → Prop
  | nil : Behind [] []
  | semicolon (spaced : Bool) : Behind [] [⟨.mark .semicolon, spaced⟩]
  | afterSemicolon (spaced : Bool) {e : Expr} {ts : List Lexeme} (h : IsCall e ts)
    {es : List Expr} {more : List Lexeme} (hmore : Behind es more) :
    Behind (e :: es) (⟨.mark .semicolon, spaced⟩ :: (ts ++ more))
  | afterBlank {e : Expr} {ts : List Lexeme} (h : IsCall e ts) (hspaced : ∀ t ∈ ts.head?, t.spaced)
    {es : List Expr} {more : List Lexeme} (hmore : Behind es more) : Behind (e :: es) (ts ++ more)

namespace Behind

variable {es : List Expr} {ts : List Lexeme}

theorem fresh (h : Behind es ts) : Fresh ts := by
  cases h with
  | nil => exact fresh_nil
  | semicolon | afterSemicolon =>
    rintro n - _ ⟨⟩ hbinding
    cases hbinding
  | afterBlank h _ _ => exact h.fresh _

theorem readMore (h : Behind es ts) : readMore ts = some es := by
  induction h with
  | nil => rw [Expr.readMore]
  | semicolon => rw [Expr.readMore]
  | @afterSemicolon spaced e ts h es more hmore ih =>
    obtain ⟨hlt, hread⟩ := h.append hmore.fresh
    rw [Expr.readMore.eq_3 spaced _ (List.append_ne_nil_of_left_ne_nil h.closes.1 more), hread]
    exact congrArg (Option.map (e :: ·)) ih
  | @afterBlank e ts h hspaced es more hmore ih =>
    obtain ⟨t, ts, rfl⟩ := List.exists_cons_of_ne_nil h.closes.1
    obtain ⟨hlt, hread⟩ : (readExpr (t :: (ts ++ more))).Finds e more := h.append hmore.fresh
    -- A call does not begin with a semicolon.
    have ht (s : Bool) : t ≠ ⟨.mark .semicolon, s⟩ := by
      rintro rfl
      cases (h.head _ rfl).1
    rw [List.cons_append, Expr.readMore.eq_4 t _ (fun s hs _ => ht s hs) ht, if_pos (hspaced t rfl),
      hread]
    exact congrArg (Option.map (e :: ·)) ih

end Behind

end Expr

namespace Call

open Token

/-! ## Texts of calls in a comment -/

/-- What is between two calls: blanks, one at least, or a semicolon with any blanks around it. -/
inductive Separator : List Char → Prop
  | blanks {cs : List Char} (h : Blank cs) (hne : cs ≠ []) : Separator cs
  | semicolon {before after : List Char} (hbefore : Blank before) (hafter : Blank after) :
    Separator (before ++ ';' :: after)

/-- What is behind the last call: blanks, and perhaps a semicolon among them. -/
inductive Ending : List Char → Prop
  | blanks {cs : List Char} (h : Blank cs) : Ending cs
  | semicolon {before after : List Char} (hbefore : Blank before) (hafter : Blank after) :
    Ending (before ++ ';' :: after)

/-- What is behind a call: the texts of more calls, each behind what separates it. -/
inductive Behind : List String → List Char → Prop
  | ending {cs : List Char} (h : Ending cs) : Behind [] cs
  | text {sep : List Char} (hsep : Separator sep) (text : String) {texts : List String}
    {cs : List Char} (h : Behind texts cs) : Behind (text :: texts) (sep ++ (text.toList ++ cs))

/-- The comment consists of the texts one after the other, with what separates them, and any
    blanks in front. -/
inductive IsSequence : List String → String → Prop
  | intro {before : List Char} (hbefore : Blank before) (text : String) {texts : List String}
    {cs : List Char} (h : Behind texts cs) :
    IsSequence (text :: texts) (String.ofList (before ++ (text.toList ++ cs)))

/-- The call is the one that the text is. Its name is none of the words for operators. -/
def Reads (text : String) (call : Call) : Prop :=
  ∃ name args, Expr.parse text = .ok (.call name args) ∧ name ∉ ["or", "and", "not"] ∧
    call = ⟨.ofString name, args, (Expr.call name args).text⟩

theorem separates_blank {before : List Char} (h : Blank before) (hne : before ≠ [])
    (cs : List Char) : Separates (before ++ cs) := by
  obtain ⟨c, before, rfl⟩ := List.exists_cons_of_ne_nil hne
  rintro _ ⟨⟩
  exact .inl (h c List.mem_cons_self)

theorem separates_semicolon {before : List Char} (h : Blank before) (cs : List Char) :
    Separates (before ++ ';' :: cs) := by
  cases before with
  | nil =>
    rintro _ ⟨⟩
    exact .inr rfl
  | cons c before => exact separates_blank h (List.cons_ne_nil c before) _

theorem Behind.separates {texts : List String} {cs : List Char} (h : Behind texts cs) :
    Separates cs := by
  cases h with
  | ending h =>
    cases h with
    | blanks h => exact fun c hc => .inl (h c (List.mem_of_mem_head? hc))
    | semicolon hbefore _ => exact separates_semicolon hbefore _
  | text hsep text _ =>
    cases hsep with
    | blanks h hne => exact separates_blank h hne _
    | semicolon hbefore _ =>
      rw [List.append_assoc]
      exact separates_semicolon hbefore _

/-! ## Their tokens -/

/-- The tokens of the text of a call, with a blank before it or not. -/
theorem Reads.exists_tokens {text : String} {call : Call} (h : Reads text call) :
    ∃ e, ofExpr? e = some call ∧ ∀ spaced, ∃ ts, scanFrom? spaced text.toList = some ts ∧
      Expr.IsCall e ts ∧ (spaced → ∀ t ∈ ts.head?, t.spaced) := by
  obtain ⟨name, args, hparse, hname, rfl⟩ := h
  obtain ⟨ts, hscan, hread⟩ := Expr.exists_of_parse hparse
  have hcall : Expr.IsCall (.call name args) ts := ⟨⟨name, args, rfl, hname⟩, hread⟩
  refine ⟨.call name args, rfl, fun spaced => ?_⟩
  cases spaced with
  | false => exact ⟨ts, hscan, hcall, nofun⟩
  | true =>
    obtain ⟨⟨t, s⟩, ts, rfl⟩ := List.exists_cons_of_ne_nil hcall.closes.1
    refine ⟨⟨t, true⟩ :: ts, scanFrom?_true hscan, hcall.spaced true, ?_⟩
    rintro - _ ⟨⟩
    rfl

/-- The tokens of the text of a call and of what is behind it. -/
theorem Reads.exists_scan {text : String} {call : Call} (h : Reads text call) {more : List Char}
    (hmore : Separates more) {es : List Expr}
    (hbehind : ∀ s, ∃ us, scanFrom? s more = some us ∧ Expr.Behind es us) :
    ∃ e, ofExpr? e = some call ∧ ∀ spaced, ∃ ts us,
      scanFrom? spaced (text.toList ++ more) = some (ts ++ us) ∧ Expr.IsCall e ts ∧
        (spaced → ∀ t ∈ ts.head?, t.spaced) ∧ Expr.Behind es us := by
  obtain ⟨e, he, htokens⟩ := h.exists_tokens
  -- What is behind begins with a blank or a semicolon, so the last token does not go on with it.
  refine ⟨e, he, fun spaced => ?_⟩
  obtain ⟨ts, hscan, hcall, hspaced⟩ := htokens spaced
  obtain ⟨s, happend⟩ := scanFrom?_append hscan hmore
  obtain ⟨us, hus, hbehind⟩ := hbehind s
  exact ⟨ts, us, by rw [happend, hus]; rfl, hcall, hspaced, hbehind⟩

theorem scanFrom?_semicolon {before : List Char} (h : Blank before) (spaced : Bool)
    (cs : List Char) : scanFrom? spaced (before ++ ';' :: cs) =
      (scanFrom? false cs).map (⟨.mark .semicolon, spaced || !before.isEmpty⟩ :: ·) := by
  rw [scanFrom?_blanks h]
  exact scanFrom?_of_next? (next?_of_spelling (.mark .semicolon) trivial) _

theorem scanFrom?_blank {cs : List Char} (h : Blank cs) (spaced : Bool) :
    scanFrom? spaced cs = some [] := by
  have hscan := scanFrom?_blanks h spaced []
  rw [List.append_nil] at hscan
  exact hscan.trans (scanFrom?.eq_1 _)

/-- What is behind a call is read as the calls that the texts are. -/
theorem Behind.exists_scan {texts : List String} {cs : List Char} (h : Behind texts cs)
    {calls : List Call} (hcalls : List.Forall₂ Reads texts calls) :
    ∃ es, List.Forall₂ (fun e call => ofExpr? e = some call) es calls ∧
      ∀ s, ∃ ts, scanFrom? s cs = some ts ∧ Expr.Behind es ts := by
  induction h generalizing calls with
  | ending h =>
    cases hcalls
    refine ⟨[], .nil, fun s => ?_⟩
    cases h with
    | blanks h => exact ⟨[], scanFrom?_blank h s, .nil⟩
    | @semicolon before after hbefore hafter =>
      refine ⟨[⟨.mark .semicolon, s || !before.isEmpty⟩], ?_, .semicolon _⟩
      rw [scanFrom?_semicolon hbefore, scanFrom?_blank hafter]
      rfl
  | @text sep hsep text texts cs h ih =>
    cases hcalls with
    | cons hcall hcalls =>
      obtain ⟨es, hes, hbehind⟩ := ih hcalls
      obtain ⟨e, he, hscan⟩ := hcall.exists_scan h.separates hbehind
      refine ⟨e :: es, .cons he hes, fun s => ?_⟩
      cases hsep with
      | blanks hblank hne =>
        obtain ⟨ts, us, hts, hcall, hspaced, hus⟩ := hscan true
        refine ⟨ts ++ us, ?_, .afterBlank hcall (hspaced rfl) hus⟩
        rw [scanFrom?_blanks hblank, List.isEmpty_eq_false_iff.2 hne, Bool.not_false, Bool.or_true,
          hts]
      | @semicolon before after hbefore hafter =>
        obtain ⟨ts, us, hts, hcall, -, hus⟩ := hscan (!after.isEmpty)
        refine ⟨⟨.mark .semicolon, s || !before.isEmpty⟩ :: (ts ++ us), ?_,
          .afterSemicolon _ hcall hus⟩
        rw [List.append_assoc, List.cons_append, scanFrom?_semicolon hbefore,
          scanFrom?_blanks hafter, Bool.false_or, hts]
        rfl

/-! ## The calls of a comment -/

/-- The calls of a comment are those that its texts are. -/
theorem IsSequence.parseAll {texts : List String} {comment : String}
    (hcomment : IsSequence texts comment) {calls : List Call}
    (hcalls : List.Forall₂ Reads texts calls) : parseAll comment = .ok calls := by
  cases hcomment with
  | @intro before hbefore text texts cs h =>
    cases hcalls with
    | @cons _ call _ calls hcall hcalls =>
      obtain ⟨es, hes, hbehind⟩ := h.exists_scan hcalls
      obtain ⟨e, he, hscan⟩ := hcall.exists_scan h.separates hbehind
      obtain ⟨ts, us, hts, hcall, -, hus⟩ := hscan (!before.isEmpty)
      have hcomment : scan? (String.ofList (before ++ (text.toList ++ cs))) = some (ts ++ us) := by
        rw [scan?, String.toList_ofList, scanFrom?_blanks hbefore, Bool.false_or, hts]
      have hsequence : Expr.parseSequence? (String.ofList (before ++ (text.toList ++ cs))) =
          some (e :: es) := by
        obtain ⟨_, hread⟩ := hcall.append hus.fresh
        rw [Expr.parseSequence?, hcomment, Option.bind_some, hread]
        exact congrArg (Option.map (e :: ·)) hus.readMore
      have hblank : Text.isBlank (String.ofList (before ++ (text.toList ++ cs))) = false := by
        by_contra hblank
        -- A blank text has no tokens.
        have := eq_nil_of_isBlankChar hcomment (Bool.not_eq_false _ ▸ hblank)
        exact hcall.closes.1 (List.append_eq_nil_iff.1 this).1
      rw [Call.parseAll, hblank, if_neg (Bool.false_ne_true), hsequence]
      have hall : List.Forall₂ (fun e call => ofExpr? e = some call) (e :: es) (call :: calls) :=
        .cons he hes
      refine Except.mapM_eq_ok_iff.2 (hall.imp fun e call he => ?_)
      rw [ofExpr, he]

/-- Each call of a comment is read as it is alone. -/
theorem parseAll_of_isSequence {texts : List String} {comment : String}
    (hcomment : IsSequence texts comment)
    (hcalls : ∀ text ∈ texts, ∃ name args, Expr.parse text = .ok (.call name args) ∧
      name ∉ ["or", "and", "not"]) :
    ∃ calls, parseAll comment = .ok calls ∧ List.Forall₂ (fun text call =>
      parseAll text = .ok [call] ∧ ∃ name args, Expr.parse text = .ok (.call name args) ∧
        call = ⟨.ofString name, args, (Expr.call name args).text⟩) texts calls := by
  have hcall : ∀ text ∈ texts, ∀ text', text = text' → ∃ call, Reads text call ∧ True := by
    intro text htext _ _
    obtain ⟨name, args, hparse, hname⟩ := hcalls text htext
    exact ⟨_, ⟨name, args, hparse, hname, rfl⟩, trivial⟩
  have hself : List.Forall₂ Eq texts texts := List.forall₂_same.2 fun _ _ => rfl
  obtain ⟨calls, hreads, -⟩ := hself.exists_forall₂ hcall
  refine ⟨calls, hcomment.parseAll hreads, hreads.imp fun text call hcall => ?_⟩
  have halone : IsSequence [text] text := by
    have hintro := @IsSequence.intro [] nofun text [] [] (.ending (.blanks nofun))
    simpa using hintro
  have halone := halone.parseAll (.cons hcall .nil)
  obtain ⟨name, args, hparse, -, rfl⟩ := hcall
  exact ⟨halone, name, args, hparse, rfl⟩

/-- A semicolon and a quote within texts, a call in parentheses behind a line break, the word `not`
    as a name, and a semicolon at the end. -/
theorem parseAll_of_isSequence_three :
    ∃ calls, parseAll " f('a; (b')\n(g(not, \"\\\"\")) ;\th(\n);" = .ok calls ∧
      List.Forall₂ (fun text call => parseAll text = .ok [call] ∧
        ∃ name args, Expr.parse text = .ok (.call name args) ∧
          call = ⟨.ofString name, args, (Expr.call name args).text⟩)
        ["f('a; (b')", "(g(not, \"\\\"\"))", "h(\n)"] calls := by
  have line : Blank ['\n'] := by rintro c (_ | ⟨_, ⟨⟩⟩); rfl
  have space : Blank [' '] := by rintro c (_ | ⟨_, ⟨⟩⟩); rfl
  have tab : Blank ['\t'] := by rintro c (_ | ⟨_, ⟨⟩⟩); rfl
  have hcomment := IsSequence.intro space "f('a; (b')" <|
    .text (.blanks line (List.cons_ne_nil _ _)) "(g(not, \"\\\"\"))" <|
    .text (.semicolon space tab) "h(\n)" <| .ending (@Ending.semicolon [] [] nofun nofun)
  refine parseAll_of_isSequence hcomment fun text htext => ?_
  simp only [List.mem_cons, List.not_mem_nil, or_false] at htext
  rcases htext with rfl | rfl | rfl
  · exact ⟨"f", [.literal (.string "a; (b")], by cbv, by decide⟩
  · exact ⟨"g", [.ident "not", .literal (.string "\"")], by cbv, by decide⟩
  · exact ⟨"h", [], by cbv, by decide⟩

end Call

end DocTemplate
