import DocTemplate.Document.LineBreak
import DocTemplate.Proofs.Text.Search
import Mathlib.Data.List.Chain

/-!
# Texts with line breaks for a literal

The items of a text are its pieces between the occurrences of the literal, with a line break between
any two of them (`RunItem.ofPieces`). A piece that is empty has no item, so that line breaks may come
one after the other, or at either end; only a text that is empty has an item for its one piece.

Nothing is lost by this: with the literal in the place of each line break (`RunItem.unbroken`) the
items are the text. And nothing is left to do in a text among the items, since no piece has the literal
in it.

* `RunItem.join_unbroken_ofPieces`, `RunItem.mem_ofPieces`, `RunItem.isChain_ofPieces`: the items of
  some pieces;
* `RunItem.isBroken_breakLines`: the items of a text.
-/

namespace DocTemplate

namespace RunItem

variable {literal s t : String} {item : RunItem} {pieces : List String}

/-- An item with the literal in the place of a line break, as a text. -/
def unbroken (literal : String) : RunItem → String
  | text s => s
  | lineBreak => literal
  | _ => ""

/-- The items of the pieces, with a line break between any two of them. -/
def ofPieces (pieces : List String) : List RunItem :=
  [lineBreak].intercalate (pieces.map ofPiece)

theorem ofPieces_singleton (s : String) : ofPieces [s] = ofPiece s :=
  List.intercalate_singleton

theorem ofPieces_cons_cons (s t : String) (pieces : List String) :
    ofPieces (s :: t :: pieces) = ofPiece s ++ lineBreak :: ofPieces (t :: pieces) := by
  simp [ofPieces, List.intercalate_cons_cons]

theorem mem_ofPiece_iff : item ∈ ofPiece s ↔ s ≠ "" ∧ item = .text s := by
  by_cases h : s = "" <;> simp [ofPiece, h]

theorem join_unbroken_ofPiece (literal s : String) :
    String.join ((ofPiece s).map (unbroken literal)) = s := by
  by_cases h : s = "" <;> simp [ofPiece, unbroken, h]

/-- With the literal in the place of the line breaks, the items are the pieces and the literal
    between any two of them. -/
theorem join_unbroken_ofPieces (literal : String) (pieces : List String) :
    String.join ((ofPieces pieces).map (unbroken literal)) = literal.intercalate pieces := by
  induction pieces with
  | nil => rfl
  | cons s pieces ih =>
    cases pieces with
    | nil => rw [ofPieces_singleton, join_unbroken_ofPiece, String.intercalate_singleton]
    | cons t pieces =>
      rw [ofPieces_cons_cons, List.map_append, List.map_cons, String.join_append,
        join_unbroken_ofPiece, String.join_cons, ih, String.intercalate_cons_cons,
        String.append_assoc, unbroken]

/-- The texts among the items are the pieces that are not empty. All other items are line breaks. -/
theorem mem_ofPieces (h : item ∈ ofPieces pieces) :
    item = .lineBreak ∨ ∃ s ∈ pieces, s ≠ "" ∧ item = .text s := by
  induction pieces with
  | nil => cases h
  | cons s pieces ih =>
    cases pieces with
    | nil =>
      rw [ofPieces_singleton, mem_ofPiece_iff] at h
      exact .inr ⟨s, List.mem_cons_self, h⟩
    | cons t pieces =>
      rw [ofPieces_cons_cons, List.mem_append, List.mem_cons] at h
      rcases h with h | rfl | h
      · exact .inr ⟨s, List.mem_cons_self, mem_ofPiece_iff.1 h⟩
      · exact .inl rfl
      · exact (ih h).imp id fun ⟨s, hs, hitem⟩ => ⟨s, List.mem_cons_of_mem _ hs, hitem⟩

/-- No two neighbours among the items are texts: where a piece ends there is a line break. -/
theorem isChain_ofPieces (pieces : List String) :
    (ofPieces pieces).IsChain fun a b => ¬ (a.isText ∧ b.isText) := by
  have hpiece : ∀ s : String, (ofPiece s).IsChain fun a b => ¬ (a.isText ∧ b.isText) := fun s => by
    by_cases h : s = "" <;> simp [ofPiece, h]
  induction pieces with
  | nil => exact .nil
  | cons s pieces ih =>
    cases pieces with
    | nil =>
      rw [ofPieces_singleton]
      exact hpiece s
    | cons t pieces =>
      rw [ofPieces_cons_cons, List.isChain_append, List.isChain_cons]
      refine ⟨hpiece s, ⟨fun b _ h => ?_, ih⟩, fun a _ b hb h => ?_⟩
      · cases h.1
      · obtain rfl := Option.some.inj hb
        cases h.2

/-! ## Items of a text -/

/-- Without a literal, a text is its only item. -/
theorem breakLines_of_no_literal {literal : Option String} (hl : ∀ l ∈ literal, l = "") (s : String) :
    breakLines literal s = [.text s] := by
  have hnone : literal.filter (fun l => !l.isEmpty) = none := by
    refine Option.filter_eq_none_iff.2 fun l hmem => ?_
    simp [hl l hmem]
  rw [breakLines, hnone]

/-- The items of a text are those of its pieces. If there are none, the text is an item. -/
theorem breakLines_some (hne : literal ≠ "") (s : String) : breakLines (some literal) s =
    if (ofPieces (Text.splitOn s literal)).isEmpty then [.text ""]
    else ofPieces (Text.splitOn s literal) := by
  have hfilter : (some literal).filter (fun l => !l.isEmpty) = some literal := by simp [hne]
  have hitems : [lineBreak].intercalate ((Text.splitOn s literal).map ofPiece) =
      ofPieces (Text.splitOn s literal) :=
    rfl
  simp only [breakLines, hfilter, hitems]
  cases ofPieces (Text.splitOn s literal) <;> rfl

/-- All items of a text are texts and line breaks. -/
theorem isText_or_of_mem_breakLines {literal : Option String} (hitem : item ∈ breakLines literal s) :
    item.isText ∨ item = .lineBreak := by
  by_cases hl : ∀ l ∈ literal, l = ""
  · rw [breakLines_of_no_literal hl, List.mem_singleton] at hitem
    exact .inl (hitem ▸ rfl)
  · obtain ⟨l, hl⟩ := not_forall.1 hl
    obtain ⟨rfl, hne⟩ := Classical.not_imp.1 hl
    rw [breakLines_some hne] at hitem
    split at hitem
    · exact .inl (List.mem_singleton.1 hitem ▸ rfl)
    · rcases mem_ofPieces hitem with rfl | ⟨piece, -, -, rfl⟩
      · exact .inr rfl
      · exact .inl rfl

/-- A text without the literal is its only item. -/
theorem breakLines_eq_singleton (hne : literal ≠ "") (h : ¬ literal.toList <:+: s.toList) :
    breakLines (some literal) s = [.text s] := by
  rw [breakLines_some hne, Text.splitOn_eq_singleton h, ofPieces_singleton]
  by_cases hs : s = "" <;> simp [ofPiece, hs]

/-- The items are a text in which a line break takes the place of each occurrence of a literal. -/
structure IsBroken (literal s : String) (items : List RunItem) : Prop where
  ne_nil : items ≠ []
  isText_or : ∀ item ∈ items, item.isText ∨ item = .lineBreak
  isChain : items.IsChain fun a b => ¬ (a.isText ∧ b.isText)
  /-- With the literal in the place of each line break, the items are the text. -/
  join_eq : String.join (items.map (unbroken literal)) = s
  not_infix : ∀ t, .text t ∈ items → ¬ literal.toList <:+: t.toList
  /-- Only an empty text has an empty text among its items. -/
  eq_empty : .text "" ∈ items → s = ""
  /-- In the texts among the items nothing is left to do. -/
  breakLines_eq : ∀ t, .text t ∈ items → breakLines (some literal) t = [.text t]

/-- The texts among the items are not empty, and the literal is not in them. -/
theorem of_text_mem_ofPieces (hne : literal ≠ "") (ht : .text t ∈ ofPieces (Text.splitOn s literal)) :
    t ≠ "" ∧ ¬ literal.toList <:+: t.toList := by
  rcases mem_ofPieces ht with h | ⟨piece, hpiece, hempty, h⟩
  · cases h
  · obtain rfl := RunItem.text.inj h
    exact ⟨hempty, Text.not_infix_of_mem_splitOn hne hpiece⟩

/-- A text without the literal has no line breaks in it. -/
theorem isBroken_singleton (hne : literal ≠ "") (h : ¬ literal.toList <:+: s.toList) :
    IsBroken literal s [.text s] where
  ne_nil := List.cons_ne_nil _ _
  isText_or := fun item hitem => .inl (by rw [List.mem_singleton.1 hitem]; rfl)
  isChain := .singleton _
  join_eq := by simp [unbroken]
  not_infix := fun t ht => by rwa [RunItem.text.inj (List.mem_singleton.1 ht)]
  eq_empty := fun ht => (RunItem.text.inj (List.mem_singleton.1 ht)).symm
  breakLines_eq := fun t ht => by
    rw [RunItem.text.inj (List.mem_singleton.1 ht), breakLines_eq_singleton hne h]

/-- The items of a text are the text with line breaks in it. -/
theorem isBroken_breakLines (hne : literal ≠ "") (s : String) :
    IsBroken literal s (breakLines (some literal) s) := by
  by_cases hocc : literal.toList <:+: s.toList
  · have hjoin : String.join ((ofPieces (Text.splitOn s literal)).map (unbroken literal)) = s := by
      rw [join_unbroken_ofPieces, Text.intercalate_splitOn]
    have hnil : ofPieces (Text.splitOn s literal) ≠ [] := by
      -- Without items the text would be empty, and the literal is not in it.
      intro hnil
      rw [hnil] at hjoin
      subst hjoin
      exact hne (String.toList_eq_nil_iff.1 (List.infix_nil.1 hocc))
    have hkinds : ∀ item ∈ breakLines (some literal) s, item.isText ∨ item = .lineBreak :=
      fun _ => isText_or_of_mem_breakLines
    rw [breakLines_some hne, if_neg (mt List.isEmpty_iff.1 hnil)] at hkinds ⊢
    exact {
      ne_nil := hnil
      isText_or := hkinds
      isChain := isChain_ofPieces _
      join_eq := hjoin
      not_infix := fun t ht => (of_text_mem_ofPieces hne ht).2
      eq_empty := fun h => absurd rfl (of_text_mem_ofPieces hne h).1
      breakLines_eq := fun t ht => breakLines_eq_singleton hne (of_text_mem_ofPieces hne ht).2 }
  · rw [breakLines_eq_singleton hne hocc]
    exact isBroken_singleton hne hocc

/-- A literal that overlaps itself is found from the left: at both ends of the text, and twice in a
    row at the second one. -/
theorem isBroken_breakLines_overlapping :
    "aa" ≠ "" ∧ IsBroken "aa" "aaabaaaa" [.lineBreak, .text "ab", .lineBreak, .lineBreak] := by
  have hne : "aa" ≠ "" := by decide
  have hitems : breakLines (some "aa") "aaabaaaa" =
      [.lineBreak, .text "ab", .lineBreak, .lineBreak] := by
    decide +kernel
  exact ⟨hne, hitems ▸ isBroken_breakLines hne "aaabaaaa"⟩

end RunItem

end DocTemplate
