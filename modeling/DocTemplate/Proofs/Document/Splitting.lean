import DocTemplate.Document.Run
import Mathlib.Data.List.Basic

/-!
# Splitting runs

A run is split at a byte offset of its text. Every item stands at the offset of the text before it
(`RunItem.placed`). What stands before the offset of the split goes to the left, what stands after it
to the right, and an item without characters that stands exactly there goes to the side of the bias. A
text that goes beyond the offset is cut in two.

Empty texts have no place of their own: the one that stands at the offset goes to the left even if it is
behind an item that goes to the right. So it is but for empty texts (`RunItem.solid`) that the two sides,
one after the other, are what was split (`RunItem.Cut`).

* `RunItem.cut_splitItems`: the items of the two sides;
* `RunItem.sides_splitItems`: the side of each item without characters;
* `Run.isSplit_splitAt`: all of this together.
-/

namespace DocTemplate

/-! ## Offsets -/

namespace Text

theorem size_append (s t : String) : size (s ++ t) = size s + size t := by
  simp [size]

theorem size_eq_zero_iff {s : String} : size s = 0 ↔ s = "" := by
  constructor
  · intro h
    by_contra hne
    have hpos : 0 < size s := width_pos fun hnil => hne (String.toList_inj.1 hnil)
    omega
  · rintro rfl
    rfl

/-- The byte offset is between two characters of the text, or at one of its ends. -/
def IsBoundary (s : String) (n : Nat) : Prop :=
  ∃ before after, s = before ++ after ∧ size before = n

/-- A boundary is where the text can be cut. -/
theorem isBoundary_iff {s : String} {n : Nat} :
    IsBoundary s n ↔ width (cut n s.toList).1 = n := by
  constructor
  · rintro ⟨before, after, rfl, rfl⟩
    rw [String.toList_append, size, cut_width]
  · intro h
    refine ⟨String.ofList (cut n s.toList).1, String.ofList (cut n s.toList).2, ?_, ?_⟩
    · rw [← String.toList_inj]
      simp
    · rw [size, String.toList_ofList, h]

instance (s : String) (n : Nat) : Decidable (IsBoundary s n) :=
  decidable_of_iff _ isBoundary_iff.symm

end Text

/-! ## Items -/

namespace RunItem

/-- Whether the item is an empty text. -/
def isVoid (item : RunItem) : Bool :=
  item.isText && item.chars.isEmpty

/-- The items but for empty texts. -/
def solid (items : List RunItem) : List RunItem :=
  items.filter fun item => !item.isVoid

/-- The items that are no texts, each with the byte offset at which it stands, if the text before all of
    them has `offset` bytes. -/
def placed : (offset : Nat) → List RunItem → List (Nat × RunItem)
  | _, [] => []
  | offset, .text s :: items => placed (offset + Text.size s) items
  | offset, item :: items => (offset, item) :: placed offset items

/-- Some items are divided in two at an offset of their text, between two of them or in a text. -/
inductive Cut : (n : Nat) → (items left right : List RunItem) → Prop
  | between {n : Nat} (left right : List RunItem) : Cut n (left ++ right) left right
  | within {n : Nat} (before after : List RunItem) {head tail : String} (hhead : head ≠ "")
      (htail : tail ≠ "") (hn : Text.width (charsOf before) + Text.size head = n) :
      Cut n (before ++ .text (head ++ tail) :: after) (before ++ [.text head]) (.text tail :: after)

variable {n : Nat} {items left right : List RunItem}

theorem width_charsOf_text (s : String) (items : List RunItem) :
    Text.width (charsOf (text s :: items)) = Text.size s + Text.width (charsOf items) := by
  rw [charsOf_cons, Text.width_append]
  rfl

theorem placed_cons_of_isText_eq_false {item : RunItem} (h : item.isText = false) (offset : Nat)
    (items : List RunItem) : placed offset (item :: items) = (offset, item) :: placed offset items := by
  cases item with
  | text => simp [isText] at h
  | _ => rfl

theorem le_of_mem_placed {offset : Nat} {x : Nat × RunItem} (h : x ∈ placed offset items) :
    offset ≤ x.1 := by
  induction items generalizing offset with
  | nil => simp [placed] at h
  | cons item items ih =>
    cases item with
    | text s =>
      have := ih h
      omega
    | _ =>
      rcases List.mem_cons.1 h with rfl | h
      · exact Nat.le_refl _
      · exact ih h

namespace Cut

/-- An item more, before all others. -/
theorem cons (item : RunItem) (h : Cut n items left right) :
    Cut (Text.width item.chars + n) (item :: items) (item :: left) right := by
  cases h with
  | between => exact .between (item :: left) right
  | within before after hhead htail hn =>
    refine .within (item :: before) after hhead htail ?_
    rw [charsOf_cons, Text.width_append]
    omega

theorem eq_of_left_nil (h : Cut n items [] right) : right = items := by
  generalize hl : ([] : List RunItem) = left at h
  cases h with
  | between => simp [← hl]
  | within => simp at hl

end Cut

end RunItem

/-- Whether an item that stands at an offset is on the left of a split at the offset `n`. -/
def Bias.isLeft (bias : Bias) (n offset : Nat) : Bool :=
  offset < n || (offset == n && bias == .left)

/-! ## Splits -/

namespace RunItem

variable {n : Nat} {items left right : List RunItem}

@[simp] theorem solid_nil : solid [] = [] := rfl

theorem solid_cons_of_isVoid {item : RunItem} (h : item.isVoid = true) :
    solid (item :: items) = solid items := by
  simp [solid, h]

theorem solid_cons_of_not_isVoid {item : RunItem} (h : item.isVoid = false) :
    solid (item :: items) = item :: solid items := by
  simp [solid, h]

theorem isVoid_text (s : String) : (text s).isVoid = decide (s = "") := by
  rw [Bool.eq_iff_iff, decide_eq_true_iff]
  simp [isVoid, isText, chars]

theorem Cut.solid_cons (item : RunItem) (h : Cut n (solid items) (solid left) right) :
    Cut (Text.width item.chars + n) (solid (item :: items)) (solid (item :: left)) right := by
  cases hv : item.isVoid with
  | true =>
    have hchars : item.chars = [] := by simp_all [isVoid]
    simpa [solid_cons_of_isVoid hv, hchars] using h
  | false => simpa [solid_cons_of_not_isVoid hv] using h.cons item

/-- A text is cut into two that are not empty. -/
theorem Cut.text {head tail : String} (hhead : head ≠ "") (htail : tail ≠ "") (items : List RunItem) :
    Cut (Text.size head) (solid (.text (head ++ tail) :: items)) (solid [.text head])
      (solid (.text tail :: items)) := by
  have hv : ∀ {s : String}, s ≠ "" → (RunItem.text s).isVoid = false := fun {s} h => by
    simp [isVoid_text, h]
  have hwhole : head ++ tail ≠ "" := by simp [hhead]
  rw [solid_cons_of_not_isVoid (hv hwhole), solid_cons_of_not_isVoid (hv hhead),
    solid_cons_of_not_isVoid (hv htail)]
  exact .within [] (solid items) hhead htail (by simp)

/-- At the start, to the right, nothing goes to the left but empty texts. -/
theorem solid_splitItems_right_zero (items : List RunItem) :
    solid (Run.splitItems .right 0 items).1 = [] := by
  induction items with
  | nil => rfl
  | cons item items ih =>
    cases item with
    | text s =>
      by_cases hs : Text.size s = 0
      · have hv : (text s).isVoid = true := by simp [isVoid_text, Text.size_eq_zero_iff.1 hs]
        simp [Run.splitItems, hs, solid_cons_of_isVoid hv, ih]
      · simp [Run.splitItems, hs]
    | _ => simpa [Run.splitItems] using ih

/-- The items of the two sides, one after the other, are the items that were split. -/
theorem cut_splitItems (bias : Bias) (n : Nat) (items : List RunItem)
    (h : Text.width (charsOf (Run.splitItems bias n items).1) = n ∨ Text.width (charsOf items) ≤ n) :
    Cut n (solid items) (solid (Run.splitItems bias n items).1)
      (solid (Run.splitItems bias n items).2) := by
  fun_induction Run.splitItems bias n items with
  | case1 n => exact .between [] []
  | case2 n s items hs left right e ih =>
    rw [e] at ih
    have hrest : Text.width (charsOf left) = n - Text.size s ∨
        Text.width (charsOf items) ≤ n - Text.size s := by
      rw [width_charsOf_text, width_charsOf_text] at h
      omega
    have hcut := (ih hrest).solid_cons (text s)
    have hn : Text.width (text s).chars + (n - Text.size s) = n := Nat.add_sub_of_le hs
    rwa [hn] at hcut
  | case3 s items hs => exact .between [] _
  | case4 n s items hs hn head tail e =>
    obtain rfl : s = head ++ tail := by
      obtain ⟨rfl, rfl⟩ := Prod.mk.inj e
      simp [← String.toList_inj]
    rw [Text.size_append] at hs
    have hhead : Text.size head = n := by
      rw [width_charsOf_text, width_charsOf_text, charsOf_nil, Text.width_nil, Text.size_append] at h
      omega
    -- The offset is inside the text, so neither part of it is empty.
    have hne : head ≠ "" := fun hnil => by
      rw [← Text.size_eq_zero_iff] at hnil
      omega
    have hne' : tail ≠ "" := fun hnil => by
      rw [← Text.size_eq_zero_iff] at hnil
      omega
    rw [← hhead]
    exact .text hne hne' items
  | case5 n item items hitem left right e hside ih =>
    have hchars := chars_eq_nil (isText_eq_false_of_ne hitem)
    rw [e] at ih
    have hcut := (ih (by simpa [hchars] using h)).solid_cons item
    simpa [hchars] using hcut
  | case6 n item items hitem left right e hside ih =>
    -- The item is at the start, with nothing on its left but empty texts.
    have htext := isText_eq_false_of_ne hitem
    have hchars := chars_eq_nil htext
    obtain ⟨hn, hb⟩ := not_or.1 hside
    obtain rfl : n = 0 := by omega
    obtain rfl : bias = .right := by cases bias <;> simp_all
    have hleft := solid_splitItems_right_zero items
    rw [e] at ih hleft
    have hcut := ih (by simpa [hchars] using h)
    rw [hleft] at hcut ⊢
    have hv : item.isVoid = false := by simp [isVoid, htext]
    rw [solid_cons_of_not_isVoid hv, solid_cons_of_not_isVoid hv, hcut.eq_of_left_nil]
    exact .between [] _

theorem map_snd_placed (offset : Nat) (items : List RunItem) :
    (placed offset items).map Prod.snd = items.filter fun item => !item.isText := by
  induction items generalizing offset with
  | nil => rfl
  | cons item items ih => cases item <;> simp [placed, isText, ih]

/-- What stands behind the offset of a split is on its right. -/
theorem filter_placed_of_lt (bias : Bias) {offset : Nat} (h : n < offset) (items : List RunItem) :
    ((placed offset items).filter fun x => bias.isLeft n x.1) = [] ∧
      ((placed offset items).filter fun x => !bias.isLeft n x.1) = placed offset items := by
  have hside : ∀ x ∈ placed offset items, bias.isLeft n x.1 = false := by
    intro x hx
    have := le_of_mem_placed hx
    simp only [Bias.isLeft, Bool.or_eq_false_iff, Bool.and_eq_false_iff, decide_eq_false_iff_not,
      beq_eq_false_iff_ne]
    omega
  constructor
  · rw [List.filter_eq_nil_iff]
    intro x hx
    simp [hside x hx]
  · rw [List.filter_eq_self]
    intro x hx
    simp [hside x hx]

/-- Each item without characters goes to the side of the offset on which it stands. -/
theorem sides_splitItems (bias : Bias) (n : Nat) (items : List RunItem) (offset : Nat) :
    (Run.splitItems bias n items).1.filter (fun item => !item.isText) =
        ((placed offset items).filter fun x => bias.isLeft (offset + n) x.1).map Prod.snd ∧
      (Run.splitItems bias n items).2.filter (fun item => !item.isText) =
        ((placed offset items).filter fun x => !bias.isLeft (offset + n) x.1).map Prod.snd := by
  fun_induction Run.splitItems bias n items generalizing offset with
  | case1 n => simp [placed]
  | case2 n s items hs left right e ih =>
    have ih := ih (offset + Text.size s)
    rw [e, Nat.add_assoc, Nat.add_sub_of_le hs] at ih
    simpa [placed, isText] using ih
  | case3 s items hs =>
    have hlt : offset + 0 < offset + Text.size s := by omega
    obtain ⟨hleft, hright⟩ := filter_placed_of_lt bias hlt items
    simp only [placed, hleft, hright, map_snd_placed]
    simp [isText]
  | case4 n s items hs hn head tail e =>
    have hlt : offset + n < offset + Text.size s := by omega
    obtain ⟨hleft, hright⟩ := filter_placed_of_lt bias hlt items
    simp only [placed, hleft, hright, map_snd_placed]
    simp [isText]
  | case5 n item items hitem left right e hside ih =>
    have htext := isText_eq_false_of_ne hitem
    have hleft : bias.isLeft (offset + n) offset = true := by
      rcases hside with hn | rfl
      · simp [Bias.isLeft, hn]
      · cases n <;> simp [Bias.isLeft]
    have ih := ih offset
    rw [e] at ih
    simpa [placed_cons_of_isText_eq_false htext, htext, hleft] using ih
  | case6 n item items hitem left right e hside ih =>
    have htext := isText_eq_false_of_ne hitem
    have hright : bias.isLeft (offset + n) offset = false := by
      obtain ⟨hn, hb⟩ := not_or.1 hside
      simpa [Bias.isLeft, hb] using hn
    have ih := ih offset
    rw [e] at ih
    simpa [placed_cons_of_isText_eq_false htext, htext, hright] using ih

end RunItem

namespace Run

/-- A run is split at the byte offset `n` of its text into a run before it and one after it. -/
structure IsSplit (r : Run) (n : Nat) (bias : Bias) (left right : Run) : Prop where
  /-- The text of the run is that of the left part and that of the right part. -/
  text_eq : r.text = left.text ++ right.text
  /-- The left part has the text before the offset: all of it, if it ends before the offset. -/
  size_left : left.size = min n r.size
  style_left : left.style = r.style
  style_right : right.style = r.style
  /-- But for empty texts the two contents make up the content of the run, with at most one text cut
      in two. -/
  cut : RunItem.Cut n (RunItem.solid r.content) (RunItem.solid left.content)
    (RunItem.solid right.content)
  /-- The items without characters before the offset are on the left, and those at it if the bias says
      so. -/
  items_left : left.content.filter (fun item => !item.isText) =
    ((RunItem.placed 0 r.content).filter fun x => bias.isLeft n x.1).map Prod.snd
  /-- The items without characters after the offset are on the right, and those at it otherwise. -/
  items_right : right.content.filter (fun item => !item.isText) =
    ((RunItem.placed 0 r.content).filter fun x => !bias.isLeft n x.1).map Prod.snd

theorem size_left_splitAt (r : Run) (n : Nat) (bias : Bias) (h : Text.IsBoundary r.text n ∨ r.size ≤ n) :
    (r.splitAt n bias).1.size = min n r.size := by
  have hcut := congrArg Prod.fst (charsOf_splitItems bias n r.content)
  have htoList : r.text.toList = RunItem.charsOf r.content := String.toList_ofList
  have hsize : (r.splitAt n bias).1.size = Text.width (Text.cut n (RunItem.charsOf r.content)).1 := by
    rw [← hcut]
    rfl
  rw [hsize]
  rcases h with h | h
  · rw [Text.isBoundary_iff, htoList] at h
    have hle : Text.width (Text.cut n (RunItem.charsOf r.content)).1 ≤ r.size := by
      rw [size]
      conv_rhs => rw [← Text.cut_append n (RunItem.charsOf r.content), Text.width_append]
      omega
    omega
  · have hall := Text.cut_of_ge h []
    rw [List.append_nil] at hall
    rw [hall, Text.cut, List.append_nil, ← size]
    omega

/-- Nothing is lost when a run is split. -/
theorem isSplit_splitAt (r : Run) (n : Nat) (bias : Bias) (h : Text.IsBoundary r.text n ∨ r.size ≤ n) :
    r.IsSplit n bias (r.splitAt n bias).1 (r.splitAt n bias).2 := by
  have hsize := size_left_splitAt r n bias h
  have hcut : (r.splitAt n bias).1.size = n ∨ r.size ≤ n := by omega
  obtain ⟨hleft, hright⟩ := RunItem.sides_splitItems bias n r.content 0
  rw [Nat.zero_add] at hleft hright
  exact {
    text_eq := (r.text_splitAt n bias).symm
    size_left := hsize
    style_left := rfl
    style_right := rfl
    cut := RunItem.cut_splitItems bias n r.content hcut
    items_left := hleft
    items_right := hright }

/-- A text with a character of two bytes, a line break and more text. -/
def accented : Run :=
  ⟨[.text "né", .lineBreak, .text "", .text "e"], {}⟩

/-- The line break is at the offset of the split, hence on the right. -/
theorem isSplit_splitAt_accented :
    Text.IsBoundary accented.text 3 ∧
      accented.IsSplit 3 .right ⟨[.text "né", .text ""], {}⟩ ⟨[.lineBreak, .text "e"], {}⟩ := by
  have h : Text.IsBoundary accented.text 3 := by decide
  exact ⟨h, accented.isSplit_splitAt 3 .right (.inl h)⟩

end Run

end DocTemplate
