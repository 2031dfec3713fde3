import DocTemplate.Document.Style
import DocTemplate.Text.Slice

/-!
# Runs

A run is content with one formatting: texts, and items without characters (line
breaks, tabs, references to notes), which have a place between the texts but
take no room in them.

A run is split at a byte offset of its text (`Run.splitAt`). An item without
characters that sits exactly there goes to the side that `Bias` names.

* `charsOf_splitItems`: the characters of the two parts are those before the offset, and the others;
* `text_splitAt`: the texts of the two parts make up the text of the run.
-/

namespace DocTemplate

/-- The number of a footnote or an endnote. -/
abbrev NoteId := Int64

/-- An item of a run. -/
inductive RunItem where
  | text (s : String)
  | lineBreak
  | tab
  | footnote (id : NoteId)
  | endnote (id : NoteId)
  deriving DecidableEq, Repr, Inhabited

namespace RunItem

/-- The characters of the item. -/
def chars : RunItem → List Char
  | text s => s.toList
  | _ => []

/-- Whether the item is a text. -/
def isText : RunItem → Bool
  | text _ => true
  | _ => false

/-- The characters of some items. -/
def charsOf (items : List RunItem) : List Char :=
  items.flatMap chars

/-- The text of some items. -/
def textOf (items : List RunItem) : String :=
  String.ofList (charsOf items)

@[simp] theorem charsOf_nil : charsOf [] = [] := rfl

@[simp] theorem charsOf_cons (item : RunItem) (items : List RunItem) :
    charsOf (item :: items) = item.chars ++ charsOf items :=
  List.flatMap_cons

theorem chars_eq_nil {item : RunItem} (h : item.isText = false) : item.chars = [] := by
  cases item with
  | text => simp [isText] at h
  | _ => rfl

theorem isText_eq_false_of_ne {item : RunItem} (h : ∀ s, item = .text s → False) : item.isText = false := by
  cases item with
  | text s => exact (h s rfl).elim
  | _ => rfl

end RunItem

/-- A run. -/
structure Run where
  /-- The items, in reading order. -/
  content : List RunItem
  /-- The formatting. -/
  style : RunStyle := {}
  deriving DecidableEq, Repr, Inhabited

/-- The side of a split that items without characters go to. -/
inductive Bias where
  | left | right
  deriving DecidableEq, Repr

namespace Run

/-- A run of one text. -/
def ofText (s : String) (style : RunStyle := {}) : Run :=
  ⟨[.text s], style⟩

variable (r : Run)

/-- The text of the run. -/
def text : String :=
  RunItem.textOf r.content

/-- The number of bytes of the text. -/
def size : Nat :=
  Text.width (RunItem.charsOf r.content)

/-- Whether the run has no content at all. -/
def isEmpty : Bool :=
  r.content.all fun item => item.isText && item.chars.isEmpty

/-- The run with one text for its content. -/
def withText (s : String) : Run :=
  { r with content := [.text s] }

/-- The items before the offset `n` of some items, and the others. -/
def splitItems (bias : Bias) : (n : Nat) → List RunItem → List RunItem × List RunItem
  | _, [] => ([], [])
  | n, .text s :: items =>
    -- An empty text at the offset belongs to the left.
    if Text.size s ≤ n then
      let (left, right) := splitItems bias (n - Text.size s) items
      (.text s :: left, right)
    else if n = 0 then
      -- The offset is passed, with all that may sit there.
      ([], .text s :: items)
    else
      let (head, tail) := Text.splitAt s n
      ([.text head], .text tail :: items)
  | n, item :: items =>
    let (left, right) := splitItems bias n items
    if 0 < n ∨ bias = .left then (item :: left, right) else (left, item :: right)

/-- The run before the offset `n` of its text, and the run after it, both with
    the formatting of the whole. -/
def splitAt (n : Nat) (bias : Bias) : Run × Run :=
  let (left, right) := splitItems bias n r.content
  ({ r with content := left }, { r with content := right })

/-- The characters of the two sides of a split. -/
theorem charsOf_splitItems (bias : Bias) (n : Nat) (items : List RunItem) :
    (RunItem.charsOf (splitItems bias n items).1, RunItem.charsOf (splitItems bias n items).2) =
      Text.cut n (RunItem.charsOf items) := by
  fun_induction splitItems bias n items with
  | case1 => rfl
  | case2 n s items h left right e ih =>
    rw [e] at ih
    simp only [RunItem.charsOf, List.flatMap_cons, RunItem.chars] at ih ⊢
    rw [Text.cut_of_ge h, ← Text.size, ← ih]
  | case3 s items h =>
    simp [RunItem.charsOf, Text.cut_zero]
  | case4 n s items h hn head tail e =>
    have hs : Text.splitAt s n = (head, tail) := e
    simp only [Text.splitAt, Prod.mk.injEq] at hs
    obtain ⟨rfl, rfl⟩ := hs
    simp only [RunItem.charsOf, List.flatMap_cons, RunItem.chars]
    rw [Text.cut_of_le (Nat.le_of_lt (Nat.not_le.1 h))]
    simp
  | case5 n item items hitem left right e h ih =>
    -- An item without characters changes nothing, on either side.
    have hchars := RunItem.chars_eq_nil (RunItem.isText_eq_false_of_ne hitem)
    simpa [hchars, e] using ih
  | case6 n item items hitem left right e h ih =>
    have hchars := RunItem.chars_eq_nil (RunItem.isText_eq_false_of_ne hitem)
    simpa [hchars, e] using ih

theorem text_splitAt (n : Nat) (bias : Bias) :
    (r.splitAt n bias).1.text ++ (r.splitAt n bias).2.text = r.text := by
  obtain ⟨hleft, hright⟩ := Prod.mk.inj (charsOf_splitItems bias n r.content)
  simp only [splitAt, text, RunItem.textOf, ← String.ofList_append, hleft, hright, Text.cut_append]

end Run

end DocTemplate
