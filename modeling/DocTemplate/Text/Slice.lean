/-!
# Byte offsets

Positions in a text are counted in bytes of its UTF-8 form. `Text.width` is the
number of bytes of a list of characters, `Text.cut` divides such a list at a
byte offset. An offset inside a character does not divide it: the character
goes to the second part.

* `cut_append`: the two parts are the list;
* `width_append`: widths add up;
* `cut_width`: cutting at the width of a first part gives that part back;
* `cut_of_le`, `cut_of_ge`: where two texts are cut that follow one another.
-/

namespace DocTemplate

namespace Text

/-- The number of bytes of the characters. -/
def width : List Char → Nat
  | [] => 0
  | c :: cs => c.utf8Size + width cs

/-- The number of bytes of the text. -/
def size (s : String) : Nat :=
  width s.toList

/-- The characters before the byte offset `n`, and the others. -/
def cut (n : Nat) : List Char → List Char × List Char
  | [] => ([], [])
  | c :: cs =>
    if c.utf8Size ≤ n then
      let (before, after) := cut (n - c.utf8Size) cs
      (c :: before, after)
    else
      ([], c :: cs)

/-- The text before the byte offset `n`, and the rest. -/
def splitAt (s : String) (n : Nat) : String × String :=
  let (before, after) := cut n s.toList
  (String.ofList before, String.ofList after)

@[simp] theorem width_nil : width [] = 0 := rfl

@[simp] theorem width_cons (c : Char) (cs : List Char) :
    width (c :: cs) = c.utf8Size + width cs := rfl

@[simp] theorem width_append (as bs : List Char) : width (as ++ bs) = width as + width bs := by
  induction as with
  | nil => simp
  | cons a as ih => simp [ih, Nat.add_assoc]

@[simp] theorem cut_append (n : Nat) (cs : List Char) : (cut n cs).1 ++ (cut n cs).2 = cs := by
  induction cs generalizing n with
  | nil => rfl
  | cons c cs ih =>
    by_cases h : c.utf8Size ≤ n
    · simpa [cut, h] using ih (n - c.utf8Size)
    · simp [cut, h]

theorem cut_zero (cs : List Char) : cut 0 cs = ([], cs) := by
  cases cs with
  | nil => rfl
  | cons c cs => simp [cut, Nat.not_le.2 c.utf8Size_pos]

theorem cut_width (as bs : List Char) : cut (width as) (as ++ bs) = (as, bs) := by
  induction as with
  | nil => simpa using cut_zero bs
  | cons c as ih => simp [cut, ih]

/-- The cut is in the first of two texts, or at its end. -/
theorem cut_of_le {n : Nat} {as : List Char} (h : n ≤ width as) (bs : List Char) :
    cut n (as ++ bs) = ((cut n as).1, (cut n as).2 ++ bs) := by
  induction as generalizing n with
  | nil =>
    obtain rfl : n = 0 := by simpa using h
    simp [cut_zero]
  | cons a as ih =>
    by_cases ha : a.utf8Size ≤ n
    · have hn : n - a.utf8Size ≤ width as := by
        rw [width_cons] at h
        omega
      simp [cut, ha, ih hn]
    · simp [cut, ha]

/-- The cut is at the end of the first text, or in the second. -/
theorem cut_of_ge {n : Nat} {as : List Char} (h : width as ≤ n) (bs : List Char) :
    cut n (as ++ bs) = (as ++ (cut (n - width as) bs).1, (cut (n - width as) bs).2) := by
  induction as generalizing n with
  | nil => simp
  | cons a as ih =>
    rw [width_cons] at h
    have ha : a.utf8Size ≤ n := by omega
    have hn : width as ≤ n - a.utf8Size := by omega
    simp [cut, ha, ih hn, Nat.sub_sub]

theorem width_pos {cs : List Char} (h : cs ≠ []) : 0 < width cs := by
  cases cs with
  | nil => exact absurd rfl h
  | cons c cs =>
    have := c.utf8Size_pos
    rw [width_cons]
    omega

/-- A text is divided at a byte offset in one way. -/
theorem append_inj_of_width {as bs cs ds : List Char} (h : as ++ bs = cs ++ ds)
    (hwidth : width as = width cs) : as = cs ∧ bs = ds := by
  have hcut := cut_width cs ds
  rw [← h, ← hwidth, cut_width] at hcut
  exact Prod.mk.inj hcut

end Text

end DocTemplate
