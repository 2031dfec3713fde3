/-!
# Blank characters

A character is *blank* when it has the `White_Space` property of the Unicode
character database. The set is closed: twenty-five code points, five of them
one run of control characters and eleven the run of typographic spaces that
starts with the en quad.

A text is *blank* when all its characters are (`Text.isBlank`); `Text.trim`
drops the blank characters at both ends.
-/

namespace DocTemplate

namespace Text

/-- A character with the `White_Space` property. -/
def isBlankChar (c : Char) : Bool :=
  let n := c.toNat
  (0x09 ≤ n && n ≤ 0x0D) || n == 0x20 || n == 0x85 || n == 0xA0 || n == 0x1680 ||
    (0x2000 ≤ n && n ≤ 0x200A) || n == 0x2028 || n == 0x2029 || n == 0x202F ||
    n == 0x205F || n == 0x3000

/-- A text without any character that is not blank. -/
def isBlank (s : String) : Bool :=
  s.toList.all isBlankChar

/-- The text without the blank characters at its two ends. -/
def trim (s : String) : String :=
  String.ofList ((s.toList.dropWhile isBlankChar).reverse.dropWhile isBlankChar).reverse

/-- Core's white space, which is ASCII only, is blank. -/
theorem isBlankChar_of_isWhitespace {c : Char} (h : c.isWhitespace = true) :
    isBlankChar c = true := by
  simp only [Char.isWhitespace, Bool.or_eq_true, decide_eq_true_eq] at h
  rcases h with ((rfl | rfl) | rfl) | rfl <;> decide

end Text

end DocTemplate
