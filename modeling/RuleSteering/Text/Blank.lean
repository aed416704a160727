/-!
# Blank characters

The blank characters are those with the Unicode `White_Space` property; no other character
counts as space at the ends of a line or of a value.

* `isBlank`, the property as ranges of code points;
* `trimStart`, `trimEnd`, `trim`, which cut blanks off the ends of a text.
-/

namespace RuleSteering.Text

/-- Whether a character has the Unicode `White_Space` property. -/
def isBlank (c : Char) : Bool :=
  let n := c.toNat
  (0x09 ≤ n && n ≤ 0x0D) || n == 0x20 || n == 0x85 || n == 0xA0 || n == 0x1680 ||
    (0x2000 ≤ n && n ≤ 0x200A) || n == 0x2028 || n == 0x2029 || n == 0x202F || n == 0x205F ||
    n == 0x3000

/-- Every character that core calls whitespace is blank. -/
theorem isBlank_of_isWhitespace {c : Char} (h : c.isWhitespace = true) : isBlank c = true := by
  simp only [Char.isWhitespace, Bool.or_eq_true, decide_eq_true_eq] at h
  rcases h with ((rfl | rfl) | rfl) | rfl <;> rfl

/-- Remove the blanks at the start of a text. -/
def trimStart (s : List Char) : List Char :=
  s.dropWhile isBlank

@[simp] theorem trimStart_nil : trimStart [] = [] := rfl

theorem trimStart_cons (c : Char) (s : List Char) :
    trimStart (c :: s) = if isBlank c then trimStart s else c :: s := by
  simp [trimStart, List.dropWhile_cons]

/-- Remove the blanks at the end of a text. -/
def trimEnd (s : List Char) : List Char :=
  (trimStart s.reverse).reverse

/-- Remove the blanks at both ends of a text. -/
def trim (s : List Char) : List Char :=
  trimEnd (trimStart s)

end RuleSteering.Text
