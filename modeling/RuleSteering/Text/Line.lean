/-!
# Lines of a text

A line feed ends a line, and a carriage return directly before it belongs to the end of the
line. The text after the last line feed is a line of its own unless it is empty, and keeps a
carriage return that it ends with.
-/

namespace RuleSteering.Text

/-- The lines of a text, without their ends. -/
def lines : List Char → List (List Char)
  | [] => []
  | '\n' :: s => [] :: lines s
  | '\r' :: '\n' :: s => [] :: lines s
  | c :: s =>
    match lines s with
    | [] => [[c]]
    | l :: ls => (c :: l) :: ls

@[simp] theorem lines_nil : lines [] = [] := rfl

@[simp] theorem lines_lineFeed (s : List Char) : lines ('\n' :: s) = [] :: lines s := by
  simp [lines]

@[simp] theorem lines_carriageReturn_lineFeed (s : List Char) :
    lines ('\r' :: '\n' :: s) = [] :: lines s := by
  simp [lines]

/-- Only the empty text has no lines. -/
theorem lines_eq_nil_iff {s : List Char} : lines s = [] ↔ s = [] := by
  constructor
  · intro h
    fun_cases lines s with
    | case1 => rfl
    | case2 s => simp at h
    | case3 s => simp at h
    | case4 c s h₁ h₂ hs => simp [lines, hs] at h
    | case5 c s h₁ h₂ l ls hs => simp [lines, hs] at h
  · rintro rfl
    rfl

end RuleSteering.Text
