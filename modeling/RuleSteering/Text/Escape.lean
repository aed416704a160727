/-!
# Backslash escapes

Texts are written with the characters that have a meaning to the line format hidden behind a
backslash, and read back by undoing that.

* `escapeKey` hides every space, `escapeValue` only a leading one;
* `unescape` reads `\t`, `\n`, `\r`, `\f` and `\uXXXX`, takes any other character after a
  backslash as it stands, and drops a backslash at the end of the text;
* `codePoint?` reads the number after `\u`: up to four characters, an optional plus sign and at
  least one hexadecimal digit. What does not name a character is kept as it was written.
-/

namespace RuleSteering.Text

/-! ### Writing -/

/-- One character as it is written; `hideSpace` says whether a space has to be hidden. -/
def escapeChar (hideSpace : Bool) (c : Char) : List Char :=
  if c = ' ' then if hideSpace then ['\\', ' '] else [' ']
  else if c = '\t' then ['\\', 't']
  else if c = '\n' then ['\\', 'n']
  else if c = '\r' then ['\\', 'r']
  else if c = '\x0c' then ['\\', 'f']
  else if c = '\\' ∨ c = '=' ∨ c = ':' ∨ c = '#' ∨ c = '!' then ['\\', c]
  else [c]

/-- Write a text in which every space is hidden. -/
def escapeKey (s : List Char) : List Char :=
  s.flatMap (escapeChar true)

/-- Write a text in which only a leading space is hidden. -/
def escapeValue : List Char → List Char
  | [] => []
  | c :: s => escapeChar true c ++ s.flatMap (escapeChar false)

@[simp] theorem escapeKey_nil : escapeKey [] = [] := rfl

@[simp] theorem escapeKey_cons (c : Char) (s : List Char) :
    escapeKey (c :: s) = escapeChar true c ++ escapeKey s := rfl

@[simp] theorem escapeValue_nil : escapeValue [] = [] := rfl

/-! ### Reading -/

/-- The value of a hexadecimal digit of either case. -/
def hexDigit? (c : Char) : Option Nat :=
  if '0' ≤ c ∧ c ≤ '9' then some (c.toNat - '0'.toNat)
  else if 'a' ≤ c ∧ c ≤ 'f' then some (c.toNat - 'a'.toNat + 10)
  else if 'A' ≤ c ∧ c ≤ 'F' then some (c.toNat - 'A'.toNat + 10)
  else none

/-- Read on from the number `n`, one hexadecimal digit a character. -/
def hexNumber? (n : Nat) : List Char → Option Nat
  | [] => some n
  | c :: s => (hexDigit? c).bind fun d => hexNumber? (16 * n + d) s

/-- The number of a Unicode escape: hexadecimal digits, at least one, after an optional plus. -/
def codePoint? : List Char → Option Nat
  | [] => none
  | ['+'] => none
  | '+' :: s => hexNumber? 0 s
  | s => hexNumber? 0 s

/-- The character with the given number, which is none of the surrogates. -/
def scalar? (n : Nat) : Option Char :=
  if n.isValidChar then some (Char.ofNat n) else none

/-- The text that `\u` and the characters `h` after it stand for. -/
def unicodeEscape (h : List Char) : List Char :=
  match (codePoint? h).bind scalar? with
  | some c => [c]
  | none => '\\' :: 'u' :: h

/-- The character that a backslash and `c` stand for. -/
def escapedChar (c : Char) : Char :=
  if c = 't' then '\t'
  else if c = 'n' then '\n'
  else if c = 'r' then '\r'
  else if c = 'f' then '\x0c'
  else c

/-- Undo every escape of a text. -/
def unescape : List Char → List Char
  | [] => []
  | ['\\'] => []
  | '\\' :: 'u' :: a :: b :: c :: d :: s => unicodeEscape [a, b, c, d] ++ unescape s
  | '\\' :: 'u' :: h => unicodeEscape h
  | '\\' :: c :: s => escapedChar c :: unescape s
  | c :: s => c :: unescape s

@[simp] theorem unescape_nil : unescape [] = [] := rfl

@[simp] theorem unescape_backslash : unescape ['\\'] = [] := rfl

theorem unescape_cons {c : Char} (s : List Char) (h : c ≠ '\\') :
    unescape (c :: s) = c :: unescape s := by
  simp [unescape, h]

theorem unescape_escaped {c : Char} (s : List Char) (h : c ≠ 'u') :
    unescape ('\\' :: c :: s) = escapedChar c :: unescape s := by
  simp [unescape, h]

end RuleSteering.Text
