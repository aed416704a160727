/-!
# Decimal integers of 64 bits

The reader takes one optional sign and at least one ASCII digit. It works from left to right and
reports the first thing that is wrong: a character that is no digit, or a digit with which the
number leaves the range.

* `read` and `write`, between texts and `Int64`;
* `Flaw`, why a text is no integer.
-/

namespace RuleSteering.Text.Decimal

/-- Why a text is no 64-bit integer. -/
inductive Flaw
  | empty
  | invalidDigit
  | tooLarge
  | tooSmall
  deriving DecidableEq, Repr

/-- The wording of a flaw. -/
def Flaw.message : Flaw → String
  | .empty => "cannot parse integer from empty string"
  | .invalidDigit => "invalid digit found in string"
  | .tooLarge => "number too large to fit in target type"
  | .tooSmall => "number too small to fit in target type"

/-- The number `n` with one more digit, which moves it away from zero. -/
def extend (negative : Bool) (n : Int) (digit : Char) : Int :=
  if negative then 10 * n - (digit.toNat - '0'.toNat : Nat)
  else 10 * n + (digit.toNat - '0'.toNat : Nat)

/-- Read digits on from the number `n`, as long as it stays in the range. -/
def readDigits (negative : Bool) (n : Int) : List Char → Except Flaw Int64
  | [] => .ok (Int64.ofInt n)
  | c :: s =>
    if c.isDigit then
      let m := extend negative n c
      if Int64.maxValue.toInt < m then .error .tooLarge
      else if m < Int64.minValue.toInt then .error .tooSmall
      else readDigits negative m s
    else .error .invalidDigit

/-- Read an integer that makes up the whole text. A sign alone lacks a digit. -/
def read : List Char → Except Flaw Int64
  | [] => .error .empty
  | ['+'] => .error .invalidDigit
  | ['-'] => .error .invalidDigit
  | '+' :: s => readDigits false 0 s
  | '-' :: s => readDigits true 0 s
  | s => readDigits false 0 s

/-- Write an integer with a minus sign if it is negative, and without leading zeros. -/
def write (n : Int64) : List Char :=
  if n.toInt < 0 then '-' :: Nat.toDigits 10 n.toInt.natAbs else Nat.toDigits 10 n.toInt.natAbs

@[simp] theorem read_nil : read [] = .error .empty := rfl

@[simp] theorem readDigits_nil (negative : Bool) (n : Int) :
    readDigits negative n [] = .ok (Int64.ofInt n) := rfl

theorem readDigits_of_not_isDigit (negative : Bool) (n : Int) {c : Char} (s : List Char)
    (h : c.isDigit = false) : readDigits negative n (c :: s) = .error .invalidDigit := by
  simp [readDigits, h]

end RuleSteering.Text.Decimal
