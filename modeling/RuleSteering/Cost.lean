import RuleSteering.Text.Decimal

/-!
# Costs

The engine decides what a cost is; the library only multiplies costs by a factor and adds a
summand to the product.

* `CostDomain`, the operations that a type of costs has to offer. No algebraic law is assumed, so
  that a symbolic cost is a cost too;
* 64-bit integers, whose arithmetic saturates at the ends of the range;
* `Cost`, a saturating integer or the unbounded cost `top`, which lies above all others.
-/

namespace RuleSteering

/-- The operations on the costs of an engine. -/
class CostDomain (C : Type) where
  zero : C
  ofInteger : Int64 → C
  mul : C → C → C
  add : C → C → C
  isZero : C → Bool

/-! ### Saturating integers -/

/-- The product, or the end of the range that it lies beyond. -/
def saturatingMul (a b : Int64) : Int64 :=
  .ofIntClamp (a.toInt * b.toInt)

/-- The sum, or the end of the range that it lies beyond. -/
def saturatingAdd (a b : Int64) : Int64 :=
  .ofIntClamp (a.toInt + b.toInt)

instance : CostDomain Int64 where
  zero := 0
  ofInteger n := n
  mul := saturatingMul
  add := saturatingAdd
  isZero n := n == 0

/-! ### Costs with an unbounded value -/

/-- A finite cost, or the unbounded one. -/
inductive Cost
  | finite (value : Int64)
  | top
  deriving DecidableEq, Repr

namespace Cost

instance : Inhabited Cost := ⟨.finite 0⟩

/-- Zero absorbs every cost, even the unbounded one, which absorbs all others. -/
def mul : Cost → Cost → Cost
  | .finite a, .finite b => .finite (saturatingMul a b)
  | .finite a, .top => if a = 0 then .finite 0 else .top
  | .top, .finite b => if b = 0 then .finite 0 else .top
  | .top, .top => .top

/-- The unbounded cost absorbs every summand. -/
def add : Cost → Cost → Cost
  | .finite a, .finite b => .finite (saturatingAdd a b)
  | _, _ => .top

instance : CostDomain Cost where
  zero := .finite 0
  ofInteger := .finite
  mul := mul
  add := add
  isZero c := c == .finite 0

@[simp] theorem finite_mul_finite (a b : Int64) :
    mul (.finite a) (.finite b) = .finite (saturatingMul a b) := rfl

@[simp] theorem top_mul_top : mul .top .top = .top := rfl

@[simp] theorem finite_add_finite (a b : Int64) :
    add (.finite a) (.finite b) = .finite (saturatingAdd a b) := rfl

@[simp] theorem top_add (c : Cost) : add .top c = .top := by
  cases c <;> rfl

@[simp] theorem add_top (c : Cost) : add c .top = .top := by
  cases c <;> rfl

/-! ### Order -/

/-- Finite costs are ordered by their values, and every cost is at most the unbounded one. -/
protected def le : Cost → Cost → Prop
  | _, .top => True
  | .finite a, .finite b => a ≤ b
  | .top, .finite _ => False

instance : LE Cost := ⟨Cost.le⟩

@[simp] theorem le_top (c : Cost) : c ≤ .top := by
  cases c <;> trivial

@[simp] theorem finite_le_finite {a b : Int64} : finite a ≤ finite b ↔ a ≤ b := Iff.rfl

@[simp] theorem not_top_le_finite (a : Int64) : ¬ top ≤ finite a := id

instance : DecidableLE Cost
  | .finite a, .finite b => decidable_of_iff (a ≤ b) finite_le_finite.symm
  | .top, .finite b => isFalse (not_top_le_finite b)
  | c, .top => isTrue (le_top c)

instance : Min Cost := minOfLe

instance : Max Cost := maxOfLe

instance : Ord Cost where
  compare a b := if a = b then .eq else if a ≤ b then .lt else .gt

/-- The costs in ascending order. -/
def sort (costs : List Cost) : List Cost :=
  costs.mergeSort fun a b => a ≤ b

/-- The sum of the costs, added up from the left. -/
def total (costs : List Cost) : Cost :=
  costs.foldl add default

/-- The decimal text of a finite cost, and `top` for the unbounded one. -/
def text : Cost → String
  | .finite n => String.ofList (Text.Decimal.write n)
  | .top => "top"

end Cost

end RuleSteering
