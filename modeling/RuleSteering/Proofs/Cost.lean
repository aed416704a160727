import RuleSteering.Cost

/-!
# Costs in exact arithmetic

The arithmetic of costs saturates. In terms of exact integers a product or a sum is limited to the
range of 64 bits, once for each operation.

* `clamp`, an integer limited to the range; `toInt_saturatingMul`, `toInt_saturatingAdd`;
* `Cost.stage`, what a factor and a summand make of a cost, in exact integers. A stage whose factor is
  not negative keeps the order of costs (`Cost.stage_mono`);
* `CostDomain.IsHom`, maps from one domain of costs to another that carry the operations along, as the
  finite costs do (`Cost.isHom_finite`).
-/

namespace RuleSteering

/-! ### Saturating integers -/

/-- The integer, or the end of the range of 64 bits that it lies beyond. -/
def clamp (x : Int) : Int :=
  if x < Int64.minValue.toInt then Int64.minValue.toInt
  else if Int64.maxValue.toInt < x then Int64.maxValue.toInt
  else x

theorem clamp_toInt (n : Int64) : clamp n.toInt = n.toInt := by
  have hlow := n.minValue_le_toInt
  have hhigh := n.toInt_le
  unfold clamp
  omega

theorem clamp_mono {x y : Int} (h : x ≤ y) : clamp x ≤ clamp y := by
  have hends : Int64.minValue.toInt ≤ Int64.maxValue.toInt := by decide
  unfold clamp
  omega

theorem toInt_ofInt_clamp (x : Int) : (Int64.ofInt (clamp x)).toInt = clamp x := by
  have hmin : Int64.minValue.toInt = -2 ^ 63 := rfl
  have hmax : Int64.maxValue.toInt = 2 ^ 63 - 1 := rfl
  have hlow : -2 ^ 63 ≤ clamp x := by
    unfold clamp
    omega
  have hhigh : clamp x < 2 ^ 63 := by
    unfold clamp
    omega
  exact Int64.toInt_ofInt_of_le hlow hhigh

theorem toInt_ofIntClamp (x : Int) : (Int64.ofIntClamp x).toInt = clamp x := by
  unfold Int64.ofIntClamp clamp
  split
  · split
    · rw [Int64.toInt_ofIntLE]
      omega
    · omega
  · omega

theorem toInt_saturatingMul (a b : Int64) :
    (saturatingMul a b).toInt = clamp (a.toInt * b.toInt) :=
  toInt_ofIntClamp _

theorem toInt_saturatingAdd (a b : Int64) :
    (saturatingAdd a b).toInt = clamp (a.toInt + b.toInt) :=
  toInt_ofIntClamp _

namespace Cost

/-! ### Stages -/

/-- The cost that a factor and a summand make of a cost, in exact integers that are limited to the
range after the product and after the sum. The factor zero makes every cost zero, and no other factor
makes the unbounded cost a finite one. -/
def stage (factor summand : Int64) : Cost → Cost
  | .finite n =>
    if factor = 0 then .finite 0
    else .finite (.ofInt (clamp (clamp (n.toInt * factor.toInt) + summand.toInt)))
  | .top => if factor = 0 then .finite 0 else .top

theorem stage_zero (summand : Int64) (cost : Cost) : stage 0 summand cost = .finite 0 := by
  cases cost <;> rfl

theorem stage_top {factor : Int64} (h : factor ≠ 0) (summand : Int64) :
    stage factor summand .top = .top :=
  if_neg h

/-- Without a zero factor a stage is the product and then the sum. -/
theorem stage_eq_add_mul {factor : Int64} (h : factor ≠ 0) (summand : Int64) (cost : Cost) :
    stage factor summand cost = add (mul cost (.finite factor)) (.finite summand) := by
  cases cost with
  | finite n =>
    rw [stage, if_neg h, finite_mul_finite, finite_add_finite, finite.injEq, ← Int64.toInt_inj,
      toInt_ofInt_clamp, toInt_saturatingAdd, toInt_saturatingMul]
  | top => rw [stage_top h, mul, if_neg h, top_add]

/-- The factor one and the summand zero leave every cost as it is. -/
theorem stage_one_zero (cost : Cost) : stage 1 0 cost = cost := by
  cases cost with
  | finite n =>
    have hvalue : clamp (clamp (n.toInt * Int64.toInt 1) + Int64.toInt 0) = n.toInt := by
      rw [show Int64.toInt 1 = 1 from rfl, show Int64.toInt 0 = 0 from rfl, Int.mul_one, Int.add_zero,
        clamp_toInt, clamp_toInt]
    rw [stage, if_neg (by decide), hvalue, Int64.ofInt_toInt]
  | top => rfl

/-- No other factor and summand do. -/
theorem stage_eq_self_iff {factor summand : Int64} :
    (∀ cost, stage factor summand cost = cost) ↔ factor = 1 ∧ summand = 0 := by
  constructor
  · intro h
    have hzero : factor ≠ 0 := by
      rintro rfl
      exact absurd (h (.finite 1)) (by rw [stage_zero]; decide)
    -- of the cost zero only the summand is left, and of the cost one then only the factor
    have hvalue (n : Int64) : clamp (clamp (n.toInt * factor.toInt) + summand.toInt) = n.toInt := by
      rw [← toInt_ofInt_clamp, Int64.toInt_inj]
      simpa only [stage, if_neg hzero, finite.injEq] using h (.finite n)
    have hsummand : summand = 0 := by
      have hvalue₀ := hvalue 0
      rw [show Int64.toInt 0 = 0 from rfl, Int.zero_mul, show clamp 0 = 0 from rfl, Int.zero_add,
        clamp_toInt] at hvalue₀
      exact Int64.toInt_inj.mp hvalue₀
    have hvalue₁ := hvalue 1
    rw [hsummand, show Int64.toInt 1 = 1 from rfl, show Int64.toInt 0 = 0 from rfl, Int.one_mul,
      Int.add_zero, clamp_toInt, clamp_toInt] at hvalue₁
    exact ⟨Int64.toInt_inj.mp hvalue₁, hsummand⟩
  · rintro ⟨rfl, rfl⟩
    exact stage_one_zero

/-- A factor that is not negative keeps the order of costs, whatever the summand is. -/
theorem stage_mono {factor : Int64} (hfactor : 0 ≤ factor) (summand : Int64) {x y : Cost}
    (h : x ≤ y) : stage factor summand x ≤ stage factor summand y := by
  by_cases hzero : factor = 0
  · subst hzero
    rw [stage_zero, stage_zero]
    exact finite_le_finite.mpr (Int64.le_refl 0)
  · cases y with
    | top =>
      rw [stage_top hzero]
      exact le_top _
    | finite n =>
      cases x with
      | top => exact absurd h (not_top_le_finite n)
      | finite m =>
        have hmn : m.toInt ≤ n.toInt := Int64.le_iff_toInt_le.mp (finite_le_finite.mp h)
        have hnonneg : 0 ≤ factor.toInt := Int64.le_iff_toInt_le.mp hfactor
        have hproduct : clamp (m.toInt * factor.toInt) ≤ clamp (n.toInt * factor.toInt) :=
          clamp_mono (Int.mul_le_mul_of_nonneg_right hmn hnonneg)
        rw [stage, stage, if_neg hzero, if_neg hzero, finite_le_finite, Int64.le_iff_toInt_le,
          toInt_ofInt_clamp, toInt_ofInt_clamp]
        exact clamp_mono (Int.add_le_add_right hproduct _)

end Cost

/-! ### Maps between domains of costs -/

/-- The map carries the operations of one domain of costs over to another. -/
structure CostDomain.IsHom {C D : Type} [CostDomain C] [CostDomain D] (f : C → D) : Prop where
  zero : f CostDomain.zero = CostDomain.zero
  ofInteger : ∀ n, f (CostDomain.ofInteger n) = CostDomain.ofInteger n
  mul : ∀ a b, f (CostDomain.mul a b) = CostDomain.mul (f a) (f b)
  add : ∀ a b, f (CostDomain.add a b) = CostDomain.add (f a) (f b)

/-- The saturating integers are the finite costs. -/
theorem Cost.isHom_finite : CostDomain.IsHom Cost.finite where
  zero := rfl
  ofInteger _ := rfl
  mul _ _ := rfl
  add _ _ := rfl

end RuleSteering
