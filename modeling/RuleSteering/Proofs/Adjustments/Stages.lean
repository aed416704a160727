import RuleSteering.Proofs.Adjustments.Effective

/-!
# Adjusted costs in exact arithmetic

An adjusted cost passes two stages, that of the primary group and that of the rule. Each is a product
and a sum of integers, limited to the range after both, and the shortcuts that leave the arithmetic out
give the same (`adjust_eq_stages`).

Stages whose factors are not negative keep the order of costs, and so the candidates of a rule keep
their order (`adjust_le_adjust`).
-/

namespace RuleSteering

/-- The shortcuts of a stage agree with its arithmetic. -/
theorem Cost.linear_eq_stage (factor summand : Int64) (cost : Cost) :
    CostDomain.linear factor summand cost = stage factor summand cost := by
  by_cases hzero : factor = 0
  · rw [hzero, CostDomain.linear_zero, stage_zero]
    rfl
  · by_cases hone : factor = 1 ∧ summand = 0
    · rw [hone.1, hone.2, CostDomain.linear_one_zero, stage_one_zero]
    · rw [CostDomain.linear, if_neg hzero, if_neg hone, stage_eq_add_mul hzero]
      rfl

namespace Adjustments

/-- The stage of the rule after the stage of the primary group. -/
theorem adjust_eq_stage_stage (a : Adjustments) (c : Candidate) (cost : Cost) :
    a.adjust c cost = Cost.stage (a.rules.factor c.name) (a.rules.summand c.name)
      (Cost.stage (a.groups.factor c.primaryGroup) (a.groups.summand c.primaryGroup) cost) := by
  rw [adjust_eq_linear, Cost.linear_eq_stage, Cost.linear_eq_stage]

/-- Whatever is overridden, the adjusted cost of a candidate is what the stages of its primary group and
of its rule make of the cost, in exact integers that are limited to the range of 64 bits. What a table
does to a cost is the plain product and sum unless the factor is zero, whether the table takes a
shortcut or not. Saturating integers are adjusted like the finite costs that they are. -/
theorem adjust_eq_stages (a : Adjustments) (c : Candidate) :
    (∀ cost : Cost, a.adjust c cost =
        Cost.stage (a.rules.factor c.name) (a.rules.summand c.name)
          (Cost.stage (a.groups.factor c.primaryGroup) (a.groups.summand c.primaryGroup) cost)) ∧
      (∀ (t : LinearTable) (key : String) (cost : Cost), t.adjustAt key cost =
        if t.factor key = 0 then .finite 0
        else Cost.add (Cost.mul cost (.finite (t.factor key))) (.finite (t.summand key))) ∧
      ∀ n : Int64, Cost.finite (a.adjust c n) = a.adjust c (.finite n) := by
  refine ⟨a.adjust_eq_stage_stage c, fun t key cost => ?_, a.map_adjust Cost.isHom_finite c⟩
  rw [LinearTable.adjustAt_eq_linear, Cost.linear_eq_stage]
  split
  · rename_i hzero
    rw [hzero, Cost.stage_zero]
  · rename_i hzero
    exact Cost.stage_eq_add_mul hzero _ cost

/-- A product beyond either end of the range is limited before the summand brings it back. The factor
zero absorbs the unbounded cost, and no other factor and summand change it. -/
example : Cost.stage 2 (-1) (.finite Int64.maxValue) = .finite (Int64.maxValue - 1) ∧
    Cost.stage (-2) 1 (.finite Int64.maxValue) = .finite (Int64.minValue + 1) ∧
    Cost.stage 0 5 .top = .finite 0 ∧ Cost.stage (-3) (-1) .top = .top := by decide

/-- If the factors that are looked up for a rule and its primary group are not negative, whatever the
summands are, a candidate of the rule costs at most as much as another one whose cost was at least as
high before. If neither factor is zero, what was unbounded remains so. -/
theorem adjust_le_adjust (a : Adjustments) {c d : Candidate} (hname : c.name = d.name)
    (hgroup : c.primaryGroup = d.primaryGroup) (hgf : 0 ≤ a.groups.factor c.primaryGroup)
    (hrf : 0 ≤ a.rules.factor c.name) :
    (∀ x y : Cost, x ≤ y → a.adjust c x ≤ a.adjust d y) ∧
      (0 < a.groups.factor c.primaryGroup → 0 < a.rules.factor c.name →
        a.adjust c Cost.top = .top ∧ a.adjust d Cost.top = .top) := by
  have hother (cost : Cost) : a.adjust d cost = a.adjust c cost := by
    rw [adjust_eq_stage_stage, adjust_eq_stage_stage, hname, hgroup]
  refine ⟨fun x y hxy => ?_, fun hgpos hrpos => ?_⟩
  · rw [hother, adjust_eq_stage_stage, adjust_eq_stage_stage]
    exact Cost.stage_mono hrf _ (Cost.stage_mono hgf _ hxy)
  · have hne {n : Int64} (hpos : 0 < n) : n ≠ 0 := by
      rintro rfl
      exact Int64.lt_irrefl hpos
    have htop : a.adjust c Cost.top = .top := by
      rw [adjust_eq_stage_stage, Cost.stage_top (hne hgpos), Cost.stage_top (hne hrpos)]
    exact ⟨htop, (hother .top).trans htop⟩

/-- The costs of two candidates that share their rule and their primary group but not their other groups
meet at the lower end of the range in the stage of the group, are negative after it, and are still in
order. -/
theorem adjust_le_adjust_of_limited :
    let c : Candidate := ⟨"andLeft", some ["alpha", "beta"]⟩
    let d : Candidate := ⟨"andLeft", some ["alpha"]⟩
    let a : Adjustments := [⟨.group, "alpha", .factor 3⟩, ⟨.group, "alpha", .summand (-5)⟩,
      ⟨.rule, "andLeft", .factor 2⟩, ⟨.rule, "andLeft", .summand 8⟩].foldl set ∅
    let x := Cost.finite Int64.minValue
    let y := Cost.finite (Int64.minValue + 1)
    let z := Cost.finite (-1)
    a.adjust c x ≤ a.adjust d y ∧ a.adjust d y ≤ a.adjust c z ∧ a.adjust c z ≤ a.adjust d Cost.top ∧
      a.adjust c x = .finite (Int64.minValue + 8) ∧ a.adjust c z = .finite (-8) ∧
      a.adjust d Cost.top = .top := by
  intro c d a x y z
  obtain ⟨hle, htop⟩ := adjust_le_adjust a (c := c) (d := d) rfl rfl (by decide) (by decide)
  obtain ⟨hle', -⟩ := adjust_le_adjust a (c := d) (d := c) rfl rfl (by decide) (by decide)
  exact ⟨hle x y (by decide), hle' y z (by decide), hle z .top (by decide), by decide, by decide,
    (htop (by decide) (by decide)).2⟩

end Adjustments

end RuleSteering
