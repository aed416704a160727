import RuleSteering.Adjustments
import RuleSteering.Proofs.Cost

/-!
# What an adjusted cost depends on

The adjusted cost of a candidate depends on four numbers: the factor and the summand that are looked
up for its primary group, and those for its rule. Whether they are stored or missing makes no
difference, and neither does anything else that the tables hold. This needs no law of the arithmetic
(`adjust_eq_of_effective`).

* `CostDomain.linear`, what a factor and a summand make of a cost; `LinearTable.adjustAt_eq_linear`, a
  table makes the same of it with what it looks up, also if it is empty;
* `Adjustments.AgreeOn`, adjustments that look up the same for a candidate;
* `Override.Concerns`, an override is about what is looked up for a candidate;
  `Adjustments.Effective`, it sets what is looked up already. An override that is effective already
  or does not concern the candidate changes nothing for it (`AgreeOn.foldl_set`);
* `CostTerm`, costs that are written down as they are made;
* `Adjustments.map_adjust`, adjusted costs in different domains.
-/

namespace RuleSteering

open Override

variable {C : Type} [CostDomain C]

/-- The cost that a factor and a summand make of a cost. The arithmetic is left out if the factor is
zero, or if it is one and the summand is zero. -/
def CostDomain.linear (factor summand : Int64) (cost : C) : C :=
  if factor = 0 then zero
  else if factor = 1 ∧ summand = 0 then cost
  else add (mul cost (ofInteger factor)) (ofInteger summand)

theorem CostDomain.linear_zero (summand : Int64) (cost : C) : linear 0 summand cost = zero :=
  if_pos rfl

theorem CostDomain.linear_one_zero (cost : C) : linear 1 0 cost = cost := by
  rw [linear, if_neg (by decide), if_pos ⟨rfl, rfl⟩]

theorem CostDomain.IsHom.map_linear {D : Type} [CostDomain D] {f : C → D} (hf : IsHom f)
    (factor summand : Int64) (cost : C) :
    f (linear factor summand cost) = linear factor summand (f cost) := by
  unfold linear
  split
  · exact hf.zero
  · split
    · rfl
    · rw [hf.add, hf.mul, hf.ofInteger, hf.ofInteger]

/-- A cost that is written down as it is made, so that no two ways to make a cost are the same. -/
inductive CostTerm
  | zero
  | integer (n : Int64)
  | product (a b : CostTerm)
  | sum (a b : CostTerm)
  deriving DecidableEq

instance : CostDomain CostTerm where
  zero := .zero
  ofInteger := .integer
  mul := .product
  add := .sum
  isZero cost := cost == .zero

/-! ### Looking up -/

namespace LinearTable

theorem factor_setFactor (t : LinearTable) (key k : String) (n : Int64) :
    (t.setFactor key n).factor k = if key = k then n else t.factor k := by
  simp [factor, Std.ExtTreeMap.getD_insert]

theorem summand_setSummand (t : LinearTable) (key k : String) (n : Int64) :
    (t.setSummand key n).summand k = if key = k then n else t.summand k := by
  simp [summand, Std.ExtTreeMap.getD_insert]

@[simp] theorem summand_setFactor (t : LinearTable) (key k : String) (n : Int64) :
    (t.setFactor key n).summand k = t.summand k := rfl

@[simp] theorem factor_setSummand (t : LinearTable) (key k : String) (n : Int64) :
    (t.setSummand key n).factor k = t.factor k := rfl

theorem factor_of_not_mem {t : LinearTable} {key : String} (h : key ∉ t.factors) :
    t.factor key = 1 :=
  Std.ExtTreeMap.getD_eq_fallback h

theorem summand_of_not_mem {t : LinearTable} {key : String} (h : key ∉ t.summands) :
    t.summand key = 0 :=
  Std.ExtTreeMap.getD_eq_fallback h

theorem not_mem_of_isEmpty {t : LinearTable} (h : t.isEmpty = true) (key : String) :
    key ∉ t.factors ∧ key ∉ t.summands := by
  rw [isEmpty, Bool.and_eq_true, Std.ExtTreeMap.isEmpty_iff, Std.ExtTreeMap.isEmpty_iff] at h
  rw [h.1, h.2]
  exact ⟨Std.ExtTreeMap.not_mem_empty, Std.ExtTreeMap.not_mem_empty⟩

/-- A factor or a summand is stored under its key; a disabled flag has no place in the table. -/
def put (t : LinearTable) (key : String) : Setting → LinearTable
  | .factor n => t.setFactor key n
  | .summand n => t.setSummand key n
  | .disabled _ => t

/-- The setting is what is looked up under the key already, be it stored or missing. -/
def Effective (t : LinearTable) (key : String) : Setting → Prop
  | .factor n => t.factor key = n
  | .summand n => t.summand key = n
  | .disabled _ => True

instance (t : LinearTable) (key : String) : (x : Setting) → Decidable (t.Effective key x)
  | .factor n => inferInstanceAs (Decidable (t.factor key = n))
  | .summand n => inferInstanceAs (Decidable (t.summand key = n))
  | .disabled _ => inferInstanceAs (Decidable True)

/-- To store a setting changes no factor that is looked up, unless it is a new one for this key. -/
theorem factor_put {t : LinearTable} {key k : String} {x : Setting} (h : key = k → t.Effective k x) :
    (t.put key x).factor k = t.factor k := by
  cases x with
  | factor n =>
    rw [put, factor_setFactor]
    split
    · rename_i hkey
      exact (h hkey).symm
    · rfl
  | summand n => rw [put, factor_setSummand]
  | disabled b => rfl

theorem summand_put {t : LinearTable} {key k : String} {x : Setting}
    (h : key = k → t.Effective k x) : (t.put key x).summand k = t.summand k := by
  cases x with
  | factor n => rw [put, summand_setFactor]
  | summand n =>
    rw [put, summand_setSummand]
    split
    · rename_i hkey
      exact (h hkey).symm
    · rfl
  | disabled b => rfl

/-- A default that is missing is what is looked up. -/
theorem effective_default {t : LinearTable} {key : String} {x : Setting}
    (h : x = .factor 1 ∧ key ∉ t.factors ∨ x = .summand 0 ∧ key ∉ t.summands) :
    t.Effective key x := by
  rcases h with ⟨rfl, hkey⟩ | ⟨rfl, hkey⟩
  · exact factor_of_not_mem hkey
  · exact summand_of_not_mem hkey

/-- A table makes of a cost what the factor and the summand make of it that it looks up. -/
theorem adjustAt_eq_linear (t : LinearTable) (key : String) (cost : C) :
    t.adjustAt key cost = CostDomain.linear (t.factor key) (t.summand key) cost := by
  unfold adjustAt
  split
  · -- nothing is stored, so the lookup gives the defaults
    rename_i hempty
    obtain ⟨hfactor, hsummand⟩ := not_mem_of_isEmpty hempty key
    rw [factor_of_not_mem hfactor, summand_of_not_mem hsummand, CostDomain.linear_one_zero]
  · rfl

end LinearTable

/-- How a candidate is looked up in the table of a scope. -/
def Override.Scope.policy : Scope → KeyPolicy
  | .rule => .byName
  | .group => .byPrimaryGroup

/-- The override is about the rule of a candidate or about its primary group. -/
def Override.Concerns (o : Override) (c : Candidate) : Prop :=
  o.name = o.scope.policy.keyOf c

instance (o : Override) (c : Candidate) : Decidable (o.Concerns c) :=
  inferInstanceAs (Decidable (o.name = o.scope.policy.keyOf c))

namespace Adjustments

/-- The table of a scope. -/
def table (a : Adjustments) : Scope → LinearTable
  | .rule => a.rules
  | .group => a.groups

/-- The adjustments look up the same factors and summands for a candidate. -/
structure AgreeOn (c : Candidate) (a b : Adjustments) : Prop where
  factor : ∀ scope : Scope, (a.table scope).factor (scope.policy.keyOf c) =
    (b.table scope).factor (scope.policy.keyOf c)
  summand : ∀ scope : Scope, (a.table scope).summand (scope.policy.keyOf c) =
    (b.table scope).summand (scope.policy.keyOf c)

/-- The override sets what is looked up under its key already. -/
def Effective (a : Adjustments) (o : Override) : Prop :=
  (a.table o.scope).Effective o.name o.setting

instance (a : Adjustments) (o : Override) : Decidable (a.Effective o) :=
  inferInstanceAs (Decidable ((a.table o.scope).Effective o.name o.setting))

theorem table_set (a : Adjustments) (o : Override) (scope : Scope) :
    (a.set o).table scope =
      if scope = o.scope then (a.table scope).put o.name o.setting else a.table scope := by
  obtain ⟨scope', name, x⟩ := o
  cases scope <;> cases scope' <;> cases x <;> rfl

/-- The table of the groups and then that of the rules, each with what it looks up. -/
theorem adjust_eq_linear (a : Adjustments) (c : Candidate) (cost : C) :
    a.adjust c cost = CostDomain.linear (a.rules.factor c.name) (a.rules.summand c.name)
      (CostDomain.linear (a.groups.factor c.primaryGroup) (a.groups.summand c.primaryGroup) cost) := by
  rw [adjust, LinearTable.adjust, LinearTable.adjust, LinearTable.adjustAt_eq_linear,
    LinearTable.adjustAt_eq_linear]
  rfl

/-- A map between domains of costs takes adjusted costs to adjusted costs. -/
theorem map_adjust {D : Type} [CostDomain D] {f : C → D} (hf : CostDomain.IsHom f)
    (a : Adjustments) (c : Candidate) (cost : C) : f (a.adjust c cost) = a.adjust c (f cost) := by
  rw [adjust_eq_linear, adjust_eq_linear, hf.map_linear, hf.map_linear]

namespace AgreeOn

variable {a b d : Adjustments} {c : Candidate}

theorem trans (h : AgreeOn c a b) (h' : AgreeOn c b d) : AgreeOn c a d :=
  ⟨fun scope => (h.factor scope).trans (h'.factor scope),
    fun scope => (h.summand scope).trans (h'.summand scope)⟩

/-- Adjustments that look up the same make the same of every cost. -/
theorem adjust_eq (h : AgreeOn c a b) (cost : C) : a.adjust c cost = b.adjust c cost := by
  obtain ⟨hfactor, hsummand⟩ := h
  have hrf : a.rules.factor c.name = b.rules.factor c.name := hfactor .rule
  have hrs : a.rules.summand c.name = b.rules.summand c.name := hsummand .rule
  have hgf : a.groups.factor c.primaryGroup = b.groups.factor c.primaryGroup := hfactor .group
  have hgs : a.groups.summand c.primaryGroup = b.groups.summand c.primaryGroup := hsummand .group
  rw [adjust_eq_linear, adjust_eq_linear, hrf, hrs, hgf, hgs]

/-- An override that concerns the candidate is effective in both or in none. -/
theorem effective_iff (h : AgreeOn c a b) {o : Override} (ho : o.Concerns c) :
    a.Effective o ↔ b.Effective o := by
  unfold Effective
  rw [show o.name = o.scope.policy.keyOf c from ho]
  cases o.setting with
  | factor n => simp only [LinearTable.Effective, h.factor]
  | summand n => simp only [LinearTable.Effective, h.summand]
  | disabled b => exact Iff.rfl

/-- What is looked up for a candidate stays as it is, unless an override concerns the candidate and
sets something else. -/
theorem set {o : Override} (ho : o.Concerns c → a.Effective o) : AgreeOn c a (a.set o) := by
  have hput {scope : Scope} (hscope : scope = o.scope) (hname : o.name = scope.policy.keyOf c) :
      (a.table scope).Effective (scope.policy.keyOf c) o.setting := by
    subst hscope
    rw [← hname]
    exact ho hname
  refine ⟨fun scope => ?_, fun scope => ?_⟩
  · rw [table_set]
    split
    · rename_i hscope
      exact (LinearTable.factor_put (hput hscope)).symm
    · rfl
  · rw [table_set]
    split
    · rename_i hscope
      exact (LinearTable.summand_put (hput hscope)).symm
    · rfl

/-- So it does with a list of such overrides. -/
theorem foldl_set {os : List Override} (hos : ∀ o ∈ os, o.Concerns c → a.Effective o) :
    AgreeOn c a (os.foldl Adjustments.set a) := by
  induction os generalizing a with
  | nil => exact ⟨fun _ => rfl, fun _ => rfl⟩
  | cons o os ih =>
    have hfirst : AgreeOn c a (a.set o) := set (hos o List.mem_cons_self)
    refine hfirst.trans (ih fun p hp hconcerns => ?_)
    exact (hfirst.effective_iff hconcerns).mp (hos p (List.mem_cons_of_mem _ hp) hconcerns)

end AgreeOn

/-- In every domain of costs, whatever its arithmetic does: adjustments that look up the same factor
and the same summand for the primary group of a candidate and for its rule make the same of every
cost. Overrides of other rules and groups change nothing for the candidate, in any number and mixed
with others that set what is looked up already, such as a default that is missing. If the factor of
the rule is zero the cost is zero, whatever else is overridden. -/
theorem adjust_eq_of_effective (a : Adjustments) (c : Candidate) (cost : C) :
    (∀ b : Adjustments,
      a.groups.factor c.primaryGroup = b.groups.factor c.primaryGroup →
      a.groups.summand c.primaryGroup = b.groups.summand c.primaryGroup →
      a.rules.factor c.name = b.rules.factor c.name →
      a.rules.summand c.name = b.rules.summand c.name → a.adjust c cost = b.adjust c cost) ∧
      (∀ os : List Override, (∀ o ∈ os, o.Concerns c → a.Effective o) →
        (os.foldl set a).adjust c cost = a.adjust c cost) ∧
      (∀ o : Override, o.setting = .factor 1 ∧ o.name ∉ (a.table o.scope).factors ∨
          o.setting = .summand 0 ∧ o.name ∉ (a.table o.scope).summands →
        (a.set o).adjust c cost = a.adjust c cost) ∧
      (a.rules.factor c.name = 0 → a.adjust c cost = CostDomain.zero) := by
  refine ⟨fun b hgf hgs hrf hrs => ?_, fun os hos => ?_, fun o hdefault => ?_, fun hzero => ?_⟩
  · have hagree : AgreeOn c a b := by
      refine ⟨fun scope => ?_, fun scope => ?_⟩
      · cases scope with
        | rule => exact hrf
        | group => exact hgf
      · cases scope with
        | rule => exact hrs
        | group => exact hgs
    exact hagree.adjust_eq cost
  · exact ((AgreeOn.foldl_set hos).adjust_eq cost).symm
  · have heffective : a.Effective o := LinearTable.effective_default hdefault
    exact ((AgreeOn.set fun _ => heffective).adjust_eq cost).symm
  · rw [adjust_eq_linear, hzero, CostDomain.linear_zero]

/-- A default that is stored makes the table of the groups look up what it looked up when it was empty,
and so the arithmetic is left out. A summand that is stored for the rule, an override of its second
group and one of another rule add nothing to the one product and the one sum of the rule, and the
factor zero drops both. -/
theorem adjust_eq_of_defaults :
    let c : Candidate := ⟨"andLeft", some ["alpha", "beta"]⟩
    let cost := CostTerm.integer 7
    let a := (∅ : Adjustments).set ⟨.rule, "andLeft", .factor 3⟩
    let b := a.set ⟨.group, "alpha", .factor 1⟩
    let os : List Override := [⟨.rule, "andLeft", .summand 0⟩, ⟨.group, "beta", .factor 0⟩,
      ⟨.rule, "cut", .summand 9⟩]
    let z := b.set ⟨.rule, "andLeft", .factor 0⟩
    a.groups.isEmpty = true ∧ b.groups.isEmpty = false ∧
      b.adjust c cost = a.adjust c cost ∧ (os.foldl set a).adjust c cost = a.adjust c cost ∧
      b.adjust c cost = (os.foldl set a).adjust c cost ∧
      a.adjust c cost = .sum (.product (.integer 7) (.integer 3)) (.integer 0) ∧
      z.adjust c cost = .zero := by
  intro c cost a b os z
  obtain ⟨-, hlist, hdefault, -⟩ := adjust_eq_of_effective a c cost
  obtain ⟨hagree, -, -, -⟩ := adjust_eq_of_effective b c cost
  obtain ⟨-, -, -, hzero⟩ := adjust_eq_of_effective z c cost
  have hsame : b.adjust c cost = (os.foldl set a).adjust c cost :=
    hagree _ (by decide) (by decide) (by decide) (by decide)
  exact ⟨by decide, by decide, hdefault _ (.inl ⟨rfl, by decide⟩), hlist os (by decide), hsame,
    by decide, hzero (by decide)⟩

end Adjustments

end RuleSteering
