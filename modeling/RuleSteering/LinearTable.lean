import RuleSteering.Candidate
import RuleSteering.Cost
import RuleSteering.Override

/-!
# Tables of factors and summands

A table turns a cost `c` into `c * factor + summand`, with the factor and the summand that it
holds under a key. A missing factor is one and a missing summand is zero.

* `adjustAt`, the adjusted cost for a key. The factor zero gives the zero cost and leaves the
  summand out, and a cost that nothing applies to is returned as it is, without any arithmetic;
* `KeyPolicy`, the two ways to find the key of a candidate.
-/

namespace RuleSteering

/-- How the key of a candidate is found. -/
inductive KeyPolicy
  | byName
  | byPrimaryGroup
  deriving DecidableEq, Repr

/-- The key of a candidate: the name of its rule, or its first group. -/
def KeyPolicy.keyOf : KeyPolicy → Candidate → String
  | .byName, c => c.name
  | .byPrimaryGroup, c => c.primaryGroup

@[simp] theorem KeyPolicy.keyOf_byName (c : Candidate) : byName.keyOf c = c.name := rfl

@[simp] theorem KeyPolicy.keyOf_byPrimaryGroup (c : Candidate) :
    byPrimaryGroup.keyOf c = c.primaryGroup := rfl

/-- The factors and summands that are configured, by key. -/
structure LinearTable where
  factors : Std.ExtTreeMap String Int64 := ∅
  summands : Std.ExtTreeMap String Int64 := ∅
  deriving DecidableEq

namespace LinearTable

instance : EmptyCollection LinearTable := ⟨{}⟩

/-! ### Access -/

/-- The factor of a key, one if none is configured. -/
def factor (t : LinearTable) (key : String) : Int64 :=
  t.factors.getD key 1

/-- The summand of a key, zero if none is configured. -/
def summand (t : LinearTable) (key : String) : Int64 :=
  t.summands.getD key 0

/-- Configure the factor of a key. -/
def setFactor (t : LinearTable) (key : String) (n : Int64) : LinearTable :=
  { t with factors := t.factors.insert key n }

/-- Configure the summand of a key. -/
def setSummand (t : LinearTable) (key : String) (n : Int64) : LinearTable :=
  { t with summands := t.summands.insert key n }

/-- Whether neither a factor nor a summand is configured. -/
def isEmpty (t : LinearTable) : Bool :=
  t.factors.isEmpty && t.summands.isEmpty

/-- What the table holds, as overrides of a scope: the factors, then the summands, by key. -/
def overrides (t : LinearTable) (scope : Override.Scope) : List Override :=
  t.factors.toList.map (fun (key, n) => ⟨scope, key, .factor n⟩) ++
    t.summands.toList.map (fun (key, n) => ⟨scope, key, .summand n⟩)

@[simp] theorem factors_setFactor (t : LinearTable) (key : String) (n : Int64) :
    (t.setFactor key n).factors = t.factors.insert key n := rfl

@[simp] theorem summands_setFactor (t : LinearTable) (key : String) (n : Int64) :
    (t.setFactor key n).summands = t.summands := rfl

@[simp] theorem factors_setSummand (t : LinearTable) (key : String) (n : Int64) :
    (t.setSummand key n).factors = t.factors := rfl

@[simp] theorem summands_setSummand (t : LinearTable) (key : String) (n : Int64) :
    (t.setSummand key n).summands = t.summands.insert key n := rfl

/-! ### Adjusting a cost -/

variable {C : Type} [CostDomain C]

/-- The cost that the table makes of a cost, for a key. -/
def adjustAt (t : LinearTable) (key : String) (cost : C) : C :=
  if t.isEmpty then cost
  else if t.factor key = 0 then CostDomain.zero
  else if t.factor key = 1 ∧ t.summand key = 0 then cost
  else CostDomain.add (CostDomain.mul cost (CostDomain.ofInteger (t.factor key)))
    (CostDomain.ofInteger (t.summand key))

/-- The cost that the table makes of the cost of a candidate. -/
def adjust (t : LinearTable) (policy : KeyPolicy) (c : Candidate) (cost : C) : C :=
  t.adjustAt (policy.keyOf c) cost

end LinearTable

end RuleSteering
