import RuleSteering.Adjustments
import RuleSteering.Gate

/-!
# Snapshots of overrides

A snapshot holds all that is explicitly overridden, and nothing that was only remembered.

* `Snapshot.overrides` lists it, the groups before the rules and within each the factors, the
  summands and the disabled names;
* `Snapshot.toProperties` writes it as a property map.
-/

namespace RuleSteering

/-- Every explicit override. -/
structure Snapshot where
  adjustments : Adjustments := ∅
  disabledRules : Std.ExtTreeSet String := ∅
  disabledGroups : Std.ExtTreeSet String := ∅
  deriving DecidableEq

namespace Snapshot

instance : EmptyCollection Snapshot := ⟨{}⟩

/-- Whether nothing is overridden. -/
def isEmpty (s : Snapshot) : Bool :=
  s.adjustments.isEmpty && s.disabledRules.isEmpty && s.disabledGroups.isEmpty

/-- The overrides of a snapshot. -/
def overrides (s : Snapshot) : List Override :=
  s.adjustments.groups.overrides .group ++ Override.disabling .group s.disabledGroups ++
    (s.adjustments.rules.overrides .rule ++ Override.disabling .rule s.disabledRules)

/-- The property map that holds exactly the overrides of a snapshot. -/
def toProperties (s : Snapshot) : Properties :=
  Properties.store ∅ s.overrides

end Snapshot

end RuleSteering
