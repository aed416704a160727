import RuleSteering.LinearTable

/-!
# Adjustments of costs

Two tables, one for groups and one for rules. The table of the groups adjusts the cost of a
candidate first, under the primary group of the candidate, and the table of the rules then
adjusts the result, under the name of the rule.

* `Adjustments.set?` takes an override over, unless it is about the disabled flag;
* `Adjustments.overrides` lists what is configured, and `Adjustments.ofPairs` builds the tables
  from pairs of texts, of which malformed ones do not count.
-/

namespace RuleSteering

/-- The table of the groups and the table of the rules. -/
structure Adjustments where
  groups : LinearTable := ∅
  rules : LinearTable := ∅
  deriving DecidableEq

namespace Adjustments

instance : EmptyCollection Adjustments := ⟨{}⟩

/-- Whether neither table holds anything. -/
def isEmpty (a : Adjustments) : Bool :=
  a.groups.isEmpty && a.rules.isEmpty

/-- Take over a factor or a summand; a disabled flag has no place in the tables. -/
def set? (a : Adjustments) (o : Override) : Option Adjustments :=
  match o.scope, o.setting with
  | .group, .factor n => some { a with groups := a.groups.setFactor o.name n }
  | .group, .summand n => some { a with groups := a.groups.setSummand o.name n }
  | .rule, .factor n => some { a with rules := a.rules.setFactor o.name n }
  | .rule, .summand n => some { a with rules := a.rules.setSummand o.name n }
  | _, .disabled _ => none

/-- Take over an override if it is a factor or a summand. -/
def set (a : Adjustments) (o : Override) : Adjustments :=
  (a.set? o).getD a

/-- The tables that hold the factors and summands of a list of pairs; later pairs win. -/
def ofPairs (pairs : List (String × String)) : Adjustments :=
  (pairs.filterMap Override.ofPair?).foldl set ∅

/-- What is configured, the groups before the rules. -/
def overrides (a : Adjustments) : List Override :=
  a.groups.overrides .group ++ a.rules.overrides .rule

/-- The adjusted cost of a candidate, given the cost that the engine assigns to it. -/
def adjust {C : Type} [CostDomain C] (a : Adjustments) (c : Candidate) (cost : C) : C :=
  a.rules.adjust .byName c (a.groups.adjust .byPrimaryGroup c cost)

@[simp] theorem set?_disabled (a : Adjustments) (scope : Override.Scope) (name : String)
    (b : Bool) : a.set? ⟨scope, name, .disabled b⟩ = none := by
  cases scope <;> rfl

end Adjustments

end RuleSteering
