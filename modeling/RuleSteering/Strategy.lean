import RuleSteering.Candidate
import RuleSteering.Cost

/-!
# Strategies

A strategy is what the search engine consults for each candidate: whether the candidate may be
used at all, and at which cost. Asking for admission may change the strategy, asking for a cost
does not.
-/

namespace RuleSteering

/-- A strategy of type `S` with costs of type `C`. -/
class Strategy (S : Type) (C : outParam Type) where
  name : S → String
  /-- Whether a candidate may be used, and the strategy after the question. -/
  admits : S → Candidate → Bool × S
  /-- The priority of an admitted candidate. -/
  cost : S → Candidate → C
  /-- Whether the search stops at the first goal that cannot be closed. -/
  stopsAtOpenGoal : S → Bool := fun _ => false

end RuleSteering
