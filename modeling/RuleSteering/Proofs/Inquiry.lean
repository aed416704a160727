import RuleSteering.Proofs.Sequence
import RuleSteering.Strategy

/-!
# Questions to a strategy

* `Question`, `Answer` and `respond`, what every strategy can be asked about a candidate;
* `Recorder`, a strategy that keeps a record of the candidates whose admission it is asked about, and
  `transcript_recorder`: its answers are those of the strategy that is recorded.
-/

namespace RuleSteering

variable {S C : Type} [Strategy S C]

/-- What an engine asks a strategy about a candidate. -/
inductive Question
  | admission (c : Candidate)
  | cost (c : Candidate)

/-- What a strategy with costs of type `C` answers. -/
inductive Answer (C : Type)
  | admitted (b : Bool)
  | cost (x : C)

/-- The answer of a strategy to a question, and the strategy after it. -/
def respond (s : S) : Question → Answer C × S
  | .admission c => (.admitted (Strategy.admits s c).1, (Strategy.admits s c).2)
  | .cost c => (.cost (Strategy.cost s c), s)

/-- A strategy with the candidates whose admission it has been asked about, in this order. -/
structure Recorder (S : Type) where
  strategy : S
  asked : List Candidate := []

instance : Strategy (Recorder S) C where
  name r := Strategy.name r.strategy
  admits r c :=
    ((Strategy.admits r.strategy c).1, ⟨(Strategy.admits r.strategy c).2, r.asked ++ [c]⟩)
  cost r c := Strategy.cost r.strategy c
  stopsAtOpenGoal r := Strategy.stopsAtOpenGoal r.strategy

/-- A strategy answers as if it were not recorded. -/
theorem transcript_recorder (r : Recorder S) (qs : List Question) :
    (transcript respond r qs).1 = (transcript respond r.strategy qs).1 ∧
      (transcript respond r qs).2.strategy = (transcript respond r.strategy qs).2 := by
  have hstep {r : Recorder S} {s : S} (h : r.strategy = s) (q : Question) :
      (respond r q).1 = (respond s q).1 ∧ (respond r q).2.strategy = (respond s q).2 := by
    subst h
    cases q <;> exact ⟨rfl, rfl⟩
  exact transcript_of_related (R := fun (r : Recorder S) s => r.strategy = s) hstep rfl qs

end RuleSteering
