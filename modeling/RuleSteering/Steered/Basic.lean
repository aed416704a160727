import RuleSteering.Snapshot
import RuleSteering.Strategy

/-!
# Steered strategies

A steered strategy wraps a base strategy with a gate and with adjustments of costs. The gate is
asked before the base strategy, which does not see the candidates that the gate turns away; the
cost of the base strategy is adjusted for the primary group and then for the rule.

* `wrap`, `load`, `restore`, `set`, `reset` change what is overridden;
* `store` and `snapshot` export it;
* `admits` and `cost` answer for a candidate, which makes a steered strategy a strategy that can
  be wrapped again.

The flag `configured` is set by every operation that loads or edits overrides, even if it loads
none, and cleared by `reset`.
-/

namespace RuleSteering

/-- A base strategy with the overrides that steer it. -/
structure Steered (S : Type) where
  base : S
  gate : Gate := ∅
  adjustments : Adjustments := ∅
  configured : Bool := false
  deriving DecidableEq

namespace Steered

variable {S : Type}

/-- Wrap a strategy without any overrides. -/
def wrap (base : S) : Steered S := { base }

/-- Change the base strategy and leave the overrides alone. -/
def mapBase (f : S → S) (s : Steered S) : Steered S :=
  { s with base := f s.base }

/-! ### Overrides -/

/-- Hand an override to the adjustments or, if it is none of theirs, to the gate. -/
def put (s : Steered S) (o : Override) : Steered S :=
  match s.adjustments.set? o with
  | some a => { s with adjustments := a }
  | none => { s with gate := s.gate.set o }

/-- Hand over the overrides of a list, from the first to the last. -/
def putAll (s : Steered S) (os : List Override) : Steered S :=
  os.foldl put s

/-- Edit one override. -/
def set (s : Steered S) (o : Override) : Steered S :=
  { s with configured := true }.put o

/-- Load the well-formed ones of a list of pairs, later pairs last, and count them. -/
def load (s : Steered S) (pairs : List (String × String)) : Nat × Steered S :=
  let os := pairs.filterMap Override.ofPair?
  (os.length, { s with configured := true }.putAll os)

/-- Load a snapshot into what is already overridden. -/
def restore (s : Steered S) (snapshot : Snapshot) : Steered S :=
  { s with configured := true }.putAll snapshot.overrides

/-- Drop all overrides and every remembered name. -/
def reset (s : Steered S) : Steered S := wrap s.base

/-- Write every explicit override into a property map. -/
def store (s : Steered S) (into : Properties) : Properties :=
  (into.store s.adjustments.overrides).store s.gate.overrides

/-- Every explicit override. -/
def snapshot (s : Steered S) : Snapshot :=
  ⟨s.adjustments, s.gate.explicitRules, s.gate.groups⟩

@[simp] theorem putAll_nil (s : Steered S) : s.putAll [] = s := rfl

@[simp] theorem putAll_cons (s : Steered S) (o : Override) (os : List Override) :
    s.putAll (o :: os) = (s.put o).putAll os := rfl

@[simp] theorem putAll_append (s : Steered S) (os ps : List Override) :
    s.putAll (os ++ ps) = (s.putAll os).putAll ps := by
  simp [putAll]

@[simp] theorem base_put (s : Steered S) (o : Override) : (s.put o).base = s.base := by
  unfold put
  split <;> rfl

@[simp] theorem configured_put (s : Steered S) (o : Override) :
    (s.put o).configured = s.configured := by
  unfold put
  split <;> rfl

@[simp] theorem base_putAll (s : Steered S) (os : List Override) :
    (s.putAll os).base = s.base := by
  induction os generalizing s with
  | nil => rfl
  | cons o os ih => simp [ih]

@[simp] theorem configured_putAll (s : Steered S) (os : List Override) :
    (s.putAll os).configured = s.configured := by
  induction os generalizing s with
  | nil => rfl
  | cons o os ih => simp [ih]

/-! ### Candidates -/

variable {C : Type} [Strategy S C]

/-- Whether a candidate may be used; the base strategy is asked only past the gate. -/
def admits (s : Steered S) (c : Candidate) : Bool × Steered S :=
  let seen := { s with gate := s.gate.after c }
  if s.gate.rejects c then (false, seen)
  else
    let (allowed, base) := Strategy.admits s.base c
    (allowed, { seen with base })

/-- The adjusted cost of a candidate. -/
def cost [CostDomain C] (s : Steered S) (c : Candidate) : C :=
  s.adjustments.adjust c (Strategy.cost s.base c)

instance [CostDomain C] : Strategy (Steered S) C where
  name _ := "AdaptableStrategy"
  admits := admits
  cost := cost
  stopsAtOpenGoal s := Strategy.stopsAtOpenGoal s.base

end Steered

end RuleSteering
