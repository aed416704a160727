import RuleSteering.Proofs.Gate.History
import RuleSteering.Steered.Row

/-!
# Histories of a steered strategy

What can be done to a steered strategy, one action at a time.

* `Action`, `step`, `run`; a strategy is reachable if it is `(wrap base).run acts`;
* `Indifferent`, a base strategy without an opinion;
* the gate and the adjustments take an override over side by side (`gate_put`,
  `adjustments_put`), and so they do with a list of overrides;
* `gateEvents`, what an action means to the gate, so that whatever the histories of a gate keep is
  kept by the histories of a steered strategy (`Gate.Kept.gate_run`);
* `handedOver`, what an action means to the adjustments (`adjustments_step`).
-/

namespace RuleSteering

namespace Steered

variable {S : Type}

/-! ### The parts of a steered strategy -/

@[simp] theorem gate_put (s : Steered S) (o : Override) : (s.put o).gate = s.gate.set o := by
  obtain ⟨scope, name, setting⟩ := o
  cases scope <;> cases setting <;> rfl

@[simp] theorem adjustments_put (s : Steered S) (o : Override) :
    (s.put o).adjustments = s.adjustments.set o := by
  obtain ⟨scope, name, setting⟩ := o
  cases scope <;> cases setting <;> rfl

@[simp] theorem gate_putAll (s : Steered S) (os : List Override) :
    (s.putAll os).gate = os.foldl Gate.set s.gate := by
  induction os generalizing s with
  | nil => rfl
  | cons o os ih => simp [ih]

@[simp] theorem adjustments_putAll (s : Steered S) (os : List Override) :
    (s.putAll os).adjustments = os.foldl Adjustments.set s.adjustments := by
  induction os generalizing s with
  | nil => rfl
  | cons o os ih => simp [ih]

@[simp] theorem gate_set (s : Steered S) (o : Override) : (s.set o).gate = s.gate.set o :=
  gate_put { s with configured := true } o

@[simp] theorem adjustments_set (s : Steered S) (o : Override) :
    (s.set o).adjustments = s.adjustments.set o :=
  adjustments_put { s with configured := true } o

theorem gate_setAll (s : Steered S) (scope : Override.Scope) (name : String)
    (settings : List Override.Setting) :
    (s.setAll scope name settings).gate =
      (settings.map (Override.mk scope name)).foldl Gate.set s.gate := by
  induction settings generalizing s with
  | nil => rfl
  | cons x settings ih => simp [ih]

theorem adjustments_setAll (s : Steered S) (scope : Override.Scope) (name : String)
    (settings : List Override.Setting) :
    (s.setAll scope name settings).adjustments =
      (settings.map (Override.mk scope name)).foldl Adjustments.set s.adjustments := by
  induction settings generalizing s with
  | nil => rfl
  | cons x settings ih => simp [ih]

/-! ### Actions -/

/-- What can be done to a steered strategy. Looking at costs or rows is an action as well, though
it changes nothing. -/
inductive Action
  | load (pairs : List (String × String))
  | restore (snapshot : Snapshot)
  | set (o : Override)
  | writeRuleRow (r : Row)
  | writeGroupRow (r : Row)
  | reset
  | offer (c : Candidate)
  | price (c : Candidate)
  | showRuleRows (names : List String)
  | showGroupRows (names : List String)

/-- The candidates that are offered for admission satisfy `Q`. -/
def Action.Offers (Q : Candidate → Prop) : Action → Prop
  | .offer c => Q c
  | _ => True

variable {C : Type} [Strategy S C]

/-- The steered strategy after an action. -/
def step (s : Steered S) : Action → Steered S
  | .load pairs => (s.load pairs).2
  | .restore snapshot => s.restore snapshot
  | .set o => s.set o
  | .writeRuleRow r => s.writeRuleRow r
  | .writeGroupRow r => s.writeGroupRow r
  | .reset => s.reset
  | .offer c => (s.admits c).2
  | .price _ => s
  | .showRuleRows _ => s
  | .showGroupRows _ => s

/-- The steered strategy after a history of actions. -/
def run (s : Steered S) (acts : List Action) : Steered S := acts.foldl step s

@[simp] theorem run_nil (s : Steered S) : s.run [] = s := rfl

@[simp] theorem run_cons (s : Steered S) (a : Action) (acts : List Action) :
    s.run (a :: acts) = (s.step a).run acts := rfl

theorem run_append (s : Steered S) (as bs : List Action) :
    s.run (as ++ bs) = (s.run as).run bs :=
  List.foldl_append

/-- The strategy that admits every candidate at the same cost. -/
structure Indifferent (C : Type) where
  cost : C

instance {C : Type} : Strategy (Indifferent C) C where
  name _ := "Indifferent"
  admits s _ := (true, s)
  cost s _ := s.cost

/-- What an action means to the gate. -/
def gateEvents (s : Steered S) : Action → List Gate.Event
  | .load pairs => (pairs.filterMap Override.ofPair?).map .set
  | .restore snapshot => snapshot.overrides.map .set
  | .set o => [.set o]
  | .writeRuleRow r => (((s.ruleRow r.key).changes r).map (Override.mk .rule r.key)).map .set
  | .writeGroupRow r => (((s.groupRow r.key).changes r).map (Override.mk .group r.key)).map .set
  | .reset => [.clear]
  | .offer c => [.ask c]
  | _ => []

theorem gate_admits (s : Steered S) (c : Candidate) : (s.admits c).2.gate = s.gate.after c := by
  unfold admits
  split <;> rfl

@[simp] theorem adjustments_admits (s : Steered S) (c : Candidate) :
    (s.admits c).2.adjustments = s.adjustments := by
  unfold admits
  split <;> rfl

/-- A question about a candidate changes no override. -/
@[simp] theorem snapshot_admits (s : Steered S) (c : Candidate) :
    (s.admits c).2.snapshot = s.snapshot := by
  rw [snapshot, snapshot, gate_admits, Gate.explicitRules_after, Gate.groups_after,
    adjustments_admits]

theorem gate_step (s : Steered S) (a : Action) : (s.step a).gate = s.gate.run (s.gateEvents a) := by
  have sets (g : Gate) (os : List Override) : g.run (os.map .set) = os.foldl Gate.set g := by
    simp [Gate.run, List.foldl_map, Gate.step]
  cases a with
  | load pairs => simp [step, gateEvents, load, sets]
  | restore snapshot => simp [step, gateEvents, restore, sets]
  | set o => exact gate_set s o
  | writeRuleRow r => simp only [step, gateEvents, writeRuleRow, gate_setAll, sets]
  | writeGroupRow r => simp only [step, gateEvents, writeGroupRow, gate_setAll, sets]
  | reset => rfl
  | offer c => exact gate_admits s c
  | price c => rfl
  | showRuleRows names => rfl
  | showGroupRows names => rfl

/-- The overrides that an action hands over. -/
def handedOver (s : Steered S) : Action → List Override
  | .load pairs => pairs.filterMap Override.ofPair?
  | .restore snapshot => snapshot.overrides
  | .set o => [o]
  | .writeRuleRow r => ((s.ruleRow r.key).changes r).map (Override.mk .rule r.key)
  | .writeGroupRow r => ((s.groupRow r.key).changes r).map (Override.mk .group r.key)
  | _ => []

/-- Only a reset does more to the tables than to take over what is handed over. -/
theorem adjustments_step (s : Steered S) {a : Action} (ha : a ≠ .reset) :
    (s.step a).adjustments = (s.handedOver a).foldl Adjustments.set s.adjustments := by
  cases a with
  | load pairs => exact adjustments_putAll _ _
  | restore snapshot => exact adjustments_putAll _ _
  | set o => exact adjustments_set s o
  | writeRuleRow r => exact adjustments_setAll s _ _ _
  | writeGroupRow r => exact adjustments_setAll s _ _ _
  | reset => exact absurd rfl ha
  | offer c => exact adjustments_admits s c
  | price c => rfl
  | showRuleRows names => rfl
  | showGroupRows names => rfl

theorem asks_gateEvents {Q : Candidate → Prop} (s : Steered S) {a : Action} (ha : a.Offers Q) :
    ∀ e ∈ s.gateEvents a, e.Asks Q := by
  intro e he
  cases a <;> simp only [gateEvents, List.mem_map, List.mem_singleton, List.not_mem_nil] at he
  case offer c =>
    subst he
    exact ha
  case set | reset =>
    subst he
    trivial
  all_goals
    obtain ⟨x, -, rfl⟩ := he
    trivial

end Steered

/-- What the histories of a gate keep holds of the gate of every reachable strategy. -/
theorem Gate.Kept.gate_run {S C : Type} [Strategy S C] {Q : Candidate → Prop} {P : Gate → Prop}
    (hP : Kept Q P) {s : Steered S} (hs : P s.gate) {acts : List Steered.Action}
    (hacts : ∀ a ∈ acts, a.Offers Q) : P (s.run acts).gate := by
  induction acts generalizing s with
  | nil => exact hs
  | cons a acts ih =>
    have ha := hacts a List.mem_cons_self
    refine ih ?_ fun x hx => hacts x (List.mem_cons_of_mem _ hx)
    rw [Steered.gate_step]
    exact hP.run hs (s.asks_gateEvents ha)

/-- The names that a reachable strategy remembers are disabled. -/
theorem Steered.wellFormed_gate_run {S C : Type} [Strategy S C] (base : S)
    (acts : List Steered.Action) : ((wrap base).run acts).gate.WellFormed :=
  (Gate.WellFormed.kept fun _ => True).gate_run Gate.wellFormed_empty fun a _ => by
    cases a <;> trivial

end RuleSteering
