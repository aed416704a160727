import RuleSteering.Proofs.Inquiry
import RuleSteering.Proofs.Steered.Loaded
import RuleSteering.Proofs.Steered.Remembering

/-!
# Strategies in two layers

A steered strategy that wraps another one turns away what the other one would turn away and what is
disabled on itself. As long as nothing is enabled again, the two layers answer like a single strategy
on which all of it is disabled, and ask the base about the same candidates
(`transcript_nested_eq_single`). The groups that come with a name may be others in each question.

* `Move`, an offer to both systems, or something that is disabled on one of the layers and on the
  single strategy; `stepNested` and `stepSingle`, the two systems;
* `United`, the relation between them: a name is disabled on the single strategy if it is on one of
  the layers. Which layer remembers a name makes no difference (`United.offer`);
* `withDisabled`, a strategy that is fresh except for disabled rules and groups.
-/

namespace RuleSteering

namespace Steered

/-! ### Two systems -/

/-- One of two layers. -/
inductive Layer
  | outer
  | inner

/-- A candidate is offered, or a rule or a group is disabled on one of the layers. -/
inductive Move
  | offer (c : Candidate)
  | disable (layer : Layer) (scope : Override.Scope) (name : String)

variable {S C : Type} [Strategy S C]

/-- The answer of a single strategy to an offer, and the strategy after a move. -/
def stepSingle (s : Steered S) : Move → Option Bool × Steered S
  | .offer c => (some (s.admits c).1, (s.admits c).2)
  | .disable _ scope name => (none, s.set ⟨scope, name, .disabled true⟩)

variable [CostDomain C]

/-- The answer of two layers to an offer, and the layers after a move. -/
def stepNested (s : Steered (Steered S)) : Move → Option Bool × Steered (Steered S)
  | .offer c => (some (s.admits c).1, (s.admits c).2)
  | .disable .outer scope name => (none, s.set ⟨scope, name, .disabled true⟩)
  | .disable .inner scope name => (none, s.mapBase (·.set ⟨scope, name, .disabled true⟩))

/-- On the single strategy all is disabled that is disabled on one of the layers, and the base is the
same. -/
structure United (nested : Steered (Steered S)) (single : Steered S) : Prop where
  base : nested.base.base = single.base
  disabled : ∀ n, n ∈ single.gate.disabled ↔
    n ∈ nested.gate.disabled ∨ n ∈ nested.base.gate.disabled
  groups : ∀ group, group ∈ single.gate.groups ↔
    group ∈ nested.gate.groups ∨ group ∈ nested.base.gate.groups

namespace United

variable {nested : Steered (Steered S)} {single : Steered S}

theorem rejects_iff (h : United nested single) (c : Candidate) :
    single.gate.rejects c = true ↔
      nested.gate.rejects c = true ∨ nested.base.gate.rejects c = true := by
  simp only [Gate.rejects, Bool.or_eq_true, decide_eq_true_eq, Gate.groupDisabled_iff, h.disabled,
    h.groups, and_or_left, exists_or]
  exact or_or_or_comm

/-- Both systems give the same answer to an offer and stay related: a name that one of the layers
remembers is remembered or disabled on the single strategy. -/
theorem offer (h : United nested single) (c : Candidate) :
    (nested.admits c).1 = (single.admits c).1 ∧
      United (nested.admits c).2 (single.admits c).2 := by
  cases houter : nested.gate.rejects c with
  | true =>
    -- the inner layer is not asked
    have hsingle := (h.rejects_iff c).mpr (.inl houter)
    rw [admits_of_rejects houter, admits_of_rejects hsingle]
    refine ⟨rfl, h.base, fun n => ?_, fun group => ?_⟩
    · simp only [Gate.mem_disabled_after, houter, hsingle, h.disabled, and_true]
      exact or_right_comm
    · simp only [Gate.groups_after, h.groups]
  | false =>
    have hpass : nested.admits c =
        ((nested.base.admits c).1, { nested with base := (nested.base.admits c).2 }) :=
      admits_of_not_rejects houter
    rw [hpass]
    cases hinner : nested.base.gate.rejects c with
    | true =>
      have hsingle := (h.rejects_iff c).mpr (.inr hinner)
      rw [admits_of_rejects hinner, admits_of_rejects hsingle]
      refine ⟨rfl, h.base, fun n => ?_, fun group => ?_⟩
      · simp only [Gate.mem_disabled_after, hinner, hsingle, h.disabled, and_true, or_assoc]
      · simp only [Gate.groups_after, h.groups]
    | false =>
      have hsingle : single.gate.rejects c = false := by
        rw [Bool.eq_false_iff, ne_eq, h.rejects_iff]
        simp [houter, hinner]
      rw [admits_of_not_rejects hinner, admits_of_not_rejects hsingle, h.base]
      exact ⟨rfl, rfl, h.disabled, h.groups⟩

/-- What is disabled on one of the layers is disabled on the single strategy as well. -/
theorem disable (h : United nested single) (layer : Layer) (scope : Override.Scope) (name : String) :
    United (stepNested nested (.disable layer scope name)).2
      (stepSingle single (.disable layer scope name)).2 := by
  have hbase {T : Type} (s : Steered T) (o : Override) : (s.set o).base = s.base := base_put _ _
  cases layer with
  | outer =>
    simp only [stepNested, stepSingle]
    refine ⟨?_, fun n => ?_, fun group => ?_⟩
    · rw [hbase, hbase, h.base]
    · simp only [hbase, gate_set, Gate.mem_disabled_set_disabled, h.disabled]
      exact or_right_comm
    · simp only [hbase, gate_set, Gate.mem_groups_set_disabled, h.groups]
      exact or_right_comm
  | inner =>
    simp only [stepNested, stepSingle, mapBase]
    refine ⟨?_, fun n => ?_, fun group => ?_⟩
    · rw [hbase, hbase, h.base]
    · simp only [gate_set, Gate.mem_disabled_set_disabled, h.disabled, or_assoc]
    · simp only [gate_set, Gate.mem_groups_set_disabled, h.groups, or_assoc]

theorem move (h : United nested single) (m : Move) :
    (stepNested nested m).1 = (stepSingle single m).1 ∧
      United (stepNested nested m).2 (stepSingle single m).2 := by
  cases m with
  | offer c =>
    obtain ⟨hanswer, hunited⟩ := h.offer c
    exact ⟨congrArg some hanswer, hunited⟩
  | disable layer scope name =>
    refine ⟨?_, h.disable layer scope name⟩
    cases layer <;> rfl

end United

/-! ### Fresh strategies -/

/-- A strategy that is fresh except for disabled rules and groups. -/
def withDisabled {S : Type} (base : S) (rules groups : Std.ExtTreeSet String) : Steered S :=
  (wrap base).restore { disabledRules := rules, disabledGroups := groups }

theorem gate_withDisabled {S : Type} (base : S) (rules groups : Std.ExtTreeSet String) :
    (withDisabled base rules groups).gate = { disabled := rules, groups := groups } := by
  have hsnap := snapshot_restore_wrap base { disabledRules := rules, disabledGroups := groups }
  have hremembered : (withDisabled base rules groups).gate.remembered = ∅ :=
    remembered_putAll_eq_empty rfl _
  -- nothing is remembered, so the disabled names are the explicit ones
  have hdisabled : (withDisabled base rules groups).gate.disabled = rules :=
    (Gate.explicitRules_eq_disabled hremembered).symm.trans (congrArg Snapshot.disabledRules hsnap)
  have hgroups : (withDisabled base rules groups).gate.groups = groups :=
    congrArg Snapshot.disabledGroups hsnap
  exact (Gate.mk.injEq ..).mpr ⟨hdisabled, hgroups, hremembered⟩

theorem base_withDisabled {S : Type} (base : S) (rules groups : Std.ExtTreeSet String) :
    (withDisabled base rules groups).base = base :=
  base_putAll { wrap base with configured := true } _

theorem united_withDisabled {S : Type} (base : S)
    (rules groups rules' groups' : Std.ExtTreeSet String) :
    United (withDisabled (withDisabled base rules' groups') rules groups)
      (withDisabled base (rules ∪ rules') (groups ∪ groups')) where
  base := by simp only [base_withDisabled]
  disabled n := by
    simp only [base_withDisabled, gate_withDisabled, Std.ExtTreeSet.mem_union_iff]
  groups group := by
    simp only [base_withDisabled, gate_withDisabled, Std.ExtTreeSet.mem_union_iff]

/-- Two layers on which nothing but rules and groups has been disabled give the same answers as a
single strategy on which all of them are disabled. The base ends up in the same state, and it has been
asked about the same candidates in the same order. This is so for any base, for any groups that the
candidates carry, and if more is disabled in between, on either layer and on the single strategy. -/
theorem transcript_nested_eq_single (base : S) (rules groups rules' groups' : Std.ExtTreeSet String)
    (moves : List Move) :
    let nested {T : Type} (base : T) := withDisabled (withDisabled base rules' groups') rules groups
    let single {T : Type} (base : T) := withDisabled base (rules ∪ rules') (groups ∪ groups')
    let recorder : Recorder S := { strategy := base }
    (transcript stepNested (nested base) moves).1 = (transcript stepSingle (single base) moves).1 ∧
      (transcript stepNested (nested base) moves).2.base.base =
        (transcript stepSingle (single base) moves).2.base ∧
      (transcript stepNested (nested recorder) moves).2.base.base.asked =
        (transcript stepSingle (single recorder) moves).2.base.asked := by
  intro nested single recorder
  have hunited {T : Type} [Strategy T C] (base : T) :=
    transcript_of_related (R := United) (fun h m => United.move h m)
      (united_withDisabled base rules groups rules' groups') moves
  obtain ⟨hanswers, hlast⟩ := hunited base
  obtain ⟨-, hrecorded⟩ := hunited recorder
  exact ⟨hanswers, hlast.base, congrArg Recorder.asked hrecorded.base⟩

-- Only the outer layer remembers the first candidate, and only the inner one the third.
example :
    let base : Recorder (Indifferent Cost) := { strategy := ⟨.top⟩ }
    let nested := withDisabled (withDisabled base ∅ {"alpha", "beta"}) ∅ {"alpha"}
    let moves : List Move := [.offer ⟨"andLeft", some ["beta", "alpha"]⟩, .offer ⟨"andLeft", none⟩,
      .offer ⟨"orRight", some ["beta"]⟩, .disable .inner .rule "cut", .offer ⟨"cut", none⟩,
      .offer ⟨"close", some []⟩]
    (transcript stepNested nested moves).1 =
        [some false, some false, some false, none, some false, some true] ∧
      (transcript stepNested nested moves).2.base.base.asked = [⟨"close", some []⟩] := by
  decide +kernel

end Steered

end RuleSteering
