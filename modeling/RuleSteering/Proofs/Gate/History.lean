import RuleSteering.Gate

/-!
# Histories of a gate

What can happen to a gate, one event at a time, and what a history of events keeps.

* `Event`, `step`, `run`;
* what each event does to the explicit names: seeing a candidate does not change them, an edit of
  a rule changes that rule alone, an edit of a group changes none of them;
* `Kept P`, the property `P` holds of the empty gate and no event loses it, provided that the
  candidates are as expected; `Kept.run` carries it through a whole history.
-/

namespace RuleSteering.Gate

/-! ### Explicit names -/

theorem mem_explicitRules {g : Gate} {name : String} :
    name ∈ g.explicitRules ↔ name ∈ g.disabled ∧ name ∉ g.remembered := by
  simp [explicitRules, Std.ExtTreeSet.mem_diff_iff]

/-- If nothing is remembered, all disabled names were disabled by an edit. -/
theorem explicitRules_eq_disabled {g : Gate} (h : g.remembered = ∅) :
    g.explicitRules = g.disabled := by
  refine Std.ExtTreeSet.ext_mem fun name => ?_
  rw [mem_explicitRules, h]
  simp

/-- A candidate becomes a remembered name or none at all. -/
@[simp] theorem explicitRules_after (g : Gate) (c : Candidate) :
    (g.after c).explicitRules = g.explicitRules := by
  unfold after
  split
  · rfl
  · rename_i hc
    split
    · refine Std.ExtTreeSet.ext_mem fun name => ?_
      by_cases hn : c.name = name
      · subst hn
        simp [mem_explicitRules, hc]
      · simp [mem_explicitRules, hn]
    · rfl

theorem mem_explicitRules_setRule {g : Gate} {name n : String} {b : Bool} :
    n ∈ (g.setRule name b).explicitRules ↔
      if n = name then b = true else n ∈ g.explicitRules := by
  by_cases hn : n = name
  · subst hn
    cases b <;> simp [mem_explicitRules, setRule]
  · cases b <;> simp [mem_explicitRules, setRule, hn, Ne.symm hn]

/-- Forgetting leaves the explicit names. -/
@[simp] theorem explicitRules_forget (g : Gate) : g.forget.explicitRules = g.explicitRules := by
  refine Std.ExtTreeSet.ext_mem fun name => ?_
  simp [mem_explicitRules, forget, Std.ExtTreeSet.mem_diff_iff]

@[simp] theorem explicitRules_setGroup (g : Gate) (group : String) (b : Bool) :
    (g.setGroup group b).explicitRules = g.explicitRules := by
  cases b with
  | true => rfl
  | false =>
    simp only [setGroup]
    split
    · exact explicitRules_forget g
    · rfl

@[simp] theorem groups_setRule (g : Gate) (name : String) (b : Bool) :
    (g.setRule name b).groups = g.groups := by
  cases b <;> rfl

theorem mem_groups_setGroup {g : Gate} {group n : String} {b : Bool} :
    n ∈ (g.setGroup group b).groups ↔ if n = group then b = true else n ∈ g.groups := by
  cases b with
  | true =>
    by_cases hn : n = group
    · simp [setGroup, hn]
    · simp [setGroup, hn, Ne.symm hn]
  | false =>
    by_cases hn : n = group
    · subst hn
      by_cases hg : n ∈ g.groups <;> simp [setGroup, hg]
    · by_cases hg : group ∈ g.groups <;> simp [setGroup, forget, hg, hn, Ne.symm hn]

/-! ### Events -/

/-- What can happen to a gate: a question about a candidate, an edit, or clearing it. -/
inductive Event
  | ask (c : Candidate)
  | setRule (name : String) (b : Bool)
  | setGroup (group : String) (b : Bool)
  | set (o : Override)
  | clear

/-- The gate after an event. -/
def step (g : Gate) : Event → Gate
  | .ask c => g.after c
  | .setRule name b => g.setRule name b
  | .setGroup group b => g.setGroup group b
  | .set o => g.set o
  | .clear => ∅

/-- The gate after a history. -/
def run (g : Gate) (es : List Event) : Gate := es.foldl step g

@[simp] theorem run_nil (g : Gate) : g.run [] = g := rfl

@[simp] theorem run_cons (g : Gate) (e : Event) (es : List Event) :
    g.run (e :: es) = (g.step e).run es := rfl

theorem run_append (g : Gate) (es fs : List Event) : g.run (es ++ fs) = (g.run es).run fs :=
  List.foldl_append

/-- The candidates that a history asks about satisfy `Q`. -/
def Event.Asks (Q : Candidate → Prop) : Event → Prop
  | .ask c => Q c
  | _ => True

/-- An override is an edit of a rule, an edit of a group, or no matter of the gate. -/
theorem set_cases (g : Gate) (o : Override) :
    (∃ b, g.set o = g.setRule o.name b) ∨ (∃ b, g.set o = g.setGroup o.name b) ∨ g.set o = g := by
  obtain ⟨scope, name, setting⟩ := o
  cases setting with
  | factor n => exact .inr (.inr (by cases scope <;> rfl))
  | summand n => exact .inr (.inr (by cases scope <;> rfl))
  | disabled b =>
    cases scope with
    | rule => exact .inl ⟨b, rfl⟩
    | group => exact .inr (.inl ⟨b, rfl⟩)

/-- The empty gate has the property `P`, and no event loses it if it asks about a candidate that
satisfies `Q`. -/
structure Kept (Q : Candidate → Prop) (P : Gate → Prop) : Prop where
  empty : P ∅
  after : ∀ {g : Gate} {c : Candidate}, P g → Q c → P (g.after c)
  setRule : ∀ {g : Gate}, P g → ∀ name b, P (g.setRule name b)
  setGroup : ∀ {g : Gate}, P g → ∀ group b, P (g.setGroup group b)

namespace Kept

variable {Q : Candidate → Prop} {P : Gate → Prop}

theorem step (hP : Kept Q P) {g : Gate} (hg : P g) {e : Event} (he : e.Asks Q) : P (g.step e) := by
  cases e with
  | ask c => exact hP.after hg he
  | setRule name b => exact hP.setRule hg name b
  | setGroup group b => exact hP.setGroup hg group b
  | set o =>
    show P (g.set o)
    rcases set_cases g o with ⟨b, h⟩ | ⟨b, h⟩ | h
    · rw [h]
      exact hP.setRule hg o.name b
    · rw [h]
      exact hP.setGroup hg o.name b
    · rwa [h]
  | clear => exact hP.empty

theorem run (hP : Kept Q P) {g : Gate} (hg : P g) {es : List Event} (hes : ∀ e ∈ es, e.Asks Q) :
    P (g.run es) := by
  induction es generalizing g with
  | nil => exact hg
  | cons e es ih =>
    exact ih (hP.step hg (hes e List.mem_cons_self)) fun x hx => hes x (List.mem_cons_of_mem _ hx)

end Kept

theorem WellFormed.kept (Q : Candidate → Prop) : Kept Q WellFormed where
  empty := wellFormed_empty
  after hg _ := hg.after _
  setRule hg := hg.setRule
  setGroup hg := hg.setGroup

/-- Remembered names are disabled after any history. -/
theorem wellFormed_run (es : List Event) : (run ∅ es).WellFormed :=
  (WellFormed.kept fun _ => True).run wellFormed_empty fun e _ => by cases e <;> trivial

end RuleSteering.Gate
