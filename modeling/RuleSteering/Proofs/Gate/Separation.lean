import RuleSteering.Proofs.Gate.Sets
import RuleSteering.Proofs.Sequence

/-!
# Rules do not influence each other

All rules share the sets of a gate, and enabling a group makes it forget all remembered names at once.
Still nothing that happens to other rules matters to a rule: if the questions about their candidates and
the edits of their names are deleted from a history, the gate gives the same answers about the rule
(`answersTo_sight`).

* `Event.concerns`, the events that may matter to a rule: those about the rule, those about groups, and
  clearing the gate;
* `Sight`, what is seen of a rule at an event;
* `AgreeOn`, gates with the same groups in which one rule is disabled or remembered alike. An event
  keeps this if it happens to both (`AgreeOn.step`), or if it does not concern the rule and happens to
  one of them (`AgreeOn.step_left`).
-/

namespace RuleSteering.Gate

/-! ### What is seen of a rule -/

/-- The event may matter to the rule with this name. An override is an edit of its rule or its group,
whatever it sets. -/
def Event.concerns (name : String) : Event → Bool
  | .ask c => c.name = name
  | .setRule n _ => n = name
  | .setGroup _ _ => true
  | .set o => o.scope = .group || o.name = name
  | .clear => true

/-- Whether a candidate is turned away, if the event is a question about one. -/
def answer? (g : Gate) : Event → Option Bool
  | .ask c => some (g.rejects c)
  | _ => none

/-- What is seen of a rule at an event: the answer of the gate, if it was asked, and whether the rule was
disabled before the event and after it. -/
structure Sight where
  answer : Option Bool
  before : Bool
  after : Bool
  deriving DecidableEq

/-- What is seen of the rule with this name at an event, and the gate after the event. -/
def sight (name : String) (g : Gate) (e : Event) : Sight × Gate :=
  (⟨g.answer? e, name ∈ g.disabled, name ∈ (g.step e).disabled⟩, g.step e)

/-! ### Gates that agree on a rule -/

/-- The gates have the same groups, and the rule with this name is disabled or remembered in both of them
or in none. -/
structure AgreeOn (name : String) (g k : Gate) : Prop where
  disabled : name ∈ g.disabled ↔ name ∈ k.disabled
  remembered : name ∈ g.remembered ↔ name ∈ k.remembered
  groups : g.groups = k.groups

namespace AgreeOn

variable {name : String} {g k : Gate}

theorem refl (name : String) (g : Gate) : AgreeOn name g g := ⟨Iff.rfl, Iff.rfl, rfl⟩

theorem rejects_eq (h : AgreeOn name g k) {c : Candidate} (hc : c.name = name) :
    g.rejects c = k.rejects c := by
  subst hc
  simp only [rejects, groupDisabled, h.disabled, h.groups]

theorem after (h : AgreeOn name g k) (c : Candidate) : AgreeOn name (g.after c) (k.after c) := by
  have hrejects : name = c.name ∧ g.rejects c = true ↔ name = c.name ∧ k.rejects c = true :=
    and_congr_right fun hc => by rw [h.rejects_eq hc.symm]
  refine ⟨?_, ?_, by rw [groups_after, groups_after, h.groups]⟩
  · rw [mem_disabled_after, mem_disabled_after, h.disabled, hrejects]
  · rw [mem_remembered_after, mem_remembered_after, h.remembered, h.disabled, and_left_comm, hrejects,
      and_left_comm]

theorem setRule (h : AgreeOn name g k) (n : String) (b : Bool) :
    AgreeOn name (g.setRule n b) (k.setRule n b) where
  disabled := by rw [mem_disabled_setRule, mem_disabled_setRule, h.disabled]
  remembered := by rw [mem_remembered_setRule, mem_remembered_setRule, h.remembered]
  groups := by rw [groups_setRule, groups_setRule, h.groups]

/-- Enabling a group that is disabled in one of the gates makes both of them forget. -/
theorem setGroup (h : AgreeOn name g k) (group : String) (b : Bool) :
    AgreeOn name (g.setGroup group b) (k.setGroup group b) where
  disabled := by
    rw [mem_disabled_setGroup, mem_disabled_setGroup, h.disabled, h.remembered, h.groups]
  remembered := by rw [mem_remembered_setGroup, mem_remembered_setGroup, h.remembered, h.groups]
  groups := Std.ExtTreeSet.ext_mem fun n => by
    rw [mem_groups_setGroup, mem_groups_setGroup, h.groups]

theorem step (h : AgreeOn name g k) (e : Event) : AgreeOn name (g.step e) (k.step e) := by
  cases e with
  | ask c => exact h.after c
  | setRule n b => exact h.setRule n b
  | setGroup group b => exact h.setGroup group b
  | set o =>
    obtain ⟨scope, n, x⟩ := o
    cases x with
    | factor m | summand m => cases scope <;> exact h
    | disabled b =>
      cases scope with
      | rule => exact h.setRule n b
      | group => exact h.setGroup n b
  | clear => exact refl name ∅

theorem setRule_left (h : AgreeOn name g k) {n : String} (hn : name ≠ n) (b : Bool) :
    AgreeOn name (g.setRule n b) k where
  disabled := by rw [mem_disabled_setRule, if_neg hn, h.disabled]
  remembered := by rw [mem_remembered_setRule, and_iff_right hn, h.remembered]
  groups := by rw [groups_setRule, h.groups]

/-- An event that does not concern the rule may happen to one of the gates alone. -/
theorem step_left (h : AgreeOn name g k) {e : Event} (he : e.concerns name = false) :
    AgreeOn name (g.step e) k := by
  cases e with
  | ask c =>
    have hc : name ≠ c.name := Ne.symm (of_decide_eq_false he)
    refine ⟨?_, ?_, (groups_after g c).trans h.groups⟩
    · rw [Gate.step, mem_disabled_after, or_iff_left fun hand => hc hand.1, h.disabled]
    · rw [Gate.step, mem_remembered_after, or_iff_left fun hand => hc hand.1, h.remembered]
  | setRule n b => exact h.setRule_left (Ne.symm (of_decide_eq_false he)) b
  | set o =>
    obtain ⟨scope, n, x⟩ := o
    simp only [Event.concerns, Bool.or_eq_false_iff, decide_eq_false_iff_not] at he
    cases scope with
    | rule =>
      cases x with
      | factor m | summand m => exact h
      | disabled b => exact h.setRule_left (Ne.symm he.2) b
    | group => exact absurd rfl he.1
  | setGroup group b | clear => contradiction

/-- At an event that concerns the rule the same is seen of it. -/
theorem sight_eq (h : AgreeOn name g k) {e : Event} (he : e.concerns name = true) :
    (sight name g e).1 = (sight name k e).1 := by
  have hanswer : g.answer? e = k.answer? e := by
    cases e with
    | ask c => exact congrArg some (h.rejects_eq (of_decide_eq_true he))
    | setRule n b | setGroup group b | set o | clear => rfl
  simp only [sight, hanswer, h.disabled, (h.step e).disabled]

end AgreeOn

/-- If every question about the candidates of other rules and every edit of other rules is deleted from a
history, the same is seen of a rule at each event that is left: the answers about its candidates are
the same, whatever groups these carry, and so is whether the rule is disabled. -/
theorem answersTo_sight (g : Gate) (name : String) (es : List Event) :
    answersTo (sight name) (Event.concerns name) g es =
      (transcript (sight name) g (es.filter (Event.concerns name))).1 := by
  have hboth {g k : Gate} (h : AgreeOn name g k) (e : Event) (he : e.concerns name = true) :
      (sight name g e).1 = (sight name k e).1 ∧ AgreeOn name (sight name g e).2 (sight name k e).2 :=
    ⟨h.sight_eq he, h.step e⟩
  have hmissed {g k : Gate} (h : AgreeOn name g k) (e : Event) (he : e.concerns name = false) :
      AgreeOn name (sight name g e).2 k := h.step_left he
  exact answersTo_eq_transcript_filter hboth hmissed (.refl name g) es

-- An edit of a group does matter: the second answer about `andLeft` is another one without it.
example :
    let c : Candidate := ⟨"andLeft", some ["alpha"]⟩
    let es : List Event := [.setGroup "alpha" true, .ask ⟨"orRight", some ["alpha"]⟩, .ask c,
      .setRule "orRight" false, .setGroup "alpha" false, .ask c]
    (answersTo (sight "andLeft") (Event.concerns "andLeft") ∅ es).filterMap Sight.answer = [true, false] ∧
      ((transcript (sight "andLeft") ∅ [.setGroup "alpha" true, .ask c, .ask c]).1).filterMap
        Sight.answer = [true, true] := by
  decide +kernel

end RuleSteering.Gate
