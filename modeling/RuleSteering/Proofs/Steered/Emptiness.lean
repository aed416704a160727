import Mathlib.Logic.Basic
import RuleSteering.Proofs.Steered.History

/-!
# Emptiness

A gate decides whether it is empty by counting: it compares how many names are disabled with how many
are remembered. This is right as long as the remembered names are disabled, which every event keeps
(`Gate.WellFormed`). A gate is then empty exactly if it exports nothing, and a steered strategy exports
nothing exactly if its gate and its tables are empty (`isEmpty_run_iff`).

* `size_eq_size_iff_diff_eq_empty`, what the comparison says about the names;
* `WellFormed.isEmpty_iff`, an empty gate by its names; `overrides_eq_nil_iff`, a gate that exports nothing;
* `WellFormed.mem_disabled_iff_xor`, a disabled name is either explicit or remembered;
* `snapshot_isEmpty_iff`, an empty snapshot by its parts.
-/

namespace RuleSteering

/-- Of two sets of names, one of which includes the other one, the larger has as many names only if it
has no further names. -/
theorem size_eq_size_iff_diff_eq_empty {s t : Std.ExtTreeSet String} (h : ∀ n ∈ t, n ∈ s) :
    s.size = t.size ↔ s \ t = ∅ := by
  have hcount : (s \ t).size + (s ∩ t).size = s.size :=
    Std.ExtTreeSet.size_diff_add_size_inter_eq_size_left
  rw [Std.ExtTreeSet.size_inter_eq_size_right h] at hcount
  rw [Std.ExtTreeSet.eq_empty_iff_size_eq_zero]
  omega

theorem Override.disabling_eq_nil_iff {scope : Scope} {names : Std.ExtTreeSet String} :
    disabling scope names = [] ↔ names = ∅ := by
  rw [disabling, List.map_eq_nil_iff, ← List.isEmpty_iff, Std.ExtTreeSet.isEmpty_toList,
    Std.ExtTreeSet.isEmpty_iff]

namespace Gate

variable {g : Gate}

/-- A gate exports nothing exactly if no edit has disabled anything. -/
theorem overrides_eq_nil_iff : g.overrides = [] ↔ g.explicitRules = ∅ ∧ g.groups = ∅ := by
  rw [overrides, List.append_eq_nil_iff, Override.disabling_eq_nil_iff,
    Override.disabling_eq_nil_iff]

namespace WellFormed

theorem mem_disabled_iff_xor (h : g.WellFormed) {n : String} :
    n ∈ g.disabled ↔ Xor (n ∈ g.explicitRules) (n ∈ g.remembered) := by
  rw [mem_explicitRules]
  constructor
  · intro hn
    by_cases hr : n ∈ g.remembered
    · exact .inr ⟨hr, fun he => he.2 hr⟩
    · exact .inl ⟨⟨hn, hr⟩, hr⟩
  · rintro (⟨he, -⟩ | ⟨hr, -⟩)
    · exact he.1
    · exact h n hr

/-- The counts agree exactly if every disabled name is only remembered. -/
theorem isEmpty_iff (h : g.WellFormed) :
    g.isEmpty = true ↔ g.explicitRules = ∅ ∧ g.groups = ∅ := by
  rw [Gate.isEmpty, Bool.and_eq_true, beq_iff_eq, Std.ExtTreeSet.isEmpty_iff,
    size_eq_size_iff_diff_eq_empty h, and_comm]
  rfl

theorem isEmpty_iff_overrides_eq_nil (h : g.WellFormed) : g.isEmpty = true ↔ g.overrides = [] :=
  h.isEmpty_iff.trans overrides_eq_nil_iff.symm

end WellFormed

-- Counting is not enough by itself: here one name is disabled and another one is remembered.
example : (⟨.ofList ["andLeft"], ∅, .ofList ["orRight"]⟩ : Gate).isEmpty = true ∧
    (⟨.ofList ["andLeft"], ∅, .ofList ["orRight"]⟩ : Gate).overrides ≠ [] := by
  decide +kernel

end Gate

namespace Steered

variable {S C : Type} [Strategy S C]

theorem snapshot_isEmpty_iff (s : Steered S) :
    s.snapshot.isEmpty = true ↔
      s.adjustments.isEmpty = true ∧ s.gate.explicitRules = ∅ ∧ s.gate.groups = ∅ := by
  simp only [snapshot, Snapshot.isEmpty, Bool.and_eq_true, Std.ExtTreeSet.isEmpty_iff, and_assoc]

/-- After any history of a gate that started empty, the remembered names are disabled, no name is both
explicit and remembered, the disabled names are those that are exactly one of the two, and the gate is
empty, which it finds out by counting, exactly if it exports nothing. So after any history of a steered
strategy its gate and its tables are both empty exactly if its snapshot is. -/
theorem isEmpty_run_iff :
    (∀ es : List Gate.Event, let g := Gate.run ∅ es
      (∀ n ∈ g.remembered, n ∈ g.disabled) ∧
        (∀ n, ¬ (n ∈ g.explicitRules ∧ n ∈ g.remembered)) ∧
        (∀ n, n ∈ g.disabled ↔ Xor (n ∈ g.explicitRules) (n ∈ g.remembered)) ∧
        (g.isEmpty = true ↔ g.overrides = [])) ∧
      ∀ (base : S) (acts : List Action), let s := (wrap base).run acts
        s.gate.isEmpty = true ∧ s.adjustments.isEmpty = true ↔ s.snapshot.isEmpty = true := by
  constructor
  · intro es g
    have hg : g.WellFormed := Gate.wellFormed_run es
    exact ⟨hg, fun n hn => (Gate.mem_explicitRules.mp hn.1).2 hn.2,
      fun n => hg.mem_disabled_iff_xor, hg.isEmpty_iff_overrides_eq_nil⟩
  · intro base acts s
    have hs : s.gate.WellFormed := wellFormed_gate_run base acts
    rw [hs.isEmpty_iff, snapshot_isEmpty_iff, and_comm]

/-- Two candidates are turned away for a group, and then the name of one of them is disabled by an edit. To
enable the group and this name leaves nothing. A strategy that loads such flags, and is asked in between,
has an empty snapshot in the end, though not after the first flag. -/
theorem isEmpty_run_of_enabled :
    let es : List Gate.Event := [.setGroup "alpha" true, .ask ⟨"andLeft", some ["beta", "alpha"]⟩,
      .ask ⟨"orRight", some ["alpha"]⟩, .set ⟨.rule, "orRight", .disabled true⟩]
    let enabling : List Gate.Event := [.setGroup "alpha" false, .setRule "orRight" false]
    let asking : List Action := [.load [("ruleset.alpha.disabled", "true")],
      .offer ⟨"andLeft", some ["alpha"]⟩]
    let acts := asking ++ [.load [("ruleset.alpha.disabled", "false")]]
    let s := wrap (⟨7⟩ : Indifferent Int)
    (Gate.run ∅ es).remembered = .ofList ["andLeft"] ∧ "andLeft" ∈ (Gate.run ∅ es).disabled ∧
      "orRight" ∈ (Gate.run ∅ es).disabled ∧ (Gate.run ∅ es).isEmpty = false ∧
      (Gate.run ∅ (es ++ enabling)).isEmpty = true ∧
      "andLeft" ∈ (s.run asking).gate.remembered ∧ (s.run asking).snapshot.isEmpty = false ∧
      (s.run acts).snapshot.isEmpty = true := by
  intro es enabling asking acts s
  have hremembered : (Gate.run ∅ es).remembered = .ofList ["andLeft"] := by decide +kernel
  obtain ⟨hgate, hsteered⟩ := isEmpty_run_iff (S := Indifferent Int)
  obtain ⟨hdisabled, -, hxor, hempty⟩ := hgate es
  refine ⟨hremembered, hdisabled "andLeft" (by rw [hremembered]; decide), ?_, ?_, ?_,
    by decide +kernel, ?_, ?_⟩
  · exact (hxor "orRight").mpr (.inl (by decide +kernel))
  · rw [← Bool.not_eq_true, hempty]
    decide +kernel
  · exact (hgate (es ++ enabling)).2.2.2.mpr (by decide +kernel)
  · refine Bool.eq_false_iff.mpr fun h => ?_
    have hgroups := ((hsteered ⟨7⟩ asking).mpr h).1
    exact absurd hgroups (by decide +kernel)
  · exact (hsteered ⟨7⟩ acts).mp (by decide +kernel)

end Steered

end RuleSteering
