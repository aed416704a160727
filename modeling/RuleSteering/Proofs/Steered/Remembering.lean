import RuleSteering.Proofs.Steered.History

/-!
# Remembered names are only a short cut

If the groups of a candidate depend on nothing but the name of its rule, then what the gate
remembers never changes an answer: a candidate is turned away exactly if its name was disabled by
an edit or one of its groups is disabled, whatever was asked before.

The invariant is `Gate.Justified`: every remembered name is the name of a rule one of whose groups
is still disabled.
-/

namespace RuleSteering

/-- The groups of the rules, by the name of the rule; none without metadata. -/
abbrev GroupsOf := String → Option (List String)

/-- A candidate that carries the groups of its rule. -/
def Candidate.CarriesGroups (G : GroupsOf) (c : Candidate) : Prop := c.groups = G c.name

theorem Candidate.CarriesGroups.groupList_eq {G : GroupsOf} {c : Candidate}
    (hc : c.CarriesGroups G) : c.groupList = (G c.name).getD [] := by
  unfold groupList
  rw [hc]

namespace Gate

theorem groupDisabled_iff {g : Gate} {c : Candidate} :
    g.groupDisabled c = true ↔ ∃ group ∈ c.groupList, group ∈ g.groups := by
  simp [groupDisabled]

/-- Every remembered name is justified by a group of its rule that is disabled. -/
def Justified (G : GroupsOf) (g : Gate) : Prop :=
  ∀ name ∈ g.remembered, ∃ group ∈ (G name).getD [], group ∈ g.groups

namespace Justified

variable {G : GroupsOf} {g : Gate}

theorem after (h : g.Justified G) {c : Candidate} (hc : c.CarriesGroups G) :
    (g.after c).Justified G := by
  intro name hn
  rw [groups_after]
  unfold Gate.after at hn
  split at hn
  · exact h name hn
  · split at hn
    · rename_i hd
      rcases Std.ExtTreeSet.mem_insert.mp hn with heq | hn
      · -- the name that is remembered now was turned away for one of the groups of its rule
        obtain rfl := Std.LawfulEqOrd.eq_of_compare heq
        rw [← hc.groupList_eq]
        exact groupDisabled_iff.mp hd
      · exact h name hn
    · exact h name hn

theorem setRule (h : g.Justified G) (name : String) (b : Bool) :
    (g.setRule name b).Justified G := by
  intro n hn
  have hr : (g.setRule name b).remembered = g.remembered.erase name := by cases b <;> rfl
  rw [groups_setRule]
  rw [hr] at hn
  exact h n (Std.ExtTreeSet.mem_of_mem_erase hn)

theorem setGroup (h : g.Justified G) (group : String) (b : Bool) :
    (g.setGroup group b).Justified G := by
  cases b with
  | true =>
    intro name hn
    obtain ⟨x, hx, hg⟩ := h name hn
    exact ⟨x, hx, Std.ExtTreeSet.mem_insert.mpr (.inr hg)⟩
  | false =>
    simp only [Gate.setGroup]
    split
    · -- enabling a disabled group leaves no name to justify
      intro name hn
      exact absurd hn Std.ExtTreeSet.not_mem_empty
    · exact h

theorem kept (G : GroupsOf) : Kept (Candidate.CarriesGroups G) (Justified G) where
  empty _ hn := absurd hn Std.ExtTreeSet.not_mem_empty
  after hg hc := hg.after hc
  setRule hg := hg.setRule
  setGroup hg := hg.setGroup

/-- What is remembered makes no difference to a candidate that carries the groups of its rule. -/
theorem rejects_iff (h : g.Justified G) {c : Candidate} (hc : c.CarriesGroups G) :
    g.rejects c = true ↔
      c.name ∈ g.explicitRules ∨ ∃ group ∈ (G c.name).getD [], group ∈ g.groups := by
  rw [← hc.groupList_eq, ← groupDisabled_iff, mem_explicitRules]
  simp only [rejects, Bool.or_eq_true, decide_eq_true_eq]
  constructor
  · rintro (hn | hd)
    · by_cases hr : c.name ∈ g.remembered
      · right
        rw [groupDisabled_iff, hc.groupList_eq]
        exact h c.name hr
      · exact .inl ⟨hn, hr⟩
    · exact .inr hd
  · rintro (⟨hn, -⟩ | hd)
    · exact .inl hn
    · exact .inr hd

end Justified

end Gate

namespace Steered

variable {S C : Type} [Strategy S C]

theorem admits_of_rejects {s : Steered S} {c : Candidate} (h : s.gate.rejects c = true) :
    s.admits c = (false, { s with gate := s.gate.after c }) := by
  simp [admits, h]

theorem admits_of_not_rejects {s : Steered S} {c : Candidate} (h : s.gate.rejects c = false) :
    s.admits c = ((Strategy.admits s.base c).1, { s with base := (Strategy.admits s.base c).2 }) := by
  simp [admits, h, Gate.after_eq_of_not_rejects h]

/-- After any history in which the groups of every candidate are those of its rule, such a
candidate is turned away by the gate exactly if its name was disabled by an edit or one of its
groups is disabled. Then it is not admitted; any other one gets the answer of the base strategy,
and asking for it changes nothing but the base strategy. -/
theorem rejects_run_iff_and_admits_run {G : GroupsOf} (base : S) {acts : List Action}
    (hacts : ∀ a ∈ acts, a.Offers (Candidate.CarriesGroups G)) {c : Candidate}
    (hc : c.CarriesGroups G) :
    let s := (wrap base).run acts
    let out := c.name ∈ s.gate.explicitRules ∨ ∃ group ∈ (G c.name).getD [], group ∈ s.gate.groups
    (s.gate.rejects c = true ↔ out) ∧
      (out → (s.admits c).1 = false) ∧
      (¬ out → s.admits c =
        ((Strategy.admits s.base c).1, { s with base := (Strategy.admits s.base c).2 })) := by
  intro s out
  have hj : s.gate.Justified G :=
    (Gate.Justified.kept G).gate_run (Gate.Justified.kept G).empty hacts
  have hiff : s.gate.rejects c = true ↔ out := hj.rejects_iff hc
  refine ⟨hiff, fun h => ?_, fun h => ?_⟩
  · rw [admits_of_rejects (hiff.mpr h)]
  · exact admits_of_not_rejects (Bool.eq_false_iff.mpr fun hr => h (hiff.mp hr))

/-- A name that is remembered for its group is turned away for its group. -/
theorem rejects_run_of_remembered :
    let G : GroupsOf := fun name => if name = "andLeft" then some ["alpha"] else none
    let c : Candidate := ⟨"andLeft", some ["alpha"]⟩
    let acts : List Action := [.set ⟨.group, "alpha", .disabled true⟩, .offer c,
      .set ⟨.group, "beta", .disabled true⟩, .set ⟨.group, "gamma", .disabled false⟩]
    let s := (wrap (⟨.top⟩ : Indifferent Cost)).run acts
    (∀ a ∈ acts, a.Offers (Candidate.CarriesGroups G)) ∧ c.CarriesGroups G ∧
      c.name ∈ s.gate.remembered ∧ c.name ∉ s.gate.explicitRules ∧
      s.gate.rejects c = true ∧ (s.admits c).1 = false := by
  intro G c acts s
  have hc : c.CarriesGroups G := rfl
  have hacts : ∀ a ∈ acts, a.Offers (Candidate.CarriesGroups G) := by
    intro a ha
    simp only [acts, List.mem_cons, List.not_mem_nil, or_false] at ha
    rcases ha with rfl | rfl | rfl | rfl
    · trivial
    · exact hc
    · trivial
    · trivial
  have hr : c.name ∈ s.gate.remembered := by decide
  have hout : ∃ group ∈ (G c.name).getD [], group ∈ s.gate.groups := ⟨"alpha", by decide, by decide⟩
  obtain ⟨hrejects, hadmits, -⟩ := rejects_run_iff_and_admits_run (⟨.top⟩ : Indifferent Cost) hacts hc
  exact ⟨hacts, hc, hr, fun h => (Gate.mem_explicitRules.mp h).2 hr, hrejects.mpr (.inr hout),
    hadmits (.inr hout)⟩

end Steered

end RuleSteering
