import Mathlib.Tactic.Tauto
import RuleSteering.Proofs.Gate.History

/-!
# The sets of a gate after an event

A gate is nothing but its three sets of names (`ext_mem`). What becomes of the explicit names and
of the groups is found with the histories of a gate; here is what becomes of the disabled and of
the remembered names.

* `mem_disabled_after`, `mem_remembered_after`, seeing a candidate adds at most its name to both;
* `mem_disabled_setRule`, `mem_remembered_setRule`, an edit of a rule is about its name alone, which
  is not remembered any longer;
* `mem_disabled_setGroup`, `mem_remembered_setGroup`, an edit of a group matters only if it enables
  a disabled group: then no name is remembered any longer;
* `mem_disabled_set_disabled`, `mem_groups_set_disabled`, what is disabled is added and nothing else;
* `mem_disabled_foldl_set`, `mem_remembered_foldl_set`, a list of overrides that enables nothing adds
  the names that it disables, and they are not remembered any longer;
* `setRule_eq_self`, `setGroup_eq_self`, to disable again what an edit has disabled changes nothing;
* `set_comm`, two overrides with different keys can be taken over in either order.
-/

namespace RuleSteering.Gate

/-- Gates with the same names in each of their sets are equal. -/
theorem ext_mem {g h : Gate} (hdisabled : ∀ n, n ∈ g.disabled ↔ n ∈ h.disabled)
    (hgroups : ∀ n, n ∈ g.groups ↔ n ∈ h.groups)
    (hremembered : ∀ n, n ∈ g.remembered ↔ n ∈ h.remembered) : g = h := by
  obtain ⟨d, gs, r⟩ := g
  obtain ⟨d', gs', r'⟩ := h
  rw [Gate.mk.injEq]
  exact ⟨Std.ExtTreeSet.ext_mem hdisabled, Std.ExtTreeSet.ext_mem hgroups,
    Std.ExtTreeSet.ext_mem hremembered⟩

/-! ### Candidates -/

theorem mem_disabled_after {g : Gate} {c : Candidate} {n : String} :
    n ∈ (g.after c).disabled ↔ n ∈ g.disabled ∨ (n = c.name ∧ g.rejects c = true) := by
  by_cases hd : c.name ∈ g.disabled
  · rw [after_eq_of_mem hd]
    constructor
    · exact .inl
    · rintro (hn | ⟨rfl, -⟩)
      · exact hn
      · exact hd
  · cases hg : g.groupDisabled c with
    | true => simp [after, rejects, hd, hg, or_comm, eq_comm (a := n)]
    | false => simp [after, rejects, hd, hg]

theorem mem_remembered_after {g : Gate} {c : Candidate} {n : String} :
    n ∈ (g.after c).remembered ↔
      n ∈ g.remembered ∨ (n = c.name ∧ n ∉ g.disabled ∧ g.rejects c = true) := by
  by_cases hd : c.name ∈ g.disabled
  · rw [after_eq_of_mem hd]
    constructor
    · exact .inl
    · rintro (hn | ⟨rfl, hnot, -⟩)
      · exact hn
      · exact absurd hd hnot
  · cases hg : g.groupDisabled c with
    | true =>
      have hname : c.name = n ∧ n ∉ g.disabled ↔ c.name = n :=
        and_iff_left_of_imp fun h => h ▸ hd
      simp [after, rejects, hd, hg, hname, or_comm, eq_comm (a := n)]
    | false => simp [after, rejects, hd, hg]

/-! ### Edits -/

theorem mem_disabled_setRule {g : Gate} {name n : String} {b : Bool} :
    n ∈ (g.setRule name b).disabled ↔ if n = name then b = true else n ∈ g.disabled := by
  by_cases hn : n = name
  · subst hn
    cases b <;> simp [setRule]
  · cases b <;> simp [setRule, hn, Ne.symm hn]

theorem mem_remembered_setRule {g : Gate} {name n : String} {b : Bool} :
    n ∈ (g.setRule name b).remembered ↔ n ≠ name ∧ n ∈ g.remembered := by
  cases b <;> simp [setRule, eq_comm (a := n)]

theorem mem_disabled_setGroup {g : Gate} {group n : String} {b : Bool} :
    n ∈ (g.setGroup group b).disabled ↔
      n ∈ g.disabled ∧ ¬ (n ∈ g.remembered ∧ b = false ∧ group ∈ g.groups) := by
  cases b with
  | true => simp [setGroup]
  | false =>
    by_cases hg : group ∈ g.groups
    · simp [setGroup, forget, hg, Std.ExtTreeSet.mem_diff_iff]
    · simp [setGroup, hg]

theorem mem_remembered_setGroup {g : Gate} {group n : String} {b : Bool} :
    n ∈ (g.setGroup group b).remembered ↔
      n ∈ g.remembered ∧ ¬ (b = false ∧ group ∈ g.groups) := by
  cases b with
  | true => simp [setGroup]
  | false => by_cases hg : group ∈ g.groups <;> simp [setGroup, forget, hg]

theorem mem_disabled_set_disabled {g : Gate} {scope : Override.Scope} {name n : String} :
    n ∈ (g.set ⟨scope, name, .disabled true⟩).disabled ↔
      n ∈ g.disabled ∨ (scope = .rule ∧ n = name) := by
  cases scope with
  | rule =>
    show n ∈ (g.setRule name true).disabled ↔ _
    by_cases hn : n = name <;> simp [mem_disabled_setRule, hn]
  | group =>
    show n ∈ (g.setGroup name true).disabled ↔ _
    simp [mem_disabled_setGroup]

theorem mem_groups_set_disabled {g : Gate} {scope : Override.Scope} {name n : String} :
    n ∈ (g.set ⟨scope, name, .disabled true⟩).groups ↔
      n ∈ g.groups ∨ (scope = .group ∧ n = name) := by
  cases scope with
  | rule =>
    show n ∈ (g.setRule name true).groups ↔ _
    simp
  | group =>
    show n ∈ (g.setGroup name true).groups ↔ _
    by_cases hn : n = name <;> simp [mem_groups_setGroup, hn]

/-- An edit makes the gate remember no name that it did not remember. -/
theorem mem_remembered_of_mem_set {g : Gate} {o : Override} {n : String}
    (h : n ∈ (g.set o).remembered) : n ∈ g.remembered := by
  rcases set_cases g o with ⟨b, ho⟩ | ⟨b, ho⟩ | ho <;> rw [ho] at h
  · exact (mem_remembered_setRule.mp h).2
  · exact (mem_remembered_setGroup.mp h).1
  · exact h

/-! ### Overrides that enable nothing -/

/-- Only the override that disables a name adds it. -/
theorem mem_disabled_set {g : Gate} {o : Override} (h : o.setting ≠ .disabled false) {n : String} :
    n ∈ (g.set o).disabled ↔ n ∈ g.disabled ∨ o = ⟨.rule, n, .disabled true⟩ := by
  obtain ⟨scope, name, x⟩ := o
  cases x with
  | factor m | summand m => cases scope <;> simp [set, set?]
  | disabled b =>
    cases b with
    | true => simp [mem_disabled_set_disabled, eq_comm (a := n)]
    | false => exact absurd rfl h

/-- Only the override that disables a name makes the gate forget it. -/
theorem mem_remembered_set {g : Gate} {o : Override} (h : o.setting ≠ .disabled false)
    {n : String} :
    n ∈ (g.set o).remembered ↔ n ∈ g.remembered ∧ o ≠ ⟨.rule, n, .disabled true⟩ := by
  obtain ⟨scope, name, x⟩ := o
  cases x with
  | factor m | summand m => cases scope <;> simp [set, set?]
  | disabled b =>
    cases b with
    | true =>
      cases scope with
      | rule =>
        show n ∈ (g.setRule name true).remembered ↔ _
        simp [mem_remembered_setRule, and_comm, eq_comm (a := n)]
      | group =>
        show n ∈ (g.setGroup name true).remembered ↔ _
        simp [mem_remembered_setGroup]
    | false => exact absurd rfl h

theorem mem_disabled_foldl_set {g : Gate} {os : List Override}
    (h : ∀ o ∈ os, o.setting ≠ .disabled false) {n : String} :
    n ∈ (os.foldl set g).disabled ↔ n ∈ g.disabled ∨ ⟨.rule, n, .disabled true⟩ ∈ os := by
  induction os generalizing g with
  | nil => simp
  | cons o os ih =>
    rw [List.foldl_cons, ih fun p hp => h p (List.mem_cons_of_mem _ hp),
      mem_disabled_set (h o List.mem_cons_self), List.mem_cons, or_assoc, eq_comm]

theorem mem_remembered_foldl_set {g : Gate} {os : List Override}
    (h : ∀ o ∈ os, o.setting ≠ .disabled false) {n : String} :
    n ∈ (os.foldl set g).remembered ↔
      n ∈ g.remembered ∧ ⟨.rule, n, .disabled true⟩ ∉ os := by
  induction os generalizing g with
  | nil => simp
  | cons o os ih =>
    rw [List.foldl_cons, ih fun p hp => h p (List.mem_cons_of_mem _ hp),
      mem_remembered_set (h o List.mem_cons_self), List.mem_cons, not_or, and_assoc, ne_comm]

/-! ### Edits that change nothing -/

/-- A name that an edit has disabled is disabled again without a trace. -/
theorem setRule_eq_self {g : Gate} {name : String} (h : name ∈ g.explicitRules) :
    g.setRule name true = g := by
  obtain ⟨hdisabled, hremembered⟩ := mem_explicitRules.mp h
  refine ext_mem (fun n => ?_) (fun n => by rw [groups_setRule]) (fun n => ?_)
  · rw [mem_disabled_setRule]
    by_cases hn : n = name <;> simp [hn, hdisabled]
  · rw [mem_remembered_setRule, and_iff_right_iff_imp]
    rintro hn rfl
    exact hremembered hn

/-- So is a group. -/
theorem setGroup_eq_self {g : Gate} {group : String} (h : group ∈ g.groups) :
    g.setGroup group true = g := by
  refine ext_mem (fun n => Iff.rfl) (fun n => ?_) (fun n => Iff.rfl)
  rw [mem_groups_setGroup]
  by_cases hn : n = group <;> simp [hn, h]

/-! ### The order of edits -/

theorem setRule_comm (g : Gate) {m n : String} (h : m ≠ n) (a b : Bool) :
    (g.setRule m a).setRule n b = (g.setRule n b).setRule m a := by
  refine ext_mem (fun x => ?_) (fun x => ?_) (fun x => ?_)
  · simp only [mem_disabled_setRule]
    by_cases hn : x = n
    · simp [hn, h.symm]
    · simp [hn]
  · simp only [groups_setRule]
  · simp only [mem_remembered_setRule, and_left_comm]

/-- Names that are made explicit in between are not forgotten, and the others are. -/
theorem setRule_setGroup_comm (g : Gate) (name group : String) (a b : Bool) :
    (g.setRule name a).setGroup group b = (g.setGroup group b).setRule name a := by
  refine ext_mem (fun x => ?_) (fun x => ?_) (fun x => ?_)
  · simp only [mem_disabled_setGroup, mem_disabled_setRule, mem_remembered_setRule, groups_setRule]
    by_cases hx : x = name <;> simp [hx]
  · simp only [mem_groups_setGroup, groups_setRule]
  · simp only [mem_remembered_setGroup, mem_remembered_setRule, groups_setRule, and_assoc]

theorem setGroup_comm (g : Gate) {m n : String} (h : m ≠ n) (a b : Bool) :
    (g.setGroup m a).setGroup n b = (g.setGroup n b).setGroup m a := by
  -- neither edit changes whether the other one enables a disabled group
  have hm : m ∈ (g.setGroup n b).groups ↔ m ∈ g.groups := by rw [mem_groups_setGroup, if_neg h]
  have hn : n ∈ (g.setGroup m a).groups ↔ n ∈ g.groups := by rw [mem_groups_setGroup, if_neg h.symm]
  refine ext_mem (fun x => ?_) (fun x => ?_) (fun x => ?_)
  · simp only [mem_disabled_setGroup, mem_remembered_setGroup, hm, hn]
    tauto
  · simp only [mem_groups_setGroup]
    by_cases hx : x = n
    · simp [hx, h.symm]
    · simp [hx]
  · simp only [mem_remembered_setGroup, hm, hn, and_right_comm]

/-- Overrides with different keys can be taken over in either order. -/
theorem set_comm (g : Gate) {o p : Override} (h : o.key ≠ p.key) :
    (g.set o).set p = (g.set p).set o := by
  obtain ⟨scope, m, x⟩ := o
  obtain ⟨scope', n, y⟩ := p
  cases x with
  | factor | summand => cases scope <;> rfl
  | disabled a =>
    cases y with
    | factor | summand => cases scope' <;> rfl
    | disabled b =>
      have hname (hscope : scope = scope') : m ≠ n := by
        rintro rfl
        exact h (by rw [hscope]; rfl)
      cases scope with
      | rule =>
        cases scope' with
        | rule => exact setRule_comm g (hname rfl) a b
        | group => exact setRule_setGroup_comm g m n a b
      | group =>
        cases scope' with
        | rule => exact (setRule_setGroup_comm g n m b a).symm
        | group => exact setGroup_comm g (hname rfl) a b

end RuleSteering.Gate
