import RuleSteering.Proofs.Adjustments.Stages
import RuleSteering.Proofs.Override.RoundTrip
import RuleSteering.Proofs.Steered.Lifecycle

/-!
# The cost of a candidate without groups

A candidate without groups has the empty text as its primary group. The table of the groups leaves its
cost alone as long as it holds nothing under the empty name. No text can put something there, because a
key with an empty name is not read, but an edit, a snapshot and the row of a group can
(`cost_run_of_groupList_nil`).

* `LinearTable.Holds`, a factor or a summand is stored under a key; `Adjustments.holds_foldl_set`, after
  a list of overrides;
* `StoresUnnamed`, the actions that store one for the group with the empty name; `holds_step`.
-/

namespace RuleSteering

open Override

/-! ### What is stored for a group -/

/-- A factor or a summand is stored under the key. -/
def LinearTable.Holds (t : LinearTable) (key : String) : Prop :=
  key ∈ t.factors ∨ key ∈ t.summands

instance (t : LinearTable) (key : String) : Decidable (t.Holds key) :=
  inferInstanceAs (Decidable (key ∈ t.factors ∨ key ∈ t.summands))

/-- What is not stored is looked up as a default. -/
theorem LinearTable.lookup_of_not_holds {t : LinearTable} {key : String} (h : ¬ t.Holds key) :
    t.factor key = 1 ∧ t.summand key = 0 := by
  obtain ⟨hfactor, hsummand⟩ := not_or.mp h
  exact ⟨factor_of_not_mem hfactor, summand_of_not_mem hsummand⟩

theorem LinearTable.holds_put {t : LinearTable} {key k : String} {x : Setting} :
    (t.put key x).Holds k ↔ (key = k ∧ ∀ b, x ≠ .disabled b) ∨ t.Holds k := by
  cases x with
  | factor n => simp [put, Holds, Std.ExtTreeMap.mem_insert, or_assoc]
  | summand n => simp [put, Holds, Std.ExtTreeMap.mem_insert, or_left_comm]
  | disabled b => simp [put]

/-- The override sets a factor or a summand of the group. -/
def Override.AdjustsGroup (group : String) (o : Override) : Prop :=
  o.scope = .group ∧ o.name = group ∧ ∀ b, o.setting ≠ .disabled b

/-- What a snapshot holds for a group is what it lists for it. -/
theorem Snapshot.exists_adjustsGroup_iff {sn : Snapshot} {group : String} :
    (∃ o ∈ sn.overrides, o.AdjustsGroup group) ↔ sn.adjustments.groups.Holds group := by
  constructor
  · rintro ⟨⟨scope, name, x⟩, ho, rfl, rfl, hx⟩
    have hget := mem_overrides.mp ho
    cases x with
    | factor n =>
      obtain ⟨m, hm, -⟩ := Option.map_eq_some_iff.mp hget
      exact .inl ((Std.ExtTreeMap.mem_iff_isSome_getElem?.mpr (Option.isSome_of_eq_some hm)))
    | summand n =>
      obtain ⟨m, hm, -⟩ := Option.map_eq_some_iff.mp hget
      exact .inr ((Std.ExtTreeMap.mem_iff_isSome_getElem?.mpr (Option.isSome_of_eq_some hm)))
    | disabled b => exact absurd rfl (hx b)
  · rintro (h | h)
    · refine ⟨⟨.group, group, .factor sn.adjustments.groups.factors[group]⟩, mem_overrides.mpr ?_,
        rfl, rfl, by simp⟩
      exact congrArg (Option.map Setting.factor) (Std.ExtTreeMap.getElem?_eq_some_getElem h)
    · refine ⟨⟨.group, group, .summand sn.adjustments.groups.summands[group]⟩, mem_overrides.mpr ?_,
        rfl, rfl, by simp⟩
      exact congrArg (Option.map Setting.summand) (Std.ExtTreeMap.getElem?_eq_some_getElem h)

/-- A row changes more than the flag if its factor or its summand is another one. -/
theorem Row.exists_change_iff {old new : Row} :
    (∃ x ∈ old.changes new, ∀ b, x ≠ .disabled b) ↔
      old.factor ≠ new.factor ∨ old.summand ≠ new.summand := by
  unfold changes
  split <;> split <;> split <;> simp [*]

namespace Adjustments

theorem holds_set {a : Adjustments} {o : Override} {group : String} :
    (a.set o).groups.Holds group ↔ o.AdjustsGroup group ∨ a.groups.Holds group := by
  show ((a.set o).table .group).Holds group ↔ _
  rw [table_set]
  split
  · rename_i hscope
    rw [LinearTable.holds_put, AdjustsGroup]
    simp [hscope.symm, table]
  · rename_i hscope
    simp [AdjustsGroup, Ne.symm hscope, table]

/-- A factor or a summand of a group is stored after a list of overrides if one of them sets it, or if
it was stored before. -/
theorem holds_foldl_set {a : Adjustments} {os : List Override} {group : String} :
    (os.foldl set a).groups.Holds group ↔
      (∃ o ∈ os, o.AdjustsGroup group) ∨ a.groups.Holds group := by
  induction os generalizing a with
  | nil => simp
  | cons o os ih => rw [List.foldl_cons, ih, holds_set, List.exists_mem_cons_iff, or_left_comm, or_assoc]

end Adjustments

namespace Steered

variable {S C : Type} [Strategy S C]

/-- The action stores a factor or a summand for the group with the empty name: an edit of it, a snapshot
that holds one, or a row of this group that differs from the effective one. -/
def StoresUnnamed (s : Steered S) : Action → Prop
  | .restore sn => sn.adjustments.groups.Holds ""
  | .set o => o.AdjustsGroup ""
  | .writeGroupRow r => r.key = "" ∧
      ((s.groupRow r.key).factor ≠ r.factor ∨ (s.groupRow r.key).summand ≠ r.summand)
  | _ => False

theorem exists_adjustsGroup_handedOver_iff {s : Steered S} {a : Action} :
    (∃ o ∈ s.handedOver a, o.AdjustsGroup "") ↔ s.StoresUnnamed a := by
  cases a with
  | load pairs =>
    refine iff_of_false ?_ id
    rintro ⟨o, ho, -, hname, -⟩
    obtain ⟨pair, -, hpair⟩ := List.mem_filterMap.mp ho
    exact name_ne_empty_of_ofPair? hpair hname
  | restore sn => exact Snapshot.exists_adjustsGroup_iff
  | set o => simp [handedOver, StoresUnnamed]
  | writeRuleRow r => simp [handedOver, AdjustsGroup, StoresUnnamed]
  | writeGroupRow r =>
    constructor
    · rintro ⟨o, ho, -, hname, hx⟩
      obtain ⟨x, hmem, rfl⟩ := List.mem_map.mp ho
      exact ⟨hname, Row.exists_change_iff.mp ⟨x, hmem, hx⟩⟩
    · rintro ⟨hname, hdiffers⟩
      obtain ⟨x, hmem, hx⟩ := Row.exists_change_iff.mpr hdiffers
      exact ⟨_, List.mem_map.mpr ⟨x, hmem, rfl⟩, rfl, hname, hx⟩
  | reset | offer c | price c | showRuleRows names | showGroupRows names =>
    simp [handedOver, StoresUnnamed]

/-- The group with the empty name has a factor or a summand after an action if the action stores one,
or if it had one before and the action is no reset. -/
theorem holds_step {s : Steered S} {a : Action} :
    (s.step a).adjustments.groups.Holds "" ↔
      s.StoresUnnamed a ∨ (s.adjustments.groups.Holds "" ∧ a ≠ .reset) := by
  by_cases ha : a = .reset
  · subst ha
    have hempty : ¬ (s.step .reset).adjustments.groups.Holds "" :=
      show ¬ (∅ : Adjustments).groups.Holds "" by decide
    simp [hempty, StoresUnnamed]
  · rw [adjustments_step s ha, Adjustments.holds_foldl_set, exists_adjustsGroup_handedOver_iff,
      and_iff_left ha]

/-- After a history the group with the empty name has a factor or a summand if an action has stored one
and no reset came later, or if it had one before and there was no reset at all. -/
theorem holds_run {s : Steered S} {acts : List Action} :
    (s.run acts).adjustments.groups.Holds "" ↔
      (∃ before a after, acts = before ++ a :: after ∧
        (s.run before).StoresUnnamed a ∧ .reset ∉ after) ∨
      (s.adjustments.groups.Holds "" ∧ .reset ∉ acts) :=
  foldl_iff_of_step (P := fun t : Steered S => t.adjustments.groups.Holds "") fun _ _ => holds_step

/-- Whatever the history is, a candidate without groups costs what the table of the groups makes of its
cost under the empty name, and then the table of the rules. The table of the groups holds something
under the empty name exactly if an edit, a snapshot or the row of a group has stored it since the
beginning or since the last reset; if it does not, the candidate costs what the table of the rules alone
makes of its cost. The table leaves every cost of a candidate without groups alone exactly if it looks
up the factor one and the summand zero. -/
theorem cost_run_of_groupList_nil [CostDomain C] (base : S) (acts : List Action) {c : Candidate}
    (hc : c.groupList = []) :
    let s := (wrap base).run acts
    let rules := s.adjustments.rules
    let groups := s.adjustments.groups
    (groups.Holds "" ↔ ∃ before a after, acts = before ++ a :: after ∧
        ((wrap base).run before).StoresUnnamed a ∧ .reset ∉ after) ∧
      (¬ groups.Holds "" → s.cost c = rules.adjust .byName c (Strategy.cost s.base c)) ∧
      s.cost c = rules.adjust .byName c
        (CostDomain.linear (groups.factor "") (groups.summand "") (Strategy.cost s.base c)) ∧
      ((∀ x : Cost, groups.adjust .byPrimaryGroup c x = x) ↔
        groups.factor "" = 1 ∧ groups.summand "" = 0) := by
  intro s rules groups
  have hgroup : c.primaryGroup = "" := Candidate.primaryGroup_eq_of_groupList_nil hc
  have hstage {D : Type} [CostDomain D] (x : D) : groups.adjust .byPrimaryGroup c x =
      CostDomain.linear (groups.factor "") (groups.summand "") x := by
    rw [LinearTable.adjust, KeyPolicy.keyOf_byPrimaryGroup, hgroup, LinearTable.adjustAt_eq_linear]
  have hcost : s.cost c = rules.adjust .byName c
      (CostDomain.linear (groups.factor "") (groups.summand "") (Strategy.cost s.base c)) := by
    rw [← hstage]
    rfl
  refine ⟨?_, fun hnone => ?_, hcost, ?_⟩
  · have hfresh : ¬ (wrap base).adjustments.groups.Holds "" :=
      show ¬ (∅ : Adjustments).groups.Holds "" by decide
    rw [holds_run]
    simp only [hfresh, false_and, or_false]
  · obtain ⟨hfactor, hsummand⟩ := LinearTable.lookup_of_not_holds hnone
    rw [hcost, hfactor, hsummand, CostDomain.linear_one_zero]
  · simp only [hstage, Cost.linear_eq_stage, Cost.stage_eq_self_iff]

/-- What was stored under the empty name is gone after a reset, and no text puts it there again, so the
table of the rules alone makes the cost. A factor that is stored once more makes itself felt before the
one of the rule. -/
theorem cost_run_of_groupList_nil_of_reset :
    let c : Candidate := ⟨"cut", some []⟩
    let base : Indifferent Cost := ⟨.finite 7⟩
    let acts : List Action := [.set ⟨.group, "", .factor 5⟩, .reset,
      .load [("ruleset..factor", "5"), ("ruleset..summand", "1"), ("rule.cut.factor", "3")]]
    let s := (wrap base).run acts
    let t := (wrap base).run (acts ++ [.writeGroupRow ⟨"", 1, 2, false⟩])
    ¬ s.adjustments.groups.Holds "" ∧ s.cost c = .finite 21 ∧
      s.cost c = s.adjustments.rules.adjust .byName c (Strategy.cost s.base c) ∧
      t.adjustments.groups.Holds "" ∧ t.cost c = .finite 27 ∧
      ¬ ∀ x : Cost, t.adjustments.groups.adjust .byPrimaryGroup c x = x := by
  intro c base acts s t
  have hnone : ¬ s.adjustments.groups.Holds "" := by decide +kernel
  obtain ⟨-, halone, -, -⟩ := cost_run_of_groupList_nil base acts (c := c) rfl
  obtain ⟨hiff, -, -, hself⟩ := cost_run_of_groupList_nil base
    (acts ++ [.writeGroupRow ⟨"", 1, 2, false⟩]) (c := c) rfl
  have hstores : s.StoresUnnamed (.writeGroupRow ⟨"", 1, 2, false⟩) := by
    show "" = "" ∧ (_ ∨ _)
    decide +kernel
  refine ⟨hnone, by decide +kernel, halone hnone, hiff.mpr ⟨acts, _, [], rfl, hstores, by simp⟩,
    by decide +kernel, fun h => ?_⟩
  exact absurd (hself.mp h) (by decide +kernel)

/-- An edit of the group with the empty name, a snapshot that holds it and its row all change the cost
of a candidate without groups, while the table of the rules alone would leave it as it is. -/
theorem cost_of_unnamed_group :
    let base : Indifferent Cost := ⟨.finite 7⟩
    let edited := (wrap base).run [.set ⟨.group, "", .factor 5⟩]
    let restored := (wrap base).run [.restore edited.snapshot]
    let written := (wrap base).run [.writeGroupRow ⟨"", 5, 0, false⟩]
    ∀ s ∈ [edited, restored, written], ∀ groups ∈ [none, some []],
      s.cost ⟨"cut", groups⟩ = .finite 35 ∧
        s.adjustments.rules.adjust .byName ⟨"cut", groups⟩ (Strategy.cost s.base ⟨"cut", groups⟩) =
          Cost.finite 7 := by
  decide +kernel

end Steered

end RuleSteering
