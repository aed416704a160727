import Mathlib.Data.List.Induction
import RuleSteering.Proofs.Steered.RowWrite

/-!
# Committing an override editor

An editor reads the rows of some rules and groups, and later writes them back, the rule rows as they
were read and the group rows with edits, in whatever order.

A rule row that was read while its rule was remembered says that the rule is disabled. If the gate
forgets the name before the row is written, the row makes it explicit.

* `Enables`, a group that is disabled at that moment is enabled by one of the rows;
* `Promotes`, the row of a remembered name is written after that;
* `Tracks`, what the rows written so far have done, kept by every further row (`Tracks.append`).
-/

namespace RuleSteering.Steered

open Override

variable {S C : Type} [Strategy S C]

/-! ### Promoted names -/

/-- One of the rows enables a group that is disabled when the row is written. -/
def Enables (s : Steered S) (ws : List Action) : Prop :=
  ∃ before r, before ++ [.writeGroupRow r] <+: ws ∧
    r.disabled = false ∧ r.key ∈ (s.run before).gate.groups

/-- A name that is disabled only because it is remembered, whose row is written, as it was read,
after a group has been enabled. -/
def Promotes (s : Steered S) (ws : List Action) (name : String) : Prop :=
  name ∈ s.gate.disabled ∧ name ∈ s.gate.remembered ∧
    ∃ before, before ++ [.writeRuleRow (s.ruleRow name)] <+: ws ∧ s.Enables before

theorem append_singleton_prefix_iff {α : Type} {as bs : List α} {a b : α} :
    as ++ [a] <+: bs ++ [b] ↔ as ++ [a] <+: bs ∨ (as = bs ∧ a = b) := by
  rw [List.prefix_concat_iff, or_comm]
  simp

theorem enables_append {s : Steered S} {ws : List Action} {a : Action} :
    s.Enables (ws ++ [a]) ↔ s.Enables ws ∨
      ∃ r, a = .writeGroupRow r ∧ r.disabled = false ∧ r.key ∈ (s.run ws).gate.groups := by
  simp only [Enables, append_singleton_prefix_iff]
  constructor
  · rintro ⟨before, r, hprefix | ⟨rfl, rfl⟩, hr⟩
    · exact .inl ⟨before, r, hprefix, hr⟩
    · exact .inr ⟨r, rfl, hr⟩
  · rintro (⟨before, r, hprefix, hr⟩ | ⟨r, rfl, hr⟩)
    · exact ⟨before, r, .inl hprefix, hr⟩
    · exact ⟨ws, r, .inr ⟨rfl, rfl⟩, hr⟩

theorem promotes_append {s : Steered S} {ws : List Action} {a : Action} {name : String} :
    s.Promotes (ws ++ [a]) name ↔ s.Promotes ws name ∨
      (name ∈ s.gate.disabled ∧ name ∈ s.gate.remembered ∧
        a = .writeRuleRow (s.ruleRow name) ∧ s.Enables ws) := by
  simp only [Promotes, append_singleton_prefix_iff]
  constructor
  · rintro ⟨hd, hr, before, hprefix | ⟨rfl, rfl⟩, he⟩
    · exact .inl ⟨hd, hr, before, hprefix, he⟩
    · exact .inr ⟨hd, hr, rfl, he⟩
  · rintro (⟨hd, hr, before, hprefix, he⟩ | ⟨hd, hr, rfl, he⟩)
    · exact ⟨hd, hr, before, .inl hprefix, he⟩
    · exact ⟨hd, hr, ws, .inr ⟨rfl, rfl⟩, he⟩

theorem not_enables_nil (s : Steered S) : ¬ s.Enables [] := by
  rintro ⟨before, r, hprefix, -⟩
  simp at hprefix

theorem not_promotes_nil (s : Steered S) (name : String) : ¬ s.Promotes [] name := by
  rintro ⟨-, -, before, hprefix, -⟩
  simp at hprefix

/-! ### Rows that are written -/

/-- A row of a rule as it is read in the state `s`, or any row of a group. -/
inductive Commits (s : Steered S) : Action → Prop
  | rule (name : String) : Commits s (.writeRuleRow (s.ruleRow name))
  | group (r : Row) : Commits s (.writeGroupRow r)

/-- What the rows `ws` have done since the state `s`. -/
structure Tracks (s : Steered S) (ws : List Action) : Prop where
  rules : (s.run ws).adjustments.rules = s.adjustments.rules
  mem_explicit : ∀ name, name ∈ (s.run ws).gate.explicitRules ↔
    name ∈ s.gate.explicitRules ∨ s.Promotes ws name
  disabled : ¬ s.Enables ws → (s.run ws).gate.disabled = s.gate.disabled
  remembered : ¬ s.Enables ws → (s.run ws).gate.remembered = s.gate.remembered
  forgotten : s.Enables ws → (s.run ws).gate.remembered = ∅

theorem Tracks.nil (s : Steered S) : s.Tracks [] where
  rules := rfl
  mem_explicit name := by simp [not_promotes_nil]
  disabled _ := rfl
  remembered _ := rfl
  forgotten h := absurd h (not_enables_nil s)

namespace Tracks

variable {s : Steered S} {ws : List Action}

/-- The row of a rule makes at most its own name explicit, and only once names were forgotten. -/
theorem append_rule (h : s.Tracks ws) (name : String) :
    s.Tracks (ws ++ [.writeRuleRow (s.ruleRow name)]) := by
  have hrun : s.run (ws ++ [.writeRuleRow (s.ruleRow name)]) =
      (s.run ws).writeRuleRow (s.ruleRow name) := run_append s ws _
  have henables : s.Enables (ws ++ [.writeRuleRow (s.ruleRow name)]) ↔ s.Enables ws := by
    simp [enables_append]
  -- before names were forgotten, the row differs in nothing
  have hkeep (he : ¬ s.Enables ws) :
      ((s.run ws).writeRuleRow (s.ruleRow name)).gate = (s.run ws).gate := by
    rw [gate_writeRuleRow, if_pos]
    show decide (name ∈ (s.run ws).gate.disabled) = decide (name ∈ s.gate.disabled)
    rw [h.disabled he]
  refine ⟨?_, fun n => ?_, fun he => ?_, fun he => ?_, fun he => ?_⟩
  · rw [hrun, adjustments_writeRuleRow, h.rules]
    · show (s.run ws).adjustments.rules.factor name = s.adjustments.rules.factor name
      rw [h.rules]
    · show (s.run ws).adjustments.rules.summand name = s.adjustments.rules.summand name
      rw [h.rules]
  · rw [hrun, promotes_append]
    by_cases he : s.Enables ws
    · rw [mem_explicitRules_writeRuleRow (h.forgotten he), h.mem_explicit, Gate.mem_explicitRules]
      by_cases hn : n = name
      · subst hn
        have hflag : (s.ruleRow n).disabled = true ↔ n ∈ s.gate.disabled := decide_eq_true_iff
        rw [key_ruleRow, if_pos rfl, hflag]
        -- a name that was disabled is explicit by now unless it was remembered
        constructor
        · intro hd
          by_cases hr : n ∈ s.gate.remembered
          · exact .inr (.inr ⟨hd, hr, rfl, he⟩)
          · exact .inl ⟨hd, hr⟩
        · rintro (hd | hp | hd)
          · exact hd.1
          · exact hp.1
          · exact hd.1
      · have hrow : Action.writeRuleRow (s.ruleRow name) ≠ .writeRuleRow (s.ruleRow n) := by
          intro heq
          exact hn (congrArg Row.key (Action.writeRuleRow.inj heq)).symm
        rw [key_ruleRow, if_neg hn]
        simp [hrow]
    · rw [hkeep he, h.mem_explicit]
      simp [he]
  · rw [henables] at he
    rw [hrun, hkeep he, h.disabled he]
  · rw [henables] at he
    rw [hrun, hkeep he, h.remembered he]
  · rw [henables] at he
    rw [hrun, gate_writeRuleRow]
    split
    · exact h.forgotten he
    · cases (s.ruleRow name).disabled <;> simp [Gate.setRule, h.forgotten he]

/-- The row of a group makes no name explicit, and the gate forgets the remembered names with the
first group that is enabled. -/
theorem append_group (h : s.Tracks ws) (r : Row) : s.Tracks (ws ++ [.writeGroupRow r]) := by
  have hrun : s.run (ws ++ [.writeGroupRow r]) = (s.run ws).writeGroupRow r := run_append s ws _
  have henables : s.Enables (ws ++ [.writeGroupRow r]) ↔
      s.Enables ws ∨ (r.disabled = false ∧ r.key ∈ (s.run ws).gate.groups) := by
    simp [enables_append]
  refine ⟨?_, fun n => ?_, fun he => ?_, fun he => ?_, fun he => ?_⟩
  · rw [hrun, rules_writeGroupRow, h.rules]
  · rw [hrun, explicitRules_writeGroupRow, h.mem_explicit, promotes_append]
    simp
  · rw [henables, not_or] at he
    rw [hrun, (gate_writeGroupRow_of_not_enables he.2).1, h.disabled he.1]
  · rw [henables, not_or] at he
    rw [hrun, (gate_writeGroupRow_of_not_enables he.2).2, h.remembered he.1]
  · rw [hrun]
    by_cases hr : r.disabled = false ∧ r.key ∈ (s.run ws).gate.groups
    · exact remembered_writeGroupRow_of_enables hr.1 hr.2
    · rw [(gate_writeGroupRow_of_not_enables hr).2]
      exact h.forgotten ((henables.mp he).resolve_right hr)

theorem append (h : s.Tracks ws) {a : Action} (ha : s.Commits a) : s.Tracks (ws ++ [a]) := by
  cases ha with
  | rule name => exact h.append_rule name
  | group r => exact h.append_group r

/-- What any sequence of rows does. -/
theorem of_commits (hws : ∀ a ∈ ws, s.Commits a) : s.Tracks ws := by
  induction ws using List.reverseRecOn with
  | nil => exact Tracks.nil s
  | append_singleton ws a ih =>
    have htracks := ih fun x hx => hws x (List.mem_append_left _ hx)
    exact htracks.append (hws a (List.mem_append_right _ List.mem_cons_self))

end Tracks

/-- The names that are promoted are those that the rows make explicit. -/
theorem Tracks.promotes_iff {s : Steered S} {ws : List Action} (h : s.Tracks ws) {name : String} :
    s.Promotes ws name ↔ name ∈ (s.run ws).gate.explicitRules ∧ name ∉ s.gate.explicitRules := by
  rw [h.mem_explicit]
  constructor
  · intro hp
    exact ⟨.inr hp, fun he => (Gate.mem_explicitRules.mp he).2 hp.2.1⟩
  · rintro ⟨he | hp, hnot⟩
    · exact absurd he hnot
    · exact hp

/-! ### Groups -/

/-- The groups whose rows are written. -/
def groupKeys (ws : List Action) : List String :=
  ws.filterMap fun
    | .writeGroupRow r => some r.key
    | _ => none

theorem mem_groupKeys {ws : List Action} {r : Row} (h : .writeGroupRow r ∈ ws) :
    r.key ∈ groupKeys ws :=
  List.mem_filterMap.mpr ⟨_, h, rfl⟩

theorem groupKeys_append (as bs : List Action) :
    groupKeys (as ++ bs) = groupKeys as ++ groupKeys bs :=
  List.filterMap_append

/-- A group whose row is not written keeps its settings. -/
theorem get?_run_of_not_mem {s : Steered S} {ws : List Action} (hws : ∀ a ∈ ws, s.Commits a)
    {group : String} (h : group ∉ groupKeys ws) (t : Steered S) (f : Field) :
    (t.run ws).snapshot.get? ⟨.group, group, f⟩ = t.snapshot.get? ⟨.group, group, f⟩ := by
  induction ws generalizing t with
  | nil => rfl
  | cons a ws ih =>
    have hrest : group ∉ groupKeys ws := fun hmem =>
      h (((List.sublist_cons_self a ws).filterMap _).subset hmem)
    rw [run_cons, ih (fun x hx => hws x (List.mem_cons_of_mem _ hx)) hrest]
    cases hws a List.mem_cons_self with
    | rule name => exact get?_snapshot_writeRuleRow_of_ne t (.inl (show Scope.group ≠ .rule by decide))
    | group r =>
      refine get?_snapshot_writeGroupRow_of_ne t (.inr ?_)
      rintro rfl
      exact h (mem_groupKeys List.mem_cons_self)

/-- If no group has two rows, the row of a group does what it would do on its own. -/
theorem get?_run_of_mem {s : Steered S} {ws : List Action} (hws : ∀ a ∈ ws, s.Commits a)
    (hnodup : (groupKeys ws).Nodup) {r : Row} (hr : .writeGroupRow r ∈ ws) (t : Steered S)
    (f : Field) : (t.run ws).snapshot.get? ⟨.group, r.key, f⟩ =
      (t.writeGroupRow r).snapshot.get? ⟨.group, r.key, f⟩ := by
  obtain ⟨as, bs, rfl⟩ := List.append_of_mem hr
  have hkeys : groupKeys (as ++ .writeGroupRow r :: bs) = groupKeys as ++ r.key :: groupKeys bs :=
    groupKeys_append as _
  rw [hkeys] at hnodup
  have has : r.key ∉ groupKeys as := by
    intro h
    exact (List.nodup_append.mp hnodup).2.2 _ h _ List.mem_cons_self rfl
  have hbs : r.key ∉ groupKeys bs :=
    (List.nodup_cons.mp (List.nodup_append.mp hnodup).2.1).1
  -- neither the rows before nor those after it touch the group
  rw [run_append, run_cons, get?_run_of_not_mem (fun x hx => hws x (by simp [hx])) hbs]
  refine get?_snapshot_writeGroupRow_congr (fun f => ?_) f
  exact get?_run_of_not_mem (fun x hx => hws x (List.mem_append_left _ hx)) has t f

/-! ### All rows of an editor -/

/-- The rows that an editor writes back: the rows of some rules as they are read in the state `s`,
and rows of groups. -/
def editorRows (s : Steered S) (names : List String) (rows : List Row) : List Action :=
  names.map (fun name => .writeRuleRow (s.ruleRow name)) ++ rows.map .writeGroupRow

theorem groupKeys_editorRows (s : Steered S) (names : List String) (rows : List Row) :
    groupKeys (s.editorRows names rows) = rows.map Row.key := by
  have hrules : groupKeys (names.map fun name => .writeRuleRow (s.ruleRow name)) = [] := by
    induction names with
    | nil => rfl
    | cons name names ih => exact ih
  have hgroups : groupKeys (rows.map .writeGroupRow) = rows.map Row.key := by
    induction rows with
    | nil => rfl
    | cons r rows ih =>
      rw [List.map_cons, List.map_cons, ← ih]
      rfl
  rw [editorRows, groupKeys_append, hrules, hgroups, List.nil_append]

variable {s : Steered S} {names : List String} {rows : List Row} {ws : List Action}

theorem commits_of_perm (hws : ws.Perm (s.editorRows names rows)) : ∀ a ∈ ws, s.Commits a := by
  intro a ha
  rcases List.mem_append.mp (hws.mem_iff.mp ha) with ha | ha
  · obtain ⟨name, -, rfl⟩ := List.mem_map.mp ha
    exact .rule name
  · obtain ⟨r, -, rfl⟩ := List.mem_map.mp ha
    exact .group r

/-- What becomes of a group does not depend on the order of the rows, if no group has two. -/
theorem get?_run_group_of_perm (hws : ws.Perm (s.editorRows names rows))
    (hnodup : (rows.map Row.key).Nodup) (group : String) (f : Field) :
    (s.run ws).snapshot.get? ⟨.group, group, f⟩ =
      (s.run (s.editorRows names rows)).snapshot.get? ⟨.group, group, f⟩ := by
  have hkeys : (groupKeys ws).Perm (groupKeys (s.editorRows names rows)) := hws.filterMap _
  have hnodup' : (groupKeys (s.editorRows names rows)).Nodup := by
    rw [groupKeys_editorRows]
    exact hnodup
  by_cases hmem : group ∈ groupKeys (s.editorRows names rows)
  · rw [groupKeys_editorRows] at hmem
    obtain ⟨r, hr, rfl⟩ := List.mem_map.mp hmem
    have hrow : Action.writeGroupRow r ∈ s.editorRows names rows :=
      List.mem_append_right _ (List.mem_map_of_mem hr)
    rw [get?_run_of_mem (commits_of_perm hws) (hkeys.nodup_iff.mpr hnodup') (hws.mem_iff.mpr hrow),
      get?_run_of_mem (commits_of_perm (.refl _)) hnodup' hrow]
  · rw [get?_run_of_not_mem (commits_of_perm hws) fun h => hmem (hkeys.mem_iff.mp h),
      get?_run_of_not_mem (commits_of_perm (.refl _)) hmem]

/-- What the rows do to the factors and summands of rules, which is nothing. -/
theorem Tracks.get?_run_rule (h : s.Tracks ws) {name : String} {f : Field} (hf : f ≠ .disabled) :
    (s.run ws).snapshot.get? ⟨.rule, name, f⟩ = s.snapshot.get? ⟨.rule, name, f⟩ := by
  have htable : (s.run ws).snapshot.table .rule = s.snapshot.table .rule := h.rules
  cases f with
  | factor => simp only [Snapshot.get?, htable]
  | summand => simp only [Snapshot.get?, htable]
  | disabled => contradiction

theorem explicitRules_eq_of_snapshot_eq {t t' : Steered S} (h : t.snapshot = t'.snapshot) :
    t.gate.explicitRules = t'.gate.explicitRules :=
  congrArg Snapshot.disabledRules h

/-- Whatever the order of the rows, exactly the promoted names become explicit, so none does if no
name is promoted. The order makes no other difference to the snapshot if no group has two rows. -/
theorem run_editorRows (hws : ws.Perm (s.editorRows names rows)) :
    (∀ name, name ∈ (s.run ws).gate.explicitRules ↔
      name ∈ s.gate.explicitRules ∨ s.Promotes ws name) ∧
    ((s.run ws).gate.explicitRules = s.gate.explicitRules ↔ ∀ name, ¬ s.Promotes ws name) ∧
    ((rows.map Row.key).Nodup → ∀ ws' : List Action, ws'.Perm (s.editorRows names rows) →
      ((s.run ws).snapshot = (s.run ws').snapshot ↔
        ∀ name, s.Promotes ws name ↔ s.Promotes ws' name)) := by
  have htracks := Tracks.of_commits (commits_of_perm hws)
  refine ⟨htracks.mem_explicit, ⟨fun h name hp => ?_, fun h => ?_⟩, fun hnodup ws' hws' => ?_⟩
  · rw [htracks.promotes_iff, h] at hp
    exact hp.2 hp.1
  · refine Std.ExtTreeSet.ext_mem fun name => ?_
    rw [htracks.mem_explicit]
    simp [h name]
  · have htracks' := Tracks.of_commits (commits_of_perm hws')
    constructor
    · intro h name
      rw [htracks.promotes_iff, htracks'.promotes_iff, explicitRules_eq_of_snapshot_eq h]
    · intro h
      refine Snapshot.ext_get? fun k => ?_
      obtain ⟨scope, name, f⟩ := k
      cases scope with
      | group =>
        rw [get?_run_group_of_perm hws hnodup, get?_run_group_of_perm hws' hnodup]
      | rule =>
        by_cases hf : f = .disabled
        · subst hf
          refine Snapshot.flag?_eq_flag?_iff.mpr ?_
          show name ∈ (s.run ws).gate.explicitRules ↔ name ∈ (s.run ws').gate.explicitRules
          rw [htracks.mem_explicit, htracks'.mem_explicit, h name]
        · rw [htracks.get?_run_rule hf, htracks'.get?_run_rule hf]

/-- If the rows of the rules are written before those of the groups, no name is promoted. -/
theorem not_promotes_editorRows (s : Steered S) (names : List String) (rows : List Row)
    (name : String) : ¬ s.Promotes (s.editorRows names rows) name := by
  induction rows using List.reverseRecOn with
  | nil =>
    -- a promoted name needs the row of a group, and there is none
    rintro ⟨-, -, before, hprefix, before', r, hprefix', -⟩
    have hrow : Action.writeGroupRow r ∈ s.editorRows names [] := by
      refine hprefix.subset (List.mem_append_left _ (hprefix'.subset ?_))
      exact List.mem_append_right _ List.mem_cons_self
    simp [editorRows] at hrow
  | append_singleton rows r ih =>
    have hlast : s.editorRows names (rows ++ [r]) = s.editorRows names rows ++ [.writeGroupRow r] := by
      simp [editorRows]
    rw [hlast, promotes_append]
    rintro (h | ⟨-, -, h, -⟩)
    · exact ih h
    · contradiction

/-- Between the rows of two remembered rules a group is enabled: only the second rule becomes
explicit. -/
theorem run_editorRows_of_between :
    let s := (wrap (⟨.top⟩ : Indifferent Cost)).run [.set ⟨.group, "alpha", .disabled true⟩,
      .offer ⟨"andLeft", some ["alpha"]⟩, .offer ⟨"orRight", some ["alpha"]⟩]
    let row : Row := { s.groupRow "alpha" with disabled := false }
    let ws : List Action := [.writeRuleRow (s.ruleRow "andLeft"), .writeGroupRow row,
      .writeRuleRow (s.ruleRow "orRight")]
    ws.Perm (s.editorRows ["andLeft", "orRight"] [row]) ∧
      "andLeft" ∈ s.gate.remembered ∧ "orRight" ∈ s.gate.remembered ∧
      "andLeft" ∉ (s.run ws).gate.explicitRules ∧ "orRight" ∈ (s.run ws).gate.explicitRules := by
  intro s row ws
  have hws : ws.Perm (s.editorRows ["andLeft", "orRight"] [row]) :=
    .cons _ (.swap (Action.writeRuleRow (s.ruleRow "orRight")) (Action.writeGroupRow row) [])
  have hleft : "andLeft" ∈ s.gate.remembered := by decide
  have hright : "orRight" ∈ s.gate.remembered := by decide
  have hnot : ¬ s.Promotes ws "andLeft" := by
    have hne : s.ruleRow "orRight" ≠ s.ruleRow "andLeft" := fun h =>
      absurd (congrArg Row.key h) (by decide)
    show ¬ s.Promotes ([] ++ [.writeRuleRow (s.ruleRow "andLeft")] ++ [.writeGroupRow row] ++
      [.writeRuleRow (s.ruleRow "orRight")]) "andLeft"
    rw [promotes_append, promotes_append, promotes_append]
    simp [not_promotes_nil, not_enables_nil, hne]
  have hpromotes : s.Promotes ws "orRight" :=
    ⟨by decide, hright, _, List.prefix_rfl, [.writeRuleRow (s.ruleRow "andLeft")], row,
      List.prefix_rfl, rfl, by decide⟩
  obtain ⟨hexplicit, -⟩ := run_editorRows hws
  refine ⟨hws, hleft, hright, fun h => ?_, (hexplicit _).mpr (.inr hpromotes)⟩
  rcases (hexplicit _).mp h with h | h
  · exact (Gate.mem_explicitRules.mp h).2 hleft
  · exact hnot h

/-- If the group of a remembered rule is enabled before the row of the rule is written, the rule
becomes explicit; in the other order it does not. -/
theorem explicit_of_group_first :
    let s := (wrap (⟨.top⟩ : Indifferent Cost)).run
      [.set ⟨.group, "alpha", .disabled true⟩, .offer ⟨"andLeft", some ["alpha"]⟩]
    let row : Row := { s.groupRow "alpha" with disabled := false }
    let rule : Action := .writeRuleRow (s.ruleRow "andLeft")
    "andLeft" ∉ s.gate.explicitRules ∧
      "andLeft" ∈ (s.run [.writeGroupRow row, rule]).gate.explicitRules ∧
      (s.run [.writeGroupRow row, rule]).snapshot ≠ (s.run [rule, .writeGroupRow row]).snapshot := by
  intro s row rule
  have hs : "andLeft" ∈ s.gate.remembered := by decide
  have hfirst : "andLeft" ∈ (s.run [.writeGroupRow row, rule]).gate.explicitRules :=
    Gate.mem_explicitRules.mpr (by decide +kernel)
  have hlast : "andLeft" ∉ (s.run [rule, .writeGroupRow row]).gate.explicitRules :=
    fun h => absurd (Gate.mem_explicitRules.mp h).1 (by decide +kernel)
  refine ⟨fun h => (Gate.mem_explicitRules.mp h).2 hs, hfirst, fun h => ?_⟩
  exact hlast (explicitRules_eq_of_snapshot_eq h ▸ hfirst)

end RuleSteering.Steered
