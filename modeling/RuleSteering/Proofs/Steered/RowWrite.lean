import RuleSteering.Proofs.Snapshot.Lookup

/-!
# Writing one row back

A row that is written back edits one rule or one group. Of the disabled flag the gate hears only if
the row differs from the effective flag at that moment.

* `gate_writeRuleRow`, `gate_writeGroupRow`, what the gate is after a row;
* `get?_snapshot_writeRuleRow_of_ne`, `get?_snapshot_writeGroupRow_of_ne`, what a row leaves alone;
* `get?_snapshot_writeGroupRow_congr`, what a row of a group does to this group depends on nothing
  but the settings of the group.
-/

namespace RuleSteering

open Override

/-- Of the settings by which a row differs from another one only the flag is a matter of the gate. -/
theorem Gate.foldl_set_changes (g : Gate) (scope : Scope) (name : String) (old new : Row) :
    ((old.changes new).map (Override.mk scope name)).foldl Gate.set g =
      if old.disabled = new.disabled then g else g.set ⟨scope, name, .disabled new.disabled⟩ := by
  have hfactor (n : Int64) : g.set ⟨scope, name, .factor n⟩ = g := by cases scope <;> rfl
  have hsummand (n : Int64) : g.set ⟨scope, name, .summand n⟩ = g := by cases scope <;> rfl
  unfold Row.changes
  split <;> split <;> split <;> simp [hfactor, hsummand]

namespace Steered

variable {S : Type}

theorem gate_writeRuleRow (s : Steered S) (r : Row) :
    (s.writeRuleRow r).gate = if decide (r.key ∈ s.gate.disabled) = r.disabled then s.gate
      else s.gate.setRule r.key r.disabled := by
  rw [writeRuleRow, gate_setAll, Gate.foldl_set_changes]
  rfl

theorem gate_writeGroupRow (s : Steered S) (r : Row) :
    (s.writeGroupRow r).gate = if decide (r.key ∈ s.gate.groups) = r.disabled then s.gate
      else s.gate.setGroup r.key r.disabled := by
  rw [writeGroupRow, gate_setAll, Gate.foldl_set_changes]
  rfl

@[simp] theorem explicitRules_writeGroupRow (s : Steered S) (r : Row) :
    (s.writeGroupRow r).gate.explicitRules = s.gate.explicitRules := by
  rw [gate_writeGroupRow]
  split
  · rfl
  · exact Gate.explicitRules_setGroup s.gate r.key r.disabled

/-- A row that enables a disabled group makes the gate forget every remembered name. -/
theorem remembered_writeGroupRow_of_enables {s : Steered S} {r : Row} (hr : r.disabled = false)
    (hkey : r.key ∈ s.gate.groups) : (s.writeGroupRow r).gate.remembered = ∅ := by
  rw [gate_writeGroupRow, if_neg (by simp [hr, hkey]), hr, Gate.setGroup, if_pos hkey]
  rfl

/-- Any other row of a group leaves the disabled and the remembered names. -/
theorem gate_writeGroupRow_of_not_enables {s : Steered S} {r : Row}
    (h : ¬ (r.disabled = false ∧ r.key ∈ s.gate.groups)) :
    (s.writeGroupRow r).gate.disabled = s.gate.disabled ∧
      (s.writeGroupRow r).gate.remembered = s.gate.remembered := by
  rw [gate_writeGroupRow]
  split
  · exact ⟨rfl, rfl⟩
  · cases hr : r.disabled with
    | true => exact ⟨rfl, rfl⟩
    | false =>
      rw [Gate.setGroup, if_neg fun hkey => h ⟨hr, hkey⟩]
      exact ⟨rfl, rfl⟩

/-- If nothing is remembered, the row of a rule makes its flag explicit. -/
theorem mem_explicitRules_writeRuleRow {s : Steered S} (h : s.gate.remembered = ∅) {r : Row}
    {name : String} : name ∈ (s.writeRuleRow r).gate.explicitRules ↔
      if name = r.key then r.disabled = true else name ∈ s.gate.explicitRules := by
  rw [gate_writeRuleRow]
  split
  · rename_i hflag
    split
    · rename_i hname
      rw [hname, ← hflag, Gate.mem_explicitRules, h]
      simp
    · rfl
  · exact Gate.mem_explicitRules_setRule

/-- A row of a rule with the effective factor and summand edits at most the flag. -/
theorem adjustments_writeRuleRow {s : Steered S} {r : Row}
    (hf : (s.ruleRow r.key).factor = r.factor) (hs : (s.ruleRow r.key).summand = r.summand) :
    (s.writeRuleRow r).adjustments = s.adjustments := by
  rw [writeRuleRow, Row.changes, if_pos hf, if_pos hs]
  split
  · rfl
  · exact adjustments_set s ⟨.rule, r.key, .disabled r.disabled⟩

theorem rules_writeGroupRow (s : Steered S) (r : Row) :
    (s.writeGroupRow r).adjustments.rules = s.adjustments.rules := by
  have hall (a : Adjustments) (xs : List Setting) :
      ((xs.map (Override.mk .group r.key)).foldl Adjustments.set a).rules = a.rules := by
    induction xs generalizing a with
    | nil => rfl
    | cons x xs ih =>
      rw [List.map_cons, List.foldl_cons, ih]
      cases x <;> rfl
  rw [writeGroupRow, adjustments_setAll]
  exact hall s.adjustments _

/-- Settings are edited like a list of overrides. -/
theorem snapshot_setAll (s : Steered S) (scope : Scope) (name : String) (xs : List Setting) :
    (s.setAll scope name xs).snapshot = (s.putAll (xs.map (Override.mk scope name))).snapshot := by
  rw [snapshot, snapshot, adjustments_setAll, adjustments_putAll, gate_setAll, gate_putAll]

theorem get?_snapshot_setAll_of_ne (s : Steered S) {scope : Scope} {name : String}
    (xs : List Setting) {k : Key} (h : k.scope ≠ scope ∨ k.name ≠ name) :
    (s.setAll scope name xs).snapshot.get? k = s.snapshot.get? k := by
  rw [snapshot_setAll]
  refine get?_snapshot_putAll_of_ne s fun o ho hkey => ?_
  obtain ⟨x, -, rfl⟩ := List.mem_map.mp ho
  subst hkey
  rcases h with h | h <;> exact h rfl

/-- A row of a rule leaves the groups and the other rules alone. -/
theorem get?_snapshot_writeRuleRow_of_ne (s : Steered S) {r : Row} {k : Key}
    (h : k.scope ≠ .rule ∨ k.name ≠ r.key) :
    (s.writeRuleRow r).snapshot.get? k = s.snapshot.get? k :=
  get?_snapshot_setAll_of_ne s _ h

/-- A row of a group leaves the rules and the other groups alone. -/
theorem get?_snapshot_writeGroupRow_of_ne (s : Steered S) {r : Row} {k : Key}
    (h : k.scope ≠ .group ∨ k.name ≠ r.key) :
    (s.writeGroupRow r).snapshot.get? k = s.snapshot.get? k :=
  get?_snapshot_setAll_of_ne s _ h

/-- The same edits leave the same settings under a key that held the same setting before. -/
theorem get?_snapshot_putAll_congr {s t : Steered S} {k : Key}
    (h : s.snapshot.get? k = t.snapshot.get? k) (os : List Override) :
    (s.putAll os).snapshot.get? k = (t.putAll os).snapshot.get? k := by
  induction os generalizing s t with
  | nil => exact h
  | cons o os ih =>
    refine ih ?_
    rw [get?_snapshot_put, get?_snapshot_put, h]

/-- The row of a group shows nothing but the settings of the group. -/
theorem groupRow_congr {s t : Steered S} {group : String}
    (h : ∀ f, s.snapshot.get? ⟨.group, group, f⟩ = t.snapshot.get? ⟨.group, group, f⟩) :
    s.groupRow group = t.groupRow group := by
  have hf : s.adjustments.groups.factors[group]? = t.adjustments.groups.factors[group]? :=
    Option.map_injective (fun m n h => by simpa using h) (h .factor)
  have hs : s.adjustments.groups.summands[group]? = t.adjustments.groups.summands[group]? :=
    Option.map_injective (fun m n h => by simpa using h) (h .summand)
  have hd : group ∈ s.gate.groups ↔ group ∈ t.gate.groups :=
    Snapshot.flag?_eq_flag?_iff.mp (h .disabled)
  simp only [groupRow, LinearTable.factor, LinearTable.summand,
    Std.ExtTreeMap.getD_eq_getD_getElem?, hf, hs, hd]

/-- What a row does to its group depends only on the settings of the group. -/
theorem get?_snapshot_writeGroupRow_congr {s t : Steered S} {r : Row}
    (h : ∀ f, s.snapshot.get? ⟨.group, r.key, f⟩ = t.snapshot.get? ⟨.group, r.key, f⟩) (f : Field) :
    (s.writeGroupRow r).snapshot.get? ⟨.group, r.key, f⟩ =
      (t.writeGroupRow r).snapshot.get? ⟨.group, r.key, f⟩ := by
  rw [writeGroupRow, writeGroupRow, snapshot_setAll, snapshot_setAll, groupRow_congr h]
  exact get?_snapshot_putAll_congr (h f) _

end Steered

end RuleSteering
