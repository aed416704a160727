import RuleSteering.Proofs.Gate.Sets
import RuleSteering.Proofs.Steered.Commit

/-!
# What a row that is written back changes

After a row has been written back, the row that is read is this row. What is explicitly set changes only
in the fields in which the row differed from what was in effect. Nothing else changes, except that the
row of a group that enables a disabled group enables the remembered rules with it
(`written_row_takes_effect`). So a row changes nothing exactly if it is the row that is read at that
moment, and rows that nobody edited can be written back in any order, as often as one likes
(`run_editorRows_eq_self_and_iff`).

* `Row.setting`, what a row shows in a field; `Row.mem_changes`, the fields in which two rows differ;
* `setting_groupRow`, `setting_ruleRow`, a row shows what is explicitly set and defaults for the rest,
  except that the flag of a rule is the effective one;
* `get?_snapshot_setAll_changes`, what becomes of the explicit settings;
* `mem_disabled_writeRuleRow`, `mem_disabled_writeGroupRow`, which rules are disabled afterwards;
* `ruleRow_writeRuleRow`, `groupRow_writeRuleRow`, `groupRow_writeGroupRow` and `ruleRow_writeGroupRow`,
  the rows that are read afterwards.
-/

namespace RuleSteering

open Override

/-! ### Rows as settings -/

/-- What is in effect where nothing is set. -/
def Override.Field.default : Field → Setting
  | .factor => .factor 1
  | .summand => .summand 0
  | .disabled => .disabled false

/-- What an edit leaves is in effect, be it as a setting or as the default. -/
theorem Override.Setting.getD_kept (x : Setting) : x.kept.getD x.field.default = x := by
  cases x with
  | factor n | summand n => rfl
  | disabled b => cases b <;> rfl

namespace Row

/-- What a row shows in a field. -/
def setting (r : Row) : Field → Setting
  | .factor => .factor r.factor
  | .summand => .summand r.summand
  | .disabled => .disabled r.disabled

@[simp] theorem field_setting (r : Row) (f : Field) : (r.setting f).field = f := by
  cases f <;> rfl

theorem ext_setting {r t : Row} (hkey : r.key = t.key) (h : ∀ f, r.setting f = t.setting f) :
    r = t := by
  obtain ⟨key, m, n, b⟩ := r
  obtain ⟨key', m', n', b'⟩ := t
  have hfactor : m = m' := Setting.factor.inj (h .factor)
  have hsummand : n = n' := Setting.summand.inj (h .summand)
  have hdisabled : b = b' := Setting.disabled.inj (h .disabled)
  exact (Row.mk.injEq ..).mpr ⟨hkey, hfactor, hsummand, hdisabled⟩

/-- The settings by which a row differs from another one are what it shows in the fields in which the
other one shows something else. -/
theorem mem_changes {old new : Row} {x : Setting} : x ∈ old.changes new ↔
    old.setting x.field ≠ new.setting x.field ∧ x = new.setting x.field := by
  have hsingle {p : Prop} [Decidable p] {y : Setting} :
      x ∈ (if p then [] else [y]) ↔ ¬ p ∧ x = y := by
    split <;> simp [*]
  simp only [changes, List.mem_append, hsingle]
  cases x <;> simp [setting]

end Row

/-! ### What a row shows -/

theorem LinearTable.getD_factor (t : LinearTable) (key : String) :
    (t.factors[key]?.map Setting.factor).getD (.factor 1) = .factor (t.factor key) := by
  rw [Option.getD_map, factor, Std.ExtTreeMap.getD_eq_getD_getElem?]

theorem LinearTable.getD_summand (t : LinearTable) (key : String) :
    (t.summands[key]?.map Setting.summand).getD (.summand 0) = .summand (t.summand key) := by
  rw [Option.getD_map, summand, Std.ExtTreeMap.getD_eq_getD_getElem?]

namespace Steered

variable {S : Type}

/-- The row of a group shows what is explicitly set, and defaults for the rest. -/
theorem setting_groupRow (s : Steered S) (group : String) (f : Field) :
    (s.groupRow group).setting f = (s.snapshot.get? ⟨.group, group, f⟩).getD f.default := by
  cases f with
  | factor => exact (s.adjustments.groups.getD_factor group).symm
  | summand => exact (s.adjustments.groups.getD_summand group).symm
  | disabled =>
    show Setting.disabled (decide _) = (Snapshot.flag? s.gate.groups group).getD (.disabled false)
    unfold Snapshot.flag?
    split <;> simp [*]

/-- So does the row of a rule, but for its flag, which remembered names show as well. -/
theorem setting_ruleRow (s : Steered S) (name : String) {f : Field} (hf : f ≠ .disabled) :
    (s.ruleRow name).setting f = (s.snapshot.get? ⟨.rule, name, f⟩).getD f.default := by
  cases f with
  | factor => exact (s.adjustments.rules.getD_factor name).symm
  | summand => exact (s.adjustments.rules.getD_summand name).symm
  | disabled => contradiction

/-! ### What is explicitly set after a row -/

/-- The settings by which a row differs from another one are set, and no others. -/
theorem get?_snapshot_setAll_changes (s : Steered S) (scope : Scope) (name : String) (old new : Row)
    (k : Key) : (s.setAll scope name (old.changes new)).snapshot.get? k =
      if k.scope = scope ∧ k.name = name ∧ old.setting k.field ≠ new.setting k.field
      then (new.setting k.field).kept else s.snapshot.get? k := by
  obtain ⟨scope', name', f⟩ := k
  rw [snapshot_setAll]
  split
  · rename_i h
    obtain ⟨rfl, rfl, hdiffers⟩ := h
    -- the field differs, so this is the one edit of the key
    have hmem : (⟨scope', name', new.setting f⟩ : Override) ∈
        (old.changes new).map (Override.mk scope' name') :=
      List.mem_map_of_mem (Row.mem_changes.mpr (by simpa using hdiffers))
    have hkey : Override.key ⟨scope', name', new.setting f⟩ = ⟨scope', name', f⟩ := by
      rw [key, Row.field_setting]
    have hset := get?_snapshot_putAll_of_mem s hmem fun p hp hpk => eq_of_key_of_setting hpk ?_
    · rwa [hkey] at hset
    · obtain ⟨x, hx, rfl⟩ := List.mem_map.mp hp
      rw [hkey] at hpk
      have hfield : x.field = f := congrArg Key.field hpk
      exact hfield ▸ (Row.mem_changes.mp hx).2
  · rename_i h
    refine get?_snapshot_putAll_of_ne s fun o ho hkey => h ?_
    obtain ⟨x, hx, rfl⟩ := List.mem_map.mp ho
    obtain ⟨rfl, rfl, rfl⟩ := (Key.mk.injEq ..).mp hkey
    exact ⟨rfl, rfl, (Row.mem_changes.mp hx).1⟩

/-- What a row shows is in effect after its settings have been set, if the other row shows what was in
effect before. -/
theorem getD_snapshot_setAll_changes {s : Steered S} {scope : Scope} {name : String} {old new : Row}
    {f : Field} (hold : old.setting f = (s.snapshot.get? ⟨scope, name, f⟩).getD f.default) :
    ((s.setAll scope name (old.changes new)).snapshot.get? ⟨scope, name, f⟩).getD f.default =
      new.setting f := by
  rw [get?_snapshot_setAll_changes]
  split
  · have hkept := (new.setting f).getD_kept
    rwa [Row.field_setting] at hkept
  · rename_i h
    rw [← hold]
    exact Classical.not_not.mp fun hdiffers => h ⟨rfl, rfl, hdiffers⟩

/-! ### Which rules are disabled after a row -/

theorem mem_disabled_writeRuleRow {s : Steered S} {r : Row} {n : String} :
    n ∈ (s.writeRuleRow r).gate.disabled ↔
      if n = r.key then r.disabled = true else n ∈ s.gate.disabled := by
  rw [gate_writeRuleRow]
  split
  · rename_i hflag
    split
    · rename_i hn
      rw [hn, ← hflag, decide_eq_true_eq]
    · rfl
  · exact Gate.mem_disabled_setRule

theorem mem_disabled_writeGroupRow {s : Steered S} {r : Row} {n : String} :
    n ∈ (s.writeGroupRow r).gate.disabled ↔ n ∈ s.gate.disabled ∧
      ¬ (r.disabled = false ∧ r.key ∈ s.gate.groups ∧ n ∈ s.gate.remembered) := by
  rw [gate_writeGroupRow]
  split
  · rename_i hflag
    refine (and_iff_left ?_).symm
    rintro ⟨hr, hkey, -⟩
    rw [hr, decide_eq_false_iff_not] at hflag
    exact hflag hkey
  · rw [Gate.mem_disabled_setGroup, and_rotate]

/-! ### The rows that are read after a row -/

/-- The row of a rule is what the explicit settings and the effective flag say. -/
theorem ruleRow_eq {s : Steered S} {name : String} {r : Row} (hkey : r.key = name)
    (hset : ∀ f, f ≠ .disabled →
      r.setting f = (s.snapshot.get? ⟨.rule, name, f⟩).getD f.default)
    (hflag : r.disabled = decide (name ∈ s.gate.disabled)) : s.ruleRow name = r := by
  refine Row.ext_setting hkey.symm fun f => ?_
  by_cases hf : f = .disabled
  · rw [hf]
    exact congrArg Setting.disabled hflag.symm
  · rw [setting_ruleRow s name hf, hset f hf]

theorem ruleRow_writeRuleRow (s : Steered S) (r : Row) (n : String) :
    (s.writeRuleRow r).ruleRow n = if n = r.key then r else s.ruleRow n := by
  split
  · rename_i hn
    subst hn
    refine ruleRow_eq rfl (fun f hf => ?_) ?_
    · exact (getD_snapshot_setAll_changes (setting_ruleRow s r.key hf)).symm
    · simp [mem_disabled_writeRuleRow]
  · rename_i hn
    refine ruleRow_eq rfl (fun f hf => ?_) ?_
    · rw [get?_snapshot_writeRuleRow_of_ne s (.inr hn), setting_ruleRow s n hf]
    · simp [mem_disabled_writeRuleRow, hn, ruleRow]

theorem groupRow_writeRuleRow (s : Steered S) (r : Row) (group : String) :
    (s.writeRuleRow r).groupRow group = s.groupRow group :=
  groupRow_congr fun _ => get?_snapshot_writeRuleRow_of_ne s (.inl (show Scope.group ≠ .rule by decide))

theorem groupRow_writeGroupRow (s : Steered S) (r : Row) (group : String) :
    (s.writeGroupRow r).groupRow group = if group = r.key then r else s.groupRow group := by
  split
  · rename_i hgroup
    subst hgroup
    refine Row.ext_setting rfl fun f => ?_
    rw [setting_groupRow]
    exact getD_snapshot_setAll_changes (setting_groupRow s r.key f)
  · rename_i hgroup
    exact groupRow_congr fun _ => get?_snapshot_writeGroupRow_of_ne s (.inr hgroup)

/-- The row of a group changes nothing about a rule but the flag of a remembered name. -/
theorem ruleRow_writeGroupRow (s : Steered S) (r : Row) (n : String) :
    (s.writeGroupRow r).ruleRow n =
      if r.disabled = false ∧ r.key ∈ s.gate.groups ∧ n ∈ s.gate.remembered
      then { s.ruleRow n with disabled := false } else s.ruleRow n := by
  have hset (f : Field) (hf : f ≠ .disabled) : (s.ruleRow n).setting f =
      ((s.writeGroupRow r).snapshot.get? ⟨.rule, n, f⟩).getD f.default := by
    rw [get?_snapshot_writeGroupRow_of_ne s (.inl (show Scope.rule ≠ .group by decide)), setting_ruleRow s n hf]
  split
  · rename_i henables
    refine ruleRow_eq rfl (fun f hf => ?_) ?_
    · rw [← hset f hf]
      cases f with
      | factor | summand => rfl
      | disabled => contradiction
    · simp [mem_disabled_writeGroupRow, henables]
  · rename_i henables
    refine ruleRow_eq rfl hset ?_
    simp [mem_disabled_writeGroupRow, henables, ruleRow]

/-! ### Edited rows and rows that nobody edited -/

variable {C : Type} [Strategy S C]

/-- After the row of a rule has been written this is the row that is read. The rows of all other rules
and of all groups are what they were, and so are the disabled groups. The explicit settings are the
same, but for those of the fields of this rule in which the row differed from what was in effect.

After the row of a group has been written this is the row that is read, and the rows of all other
groups and the explicit settings of all rules are what they were. So are the rows of all rules, unless
the row enables a group that was disabled. Then exactly the remembered names, of which no edit has
disabled any, are enabled with it. -/
theorem written_row_takes_effect (base : S) (acts : List Action) (r : Row) :
    let s := (wrap base).run acts
    let t := s.writeRuleRow r
    let u := s.writeGroupRow r
    ((∀ n, t.ruleRow n = if n = r.key then r else s.ruleRow n) ∧
      (∀ group, t.groupRow group = s.groupRow group) ∧
      t.gate.groups = s.gate.groups ∧
      ∀ k, t.snapshot.get? k =
        if k.scope = .rule ∧ k.name = r.key ∧ (s.ruleRow r.key).setting k.field ≠ r.setting k.field
        then (r.setting k.field).kept else s.snapshot.get? k) ∧
    ((∀ group, u.groupRow group = if group = r.key then r else s.groupRow group) ∧
      (∀ k, u.snapshot.get? k =
        if k.scope = .group ∧ k.name = r.key ∧ (s.groupRow r.key).setting k.field ≠ r.setting k.field
        then (r.setting k.field).kept else s.snapshot.get? k) ∧
      (∀ n, u.ruleRow n = if r.disabled = false ∧ r.key ∈ s.gate.groups ∧ n ∈ s.gate.remembered
        then { s.ruleRow n with disabled := false } else s.ruleRow n) ∧
      ∀ n, (s.ruleRow n).disabled = true ∧ (u.ruleRow n).disabled = false ↔
        (r.disabled = false ∧ r.key ∈ s.gate.groups) ∧ n ∈ s.gate.remembered ∧
          n ∉ s.gate.explicitRules) := by
  intro s t u
  have hwell : s.gate.WellFormed :=
    (Gate.WellFormed.kept fun _ => True).gate_run Gate.wellFormed_empty
      fun a _ => by cases a <;> trivial
  refine ⟨⟨s.ruleRow_writeRuleRow r, s.groupRow_writeRuleRow r, ?_,
      get?_snapshot_setAll_changes s .rule r.key _ r⟩,
    s.groupRow_writeGroupRow r, get?_snapshot_setAll_changes s .group r.key _ r,
    s.ruleRow_writeGroupRow r, fun n => ?_⟩
  · show (s.writeRuleRow r).gate.groups = s.gate.groups
    rw [gate_writeRuleRow]
    split
    · rfl
    · exact Gate.groups_setRule s.gate r.key r.disabled
  · have hbefore : (s.ruleRow n).disabled = true ↔ n ∈ s.gate.disabled := decide_eq_true_iff
    have hafter : (u.ruleRow n).disabled = false ↔ n ∉ (s.writeGroupRow r).gate.disabled :=
      decide_eq_false_iff_not
    rw [hbefore, hafter, mem_disabled_writeGroupRow, Gate.mem_explicitRules, not_and, Classical.not_not]
    constructor
    · rintro ⟨hn, hnot⟩
      obtain ⟨hr, hkey, hremembered⟩ := hnot hn
      exact ⟨⟨hr, hkey⟩, hremembered, fun h => h.2 hremembered⟩
    · rintro ⟨⟨hr, hkey⟩, hremembered, -⟩
      exact ⟨hwell n hremembered, fun _ => ⟨hr, hkey, hremembered⟩⟩

/-- If a row is read after it has been written, and nothing changes when the row is written that is read
already, then nothing changes exactly if the row is that one. -/
theorem write_eq_self_iff {read : Steered S → String → Row} {write : Steered S → Row → Steered S}
    {s : Steered S} {r : Row} (hread : read (write s r) r.key = r)
    (hself : write s (read s r.key) = s) : write s r = s ↔ r = read s r.key := by
  constructor
  · intro h
    rw [h] at hread
    exact hread.symm
  · intro h
    rwa [← h] at hself

theorem step_eq_self_of_mem_editorRows {s : Steered S} {names groups : List String} {a : Action}
    (ha : a ∈ s.editorRows names (groups.map s.groupRow)) : s.step a = s := by
  rcases List.mem_append.mp ha with ha | ha
  · obtain ⟨name, -, rfl⟩ := List.mem_map.mp ha
    exact s.writeRuleRow_ruleRow name
  · obtain ⟨r, hr, rfl⟩ := List.mem_map.mp ha
    obtain ⟨group, -, rfl⟩ := List.mem_map.mp hr
    exact s.writeGroupRow_groupRow group

/-- Rows that were read of a strategy and that nobody edited can be written back in any order, and each
of them as often as one likes: the strategy stays as it is, with everything that is remembered and
whether it is configured or not. A row that differs from the one that is read changes it. -/
theorem run_editorRows_eq_self_and_iff {s : Steered S} {names groups : List String}
    {ws : List Action} (hws : ∀ a ∈ ws, a ∈ s.editorRows names (groups.map s.groupRow)) :
    s.run ws = s ∧
      (∀ r, s.writeRuleRow r = s ↔ r = s.ruleRow r.key) ∧
      ∀ r, s.writeGroupRow r = s ↔ r = s.groupRow r.key := by
  have hrun : s.run ws = s := by
    induction ws with
    | nil => rfl
    | cons a ws ih =>
      rw [run_cons, step_eq_self_of_mem_editorRows (hws a List.mem_cons_self)]
      exact ih fun x hx => hws x (List.mem_cons_of_mem a hx)
  refine ⟨hrun, fun r => write_eq_self_iff ?_ (s.writeRuleRow_ruleRow r.key),
    fun r => write_eq_self_iff ?_ (s.writeGroupRow_groupRow r.key)⟩
  · exact (s.ruleRow_writeRuleRow r r.key).trans (if_pos rfl)
  · exact (s.groupRow_writeGroupRow r r.key).trans (if_pos rfl)

/-- A remembered name stays remembered and a default that is explicitly set stays set, when their rows
are written back twice and between those of groups. -/
theorem run_editorRows_eq_self_of_remembered :
    let s := (wrap (⟨.top⟩ : Indifferent Cost)).run [.set ⟨.group, "alpha", .disabled true⟩,
      .set ⟨.rule, "cut", .factor 1⟩, .offer ⟨"andLeft", some ["alpha"]⟩]
    let ws : List Action := [.writeRuleRow (s.ruleRow "andLeft"), .writeGroupRow (s.groupRow "alpha"),
      .writeRuleRow (s.ruleRow "cut"), .writeGroupRow (s.groupRow "beta"),
      .writeRuleRow (s.ruleRow "andLeft"), .writeRuleRow (s.ruleRow "cut")]
    (∀ a ∈ ws, a ∈ s.editorRows ["andLeft", "cut"] (["beta", "alpha"].map s.groupRow)) ∧
      s.run ws = s ∧ "andLeft" ∈ s.gate.remembered ∧
      s.adjustments.rules.factors.toList = [("cut", 1)] := by
  intro s ws
  have hws : ∀ a ∈ ws, a ∈ s.editorRows ["andLeft", "cut"] (["beta", "alpha"].map s.groupRow) := by
    simp [ws, editorRows]
  exact ⟨hws, (run_editorRows_eq_self_and_iff hws).1, by decide, by decide +kernel⟩

end Steered

end RuleSteering
