import RuleSteering.Proofs.Steered.History

/-!
# A snapshot as a map of overrides

What a snapshot holds is a setting for each of some keys, and nothing else about it matters.

* `Snapshot.get?`, the setting under a key; `Snapshot.ext_get?`, snapshots are equal if they hold
  the same settings; `Snapshot.mem_overrides`, they are the overrides that it lists;
* `Setting.kept`, what an edit leaves under its key: a disabled flag that is false leaves nothing;
* `get?_snapshot_put`, an edit sets its own key and no other; `get?_snapshot_putAll_cons`, after a
  list of edits a key holds what the last edit about it leaves;
* `get?_snapshot_putAll_of_mem_iff`, the overrides of a snapshot lie on top of what was held before,
  in any order (`get?_snapshot_restore`, in its own); on a fresh strategy they restore the snapshot
  (`snapshot_putAll_of_mem_iff`, `snapshot_restore_wrap`);
* `eq_of_parts`, strategies with the same parts are equal.
-/

namespace RuleSteering

namespace Override

theorem eq_of_key_of_setting {o p : Override} (hkey : o.key = p.key)
    (hset : o.setting = p.setting) : o = p := by
  obtain ⟨scope, name, x⟩ := o
  obtain ⟨scope', name', y⟩ := p
  simp only [key, Key.mk.injEq] at hkey hset
  rw [hkey.1, hkey.2.1, hset]

/-- What is left of a setting under its key: an enabled rule or group is not listed at all. -/
def Setting.kept : Setting → Option Setting
  | .disabled false => none
  | x => some x

/-- Every setting is left as it is, except a disabled flag that is false. -/
theorem Setting.kept_eq_some_iff {x y : Setting} :
    x.kept = some y ↔ x = y ∧ y ≠ .disabled false := by
  unfold kept
  split
  · simp only [reduceCtorEq, false_iff, not_and]
    exact fun hy hne => hne hy.symm
  · rename_i hne
    simp only [Option.some.injEq, iff_self_and]
    rintro rfl
    exact hne

theorem mem_disabling {scope : Scope} {names : Std.ExtTreeSet String} {o : Override} :
    o ∈ disabling scope names ↔ o.scope = scope ∧ o.setting = .disabled true ∧ o.name ∈ names := by
  simp only [disabling, List.mem_map, Std.ExtTreeSet.mem_toList]
  constructor
  · rintro ⟨name, hn, rfl⟩
    exact ⟨rfl, rfl, hn⟩
  · rintro ⟨hscope, hset, hn⟩
    exact ⟨o.name, hn, by rw [← hscope, ← hset]⟩

end Override

open Override

theorem LinearTable.mem_overrides {t : LinearTable} {scope : Scope} {o : Override} :
    o ∈ t.overrides scope ↔ o.scope = scope ∧
      ((∃ n, o.setting = .factor n ∧ t.factors[o.name]? = some n) ∨
        ∃ n, o.setting = .summand n ∧ t.summands[o.name]? = some n) := by
  simp only [overrides, List.mem_append, List.mem_map, Prod.exists,
    Std.ExtTreeMap.mem_toList_iff_getElem?_eq_some]
  constructor
  · rintro (⟨name, n, hn, rfl⟩ | ⟨name, n, hn, rfl⟩)
    · exact ⟨rfl, .inl ⟨n, rfl, hn⟩⟩
    · exact ⟨rfl, .inr ⟨n, rfl, hn⟩⟩
  · rintro ⟨hscope, ⟨n, hset, hn⟩ | ⟨n, hset, hn⟩⟩
    · exact .inl ⟨o.name, n, hn, by rw [← hscope, ← hset]⟩
    · exact .inr ⟨o.name, n, hn, by rw [← hscope, ← hset]⟩

namespace Snapshot

/-- The table of a scope. -/
def table (sn : Snapshot) : Scope → LinearTable
  | .group => sn.adjustments.groups
  | .rule => sn.adjustments.rules

/-- The disabled names of a scope. -/
def disabled (sn : Snapshot) : Scope → Std.ExtTreeSet String
  | .group => sn.disabledGroups
  | .rule => sn.disabledRules

/-- The flag of a name, which only a set of disabled names holds. -/
def flag? (names : Std.ExtTreeSet String) (name : String) : Option Setting :=
  if name ∈ names then some (.disabled true) else none

theorem flag?_eq_some_iff {names : Std.ExtTreeSet String} {name : String} {x : Setting} :
    flag? names name = some x ↔ x = .disabled true ∧ name ∈ names := by
  unfold flag?
  split <;> simp [*, eq_comm]

theorem flag?_eq_flag?_iff {names names' : Std.ExtTreeSet String} {name : String} :
    flag? names name = flag? names' name ↔ (name ∈ names ↔ name ∈ names') := by
  unfold flag?
  split <;> split <;> simp [*]

/-- The setting under a key. -/
def get? (sn : Snapshot) (k : Key) : Option Setting :=
  match k.field with
  | .factor => (sn.table k.scope).factors[k.name]?.map .factor
  | .summand => (sn.table k.scope).summands[k.name]?.map .summand
  | .disabled => flag? (sn.disabled k.scope) k.name

@[simp] theorem get?_empty (k : Key) : (∅ : Snapshot).get? k = none := by
  obtain ⟨scope, name, field⟩ := k
  have htable : (∅ : Snapshot).table scope = ∅ := by cases scope <;> rfl
  have hdisabled : (∅ : Snapshot).disabled scope = ∅ := by cases scope <;> rfl
  have hempty : (∅ : LinearTable).factors = ∅ ∧ (∅ : LinearTable).summands = ∅ := ⟨rfl, rfl⟩
  cases field <;> simp [get?, flag?, htable, hdisabled, hempty]

/-- What a key holds is a setting of its field. -/
theorem field_of_get? {sn : Snapshot} {k : Key} {x : Setting} (h : sn.get? k = some x) :
    x.field = k.field := by
  unfold get? at h
  split at h
  · obtain ⟨n, -, rfl⟩ := Option.map_eq_some_iff.mp h
    simp [*]
  · obtain ⟨n, -, rfl⟩ := Option.map_eq_some_iff.mp h
    simp [*]
  · rw [(flag?_eq_some_iff.mp h).1]
    simp [*]

/-- A setting makes an override with the key that holds it. -/
theorem key_of_get? {sn : Snapshot} {k : Key} {x : Setting} (h : sn.get? k = some x) :
    Override.key ⟨k.scope, k.name, x⟩ = k := by
  rw [key, field_of_get? h]

/-- What a key holds is kept if it is set again. -/
theorem kept_of_get? {sn : Snapshot} {k : Key} {x : Setting} (h : sn.get? k = some x) :
    x.kept = some x := by
  unfold get? at h
  split at h
  · obtain ⟨n, -, rfl⟩ := Option.map_eq_some_iff.mp h
    rfl
  · obtain ⟨n, -, rfl⟩ := Option.map_eq_some_iff.mp h
    rfl
  · rw [(flag?_eq_some_iff.mp h).1]
    rfl

/-- Snapshots with the same settings are equal. -/
theorem ext_get? {a b : Snapshot} (h : ∀ k, a.get? k = b.get? k) : a = b := by
  have htable (scope : Scope) : a.table scope = b.table scope := by
    have hf : (a.table scope).factors = (b.table scope).factors :=
      Std.ExtTreeMap.ext_getElem? fun name =>
        Option.map_injective (fun m n h => by simpa using h) (h ⟨scope, name, .factor⟩)
    have hs : (a.table scope).summands = (b.table scope).summands :=
      Std.ExtTreeMap.ext_getElem? fun name =>
        Option.map_injective (fun m n h => by simpa using h) (h ⟨scope, name, .summand⟩)
    exact (LinearTable.mk.injEq ..).mpr ⟨hf, hs⟩
  have hdisabled (scope : Scope) : a.disabled scope = b.disabled scope :=
    Std.ExtTreeSet.ext_mem fun name => flag?_eq_flag?_iff.mp (h ⟨scope, name, .disabled⟩)
  obtain ⟨⟨ag, ar⟩, adr, adg⟩ := a
  obtain ⟨⟨bg, br⟩, bdr, bdg⟩ := b
  have h₁ : ag = bg := htable .group
  have h₂ : ar = br := htable .rule
  have h₃ : adr = bdr := hdisabled .rule
  have h₄ : adg = bdg := hdisabled .group
  rw [h₁, h₂, h₃, h₄]

/-- The overrides of a snapshot are the settings that it holds. -/
theorem mem_overrides {sn : Snapshot} {o : Override} :
    o ∈ sn.overrides ↔ sn.get? o.key = some o.setting := by
  obtain ⟨scope, name, x⟩ := o
  simp only [overrides, List.mem_append, LinearTable.mem_overrides, mem_disabling, get?, key]
  cases x with
  | factor n => cases scope <;> simp [table]
  | summand n => cases scope <;> simp [table]
  | disabled b => cases scope <;> simp [disabled, flag?_eq_some_iff]

end Snapshot

namespace Steered

variable {S : Type}

/-! ### Edits -/

/-- The key of an edit holds what the edit leaves. -/
theorem get?_snapshot_put_self (s : Steered S) (o : Override) :
    (s.put o).snapshot.get? o.key = o.setting.kept := by
  obtain ⟨scope, name, x⟩ := o
  cases x with
  | factor n =>
    have hself (t : LinearTable) : (t.setFactor name n).factors[name]?.map Setting.factor =
        some (.factor n) := by simp
    cases scope <;> exact hself _
  | summand n =>
    have hself (t : LinearTable) : (t.setSummand name n).summands[name]?.map Setting.summand =
        some (.summand n) := by simp
    cases scope <;> exact hself _
  | disabled b =>
    cases scope with
    | rule =>
      show Snapshot.flag? (s.gate.setRule name b).explicitRules name = _
      cases b <;> simp [Snapshot.flag?, Gate.mem_explicitRules_setRule, Setting.kept]
    | group =>
      show Snapshot.flag? (s.gate.setGroup name b).groups name = _
      cases b <;> simp [Snapshot.flag?, Gate.mem_groups_setGroup, Setting.kept]

/-- An edit leaves every other key alone. -/
theorem get?_snapshot_put_of_ne (s : Steered S) {o : Override} {k : Key} (h : k ≠ o.key) :
    (s.put o).snapshot.get? k = s.snapshot.get? k := by
  obtain ⟨scope, name, x⟩ := o
  obtain ⟨scope', name', field⟩ := k
  by_cases hplace : scope' = scope ∧ field = x.field
  · obtain ⟨rfl, rfl⟩ := hplace
    have hname : name' ≠ name := by
      rintro rfl
      exact h rfl
    cases x with
    | factor n =>
      have hother (t : LinearTable) : (t.setFactor name n).factors[name']?.map Setting.factor =
          t.factors[name']?.map Setting.factor := by simp [Std.ExtTreeMap.getElem?_insert, hname.symm]
      cases scope' <;> exact hother _
    | summand n =>
      have hother (t : LinearTable) : (t.setSummand name n).summands[name']?.map Setting.summand =
          t.summands[name']?.map Setting.summand := by
        simp [Std.ExtTreeMap.getElem?_insert, hname.symm]
      cases scope' <;> exact hother _
    | disabled b =>
      cases scope' with
      | rule =>
        refine Snapshot.flag?_eq_flag?_iff.mpr ?_
        show name' ∈ (s.gate.setRule name b).explicitRules ↔ _
        rw [Gate.mem_explicitRules_setRule, if_neg hname]
        rfl
      | group =>
        refine Snapshot.flag?_eq_flag?_iff.mpr ?_
        show name' ∈ (s.gate.setGroup name b).groups ↔ _
        rw [Gate.mem_groups_setGroup, if_neg hname]
        rfl
  · -- an edit of another field or scope changes another part of the snapshot
    cases x <;> cases scope <;> cases scope' <;> cases field <;>
      first
        | rfl
        | exact absurd ⟨rfl, rfl⟩ hplace
        | simp [Snapshot.get?, Snapshot.disabled, snapshot, Gate.set, Gate.set?]

theorem get?_snapshot_put (s : Steered S) (o : Override) (k : Key) :
    (s.put o).snapshot.get? k = if k = o.key then o.setting.kept else s.snapshot.get? k := by
  split
  · rename_i hk
    rw [hk, get?_snapshot_put_self]
  · rename_i hk
    exact get?_snapshot_put_of_ne s hk

/-- A key that none of the edits is about holds what it held before. -/
theorem get?_snapshot_putAll_of_ne (s : Steered S) {os : List Override} {k : Key}
    (h : ∀ o ∈ os, o.key ≠ k) : (s.putAll os).snapshot.get? k = s.snapshot.get? k := by
  induction os generalizing s with
  | nil => rfl
  | cons o os ih =>
    rw [putAll_cons, ih _ fun p hp => h p (List.mem_cons_of_mem _ hp),
      get?_snapshot_put_of_ne s (h o List.mem_cons_self).symm]

/-- Any other key holds what the last edit about it leaves. -/
theorem get?_snapshot_putAll_cons (s : Steered S) {o : Override} {os : List Override}
    (h : ∀ p ∈ os, p.key ≠ o.key) : (s.putAll (o :: os)).snapshot.get? o.key = o.setting.kept := by
  rw [putAll_cons, get?_snapshot_putAll_of_ne _ h, get?_snapshot_put_self]

/-- If all edits about a key are the same, it holds what this edit leaves. -/
theorem get?_snapshot_putAll_of_mem (s : Steered S) {os : List Override} {o : Override}
    (ho : o ∈ os) (h : ∀ p ∈ os, p.key = o.key → p = o) :
    (s.putAll os).snapshot.get? o.key = o.setting.kept := by
  induction os generalizing s with
  | nil => contradiction
  | cons p os ih =>
    have htail : ∀ q ∈ os, q.key = o.key → q = o := fun q hq => h q (List.mem_cons_of_mem _ hq)
    by_cases hos : o ∈ os
    · exact ih (s.put p) hos htail
    · have hp : o = p := (List.mem_cons.mp ho).resolve_right hos
      subst hp
      refine get?_snapshot_putAll_cons s fun q hq hkey => hos ?_
      rwa [← htail q hq hkey]

/-- No override is invented: one that is held after a list of edits was held before or is one of
them. -/
theorem mem_or_get?_of_get?_snapshot_putAll {s : Steered S} {os : List Override} {o : Override}
    (h : (s.putAll os).snapshot.get? o.key = some o.setting) :
    o ∈ os ∨ s.snapshot.get? o.key = some o.setting := by
  induction os generalizing s with
  | nil => exact .inr h
  | cons p os ih =>
    rcases ih h with ho | ho
    · exact .inl (List.mem_cons_of_mem _ ho)
    · -- none of the later edits is the override, so the first one is if it is about the same key
      by_cases hkey : o.key = p.key
      · rw [hkey, get?_snapshot_put_self] at ho
        have hset : p.setting = o.setting := (Setting.kept_eq_some_iff.mp ho).1
        have hop : o = p := eq_of_key_of_setting hkey hset.symm
        exact .inl (hop ▸ List.mem_cons_self)
      · rw [get?_snapshot_put_of_ne s hkey] at ho
        exact .inr ho

/-- The overrides of a snapshot, in whatever order and however often they are handed over, lie on top
of what was held before. -/
theorem get?_snapshot_putAll_of_mem_iff (s : Steered S) {os : List Override} {sn : Snapshot}
    (h : ∀ o, o ∈ os ↔ sn.get? o.key = some o.setting) (k : Key) :
    (s.putAll os).snapshot.get? k = (sn.get? k).or (s.snapshot.get? k) := by
  cases hk : sn.get? k with
  | none =>
    -- no edit is about a key that the snapshot does not hold
    have hfresh : ∀ o ∈ os, o.key ≠ k := by
      rintro o ho rfl
      rw [(h o).mp ho] at hk
      contradiction
    rw [get?_snapshot_putAll_of_ne _ hfresh, Option.none_or]
  | some x =>
    have hkey := Snapshot.key_of_get? hk
    have hmem : (⟨k.scope, k.name, x⟩ : Override) ∈ os := by
      rw [h, hkey]
      exact hk
    have hunique : ∀ p ∈ os, p.key = Override.key ⟨k.scope, k.name, x⟩ →
        p = ⟨k.scope, k.name, x⟩ := by
      intro p hp hpk
      refine eq_of_key_of_setting hpk ?_
      have hset := (h p).mp hp
      rw [hpk, hkey, hk] at hset
      exact (Option.some.inj hset).symm
    have hget := get?_snapshot_putAll_of_mem s hmem hunique
    rw [hkey] at hget
    rw [hget, Option.some_or]
    exact Snapshot.kept_of_get? hk

/-- Where nothing was held before, this restores the snapshot. -/
theorem snapshot_putAll_of_mem_iff {s : Steered S} (hs : s.snapshot = ∅) {os : List Override}
    {sn : Snapshot} (h : ∀ o, o ∈ os ↔ sn.get? o.key = some o.setting) :
    (s.putAll os).snapshot = sn := by
  refine Snapshot.ext_get? fun k => ?_
  rw [get?_snapshot_putAll_of_mem_iff s h, hs, Snapshot.get?_empty, Option.or_none]

/-- After a snapshot has been restored a key holds what the snapshot holds, and what it held before
if the snapshot holds nothing. -/
theorem get?_snapshot_restore (s : Steered S) (sn : Snapshot) (k : Key) :
    (s.restore sn).snapshot.get? k = (sn.get? k).or (s.snapshot.get? k) :=
  get?_snapshot_putAll_of_mem_iff { s with configured := true } (fun _ => Snapshot.mem_overrides) k

/-- Restoring a snapshot on a fresh strategy overrides exactly what the snapshot holds. -/
theorem snapshot_restore_wrap (base : S) (sn : Snapshot) :
    ((wrap base).restore sn).snapshot = sn :=
  snapshot_putAll_of_mem_iff (s := { wrap base with configured := true }) rfl
    fun _ => Snapshot.mem_overrides

/-- Strategies with the same parts are equal. Of the adjustments it is enough that the snapshots
are. -/
theorem eq_of_parts {s t : Steered S} (hbase : s.base = t.base) (hgate : s.gate = t.gate)
    (hsnapshot : s.snapshot = t.snapshot) (hconfigured : s.configured = t.configured) : s = t := by
  have hadjustments : s.adjustments = t.adjustments := congrArg Snapshot.adjustments hsnapshot
  obtain ⟨base, gate, adjustments, configured⟩ := s
  obtain ⟨base', gate', adjustments', configured'⟩ := t
  rw [Steered.mk.injEq]
  exact ⟨hbase, hgate, hadjustments, hconfigured⟩

end Steered

end RuleSteering
