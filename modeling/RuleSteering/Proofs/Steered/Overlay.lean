import RuleSteering.Proofs.Steered.LoadOrder
import RuleSteering.Proofs.Steered.Stored

/-!
# A snapshot on top of what is overridden

To restore a snapshot is to lay it over what is overridden already: of two values under one key the
one of the snapshot counts, and no other override is lost (`restore_overlays`).

* `Snapshot.overlay`, one snapshot over another one; `snapshot_restore`, what is overridden after a
  snapshot has been restored;
* `disabled_restore`, `remembered_restore`, a remembered name that the snapshot disables becomes
  explicit, and the other remembered names stay;
* `load_of_perm_toProperties`, the pairs of a snapshot, in any order, are loaded as the snapshot is
  restored;
* `put_eq_self`, `putAll_eq_self`, overrides that are held already change nothing, not even what is
  remembered.
-/

namespace RuleSteering

open Override

/-! ### Snapshots over each other -/

/-- A table over another one; of two entries under one key the upper one counts. -/
def LinearTable.overlay (lower upper : LinearTable) : LinearTable :=
  ⟨lower.factors ∪ upper.factors, lower.summands ∪ upper.summands⟩

namespace Snapshot

/-- A snapshot over another one: tables over tables, and all the names that either one disables. -/
def overlay (lower upper : Snapshot) : Snapshot where
  adjustments :=
    ⟨lower.adjustments.groups.overlay upper.adjustments.groups,
      lower.adjustments.rules.overlay upper.adjustments.rules⟩
  disabledRules := lower.disabledRules ∪ upper.disabledRules
  disabledGroups := lower.disabledGroups ∪ upper.disabledGroups

theorem get?_overlay (lower upper : Snapshot) (k : Key) :
    (lower.overlay upper).get? k = (upper.get? k).or (lower.get? k) := by
  obtain ⟨scope, name, field⟩ := k
  have htable : (lower.overlay upper).table scope =
      (lower.table scope).overlay (upper.table scope) := by cases scope <;> rfl
  have hdisabled : (lower.overlay upper).disabled scope =
      lower.disabled scope ∪ upper.disabled scope := by cases scope <;> rfl
  cases field with
  | factor => simp [get?, htable, LinearTable.overlay, Std.ExtTreeMap.getElem?_union, Option.map_or]
  | summand => simp [get?, htable, LinearTable.overlay, Std.ExtTreeMap.getElem?_union, Option.map_or]
  | disabled =>
    by_cases hname : name ∈ upper.disabled scope <;>
      simp [get?, hdisabled, flag?, hname]

/-- A snapshot lists no flag that is false. -/
theorem setting_ne_of_mem_overrides {sn : Snapshot} {o : Override} (ho : o ∈ sn.overrides) :
    o.setting ≠ .disabled false :=
  (Setting.kept_eq_some_iff.mp (kept_of_get? (mem_overrides.mp ho))).2

theorem mem_overrides_disabled_iff {sn : Snapshot} {name : String} :
    (⟨.rule, name, .disabled true⟩ : Override) ∈ sn.overrides ↔ name ∈ sn.disabledRules := by
  rw [mem_overrides]
  exact flag?_eq_some_iff.trans (and_iff_right rfl)

end Snapshot

namespace Steered

variable {S : Type}

/-! ### Restoring a snapshot -/

theorem snapshot_restore (s : Steered S) (sn : Snapshot) :
    (s.restore sn).snapshot = s.snapshot.overlay sn := by
  refine Snapshot.ext_get? fun k => ?_
  rw [get?_snapshot_restore, Snapshot.get?_overlay]

theorem disabled_restore (s : Steered S) (sn : Snapshot) :
    (s.restore sn).gate.disabled = s.gate.disabled ∪ sn.disabledRules := by
  refine Std.ExtTreeSet.ext_mem fun name => ?_
  rw [restore, gate_putAll,
    Gate.mem_disabled_foldl_set fun o => Snapshot.setting_ne_of_mem_overrides,
    Snapshot.mem_overrides_disabled_iff, Std.ExtTreeSet.mem_union_iff]

theorem remembered_restore (s : Steered S) (sn : Snapshot) :
    (s.restore sn).gate.remembered = s.gate.remembered \ sn.disabledRules := by
  refine Std.ExtTreeSet.ext_mem fun name => ?_
  rw [restore, gate_putAll,
    Gate.mem_remembered_foldl_set fun o => Snapshot.setting_ne_of_mem_overrides,
    Snapshot.mem_overrides_disabled_iff, Std.ExtTreeSet.mem_diff_iff]

/-- The pairs of a snapshot, in any order, are loaded as its overrides with a name are restored. -/
theorem load_of_perm_toProperties (s : Steered S) {sn : Snapshot} {pairs : List (String × String)}
    (h : pairs.Perm sn.toProperties.toList) : (s.load pairs).2 = s.restore sn.named := by
  have hkeys : (pairs.map Prod.fst).Nodup :=
    (h.map _).nodup_iff.mpr (Properties.nodup_keys_toList _)
  have hread : (pairs.filterMap ofPair?).Perm sn.named.overrides := by
    refine (List.perm_ext_iff_of_nodup (nodup_filterMap_ofPair? hkeys)
      (Snapshot.nodup_overrides _)).mpr fun o => ?_
    rw [(h.filterMap ofPair?).mem_iff, Snapshot.mem_filterMap_toProperties]
  exact putAll_eq_of_perm _ hread fun o ho p hp => ofPair?_inj_on hkeys ho hp

/-! ### Overrides that are held already -/

/-- To hand over an override again that is held already changes nothing. -/
theorem put_eq_self {s : Steered S} {o : Override} (h : s.snapshot.get? o.key = some o.setting) :
    s.put o = s := by
  have hgate : s.gate.set o = s.gate := by
    obtain ⟨scope, name, x⟩ := o
    cases x with
    | factor n | summand n => cases scope <;> rfl
    | disabled b =>
      obtain ⟨hb, hname⟩ := Snapshot.flag?_eq_some_iff.mp h
      obtain rfl := Setting.disabled.inj hb
      cases scope with
      | rule => exact Gate.setRule_eq_self hname
      | group => exact Gate.setGroup_eq_self hname
  refine eq_of_parts (base_put s o) ((gate_put s o).trans hgate) (Snapshot.ext_get? fun k => ?_)
    (configured_put s o)
  rw [get?_snapshot_put]
  split
  · rename_i hk
    rw [hk, h, Snapshot.kept_of_get? h]
  · rfl

theorem putAll_eq_self {s : Steered S} {os : List Override}
    (h : ∀ o ∈ os, s.snapshot.get? o.key = some o.setting) : s.putAll os = s := by
  induction os with
  | nil => rfl
  | cons o os ih =>
    rw [putAll_cons, put_eq_self (h o List.mem_cons_self)]
    exact ih fun p hp => h p (List.mem_cons_of_mem _ hp)

/-- A strategy that restores its own snapshot stays as it is. -/
theorem restore_snapshot (s : Steered S) :
    s.restore s.snapshot = { s with configured := true } :=
  putAll_eq_self (s := { s with configured := true }) fun _ ho => Snapshot.mem_overrides.mp ho

/-- So does one that loads what it has exported; the overrides with an empty name, which are not
read, stay as well. -/
theorem load_of_perm_store (s : Steered S) {pairs : List (String × String)}
    (h : pairs.Perm (s.store ∅).toList) : (s.load pairs).2 = { s with configured := true } := by
  rw [store_empty] at h
  rw [load_of_perm_toProperties s h]
  refine putAll_eq_self (s := { s with configured := true }) fun o ho => ?_
  exact Snapshot.mem_overrides.mp (Snapshot.mem_overrides_named.mp ho).1

/-- A snapshot that is restored lies on top of what was overridden before. The tables of the snapshot
lie over the tables, and its disabled names are added. A remembered name that it disables is
remembered no longer, as it is explicit now, and the other names stay remembered. On a fresh strategy
the snapshot is restored as it was taken. If it has no empty name, its pairs, in any order, lead to
the same strategy, with everything that is remembered. A strategy that takes back its own snapshot, or
its own exported map, is the same strategy, but for the flag that it is configured. -/
theorem restore_overlays (s : Steered S) (sn : Snapshot) :
    let t := s.restore sn
    t.snapshot = s.snapshot.overlay sn ∧
      t.gate.disabled = s.gate.disabled ∪ sn.disabledRules ∧
      t.gate.remembered = s.gate.remembered \ sn.disabledRules ∧
      t.configured = true ∧ t.base = s.base ∧
      (∀ base : S, ((wrap base).restore sn).snapshot = sn) ∧
      ((∀ o ∈ sn.overrides, o.name ≠ "") → ∀ pairs : List (String × String),
        pairs.Perm sn.toProperties.toList → (s.load pairs).2 = t) ∧
      s.restore s.snapshot = { s with configured := true } ∧
      ∀ pairs : List (String × String), pairs.Perm (s.store ∅).toList →
        (s.load pairs).2 = { s with configured := true } := by
  intro t
  have hload (hnames : ∀ o ∈ sn.overrides, o.name ≠ "") {pairs : List (String × String)}
      (h : pairs.Perm sn.toProperties.toList) : (s.load pairs).2 = t := by
    rw [load_of_perm_toProperties s h, Snapshot.named_eq_self_iff.mpr hnames]
  refine ⟨s.snapshot_restore sn, s.disabled_restore sn, s.remembered_restore sn,
    configured_putAll _ _, base_putAll _ _, fun base => snapshot_restore_wrap base sn,
    fun hnames pairs h => hload hnames h, s.restore_snapshot, fun pairs h => s.load_of_perm_store h⟩

/-- Two names are remembered for their group, and the snapshot disables one of them and changes its
factor. -/
theorem restore_overlays_of_remembered :
    let s := (wrap (⟨.top⟩ : Indifferent Cost)).run [.set ⟨.group, "alpha", .disabled true⟩,
      .set ⟨.rule, "andLeft", .factor 2⟩, .offer ⟨"andLeft", some ["alpha"]⟩,
      .offer ⟨"orRight", some ["alpha"]⟩]
    let sn : Snapshot := ⟨⟨∅, ⟨.ofList [("andLeft", (5 : Int64))], ∅⟩⟩, .ofList ["andLeft"], ∅⟩
    let t := s.restore sn
    s.gate.remembered.toList = ["andLeft", "orRight"] ∧
      t.gate.remembered.toList = ["orRight"] ∧
      t.gate.explicitRules.toList = ["andLeft"] ∧
      t.gate.groups.toList = ["alpha"] ∧
      t.adjustments.rules.factors.toList = [("andLeft", 5)] ∧
      (s.load sn.toProperties.toList.reverse).2 = t ∧
      (s.load (s.store ∅).toList.reverse).2 = { s with configured := true } := by
  intro s sn t
  obtain ⟨-, -, hremembered, -, -, -, hload, -, hown⟩ := restore_overlays s sn
  refine ⟨by decide +kernel, ?_, by decide +kernel, by decide +kernel, by decide +kernel,
    hload (by decide +kernel) _ (List.reverse_perm _), hown _ (List.reverse_perm _)⟩
  rw [hremembered]
  decide +kernel

end Steered

end RuleSteering
