import RuleSteering.Proofs.Gate.Sets
import RuleSteering.Proofs.Snapshot.Flat

/-!
# A map that is loaded into a fresh strategy

A fresh strategy that loads a map holds nothing but the overrides that are read from the map, and
each of them once. Of a disabled flag that is false it holds nothing.

* `mem_overrides_load`, the overrides that are held, and `overrides_load_perm`, the same with the
  number of them, if every flag that is read is true;
* `remembered_load`, nothing is remembered.
-/

namespace RuleSteering

open Override

namespace Steered

variable {S : Type}

/-! ### What is held -/

/-- A fresh strategy holds the overrides that are read, except flags that are false. -/
theorem mem_overrides_load (base : S) {pairs : List (String × String)}
    (hpairs : (pairs.map Prod.fst).Nodup) {o : Override} :
    o ∈ ((wrap base).load pairs).2.snapshot.overrides ↔
      o ∈ pairs.filterMap ofPair? ∧ o.setting.kept = some o.setting := by
  rw [Snapshot.mem_overrides]
  constructor
  · intro h
    refine ⟨(mem_or_get?_of_get?_snapshot_putAll h).resolve_right fun hfresh => ?_, ?_⟩
    · have hnone : (wrap base).snapshot.get? o.key = none := Snapshot.get?_empty o.key
      exact absurd (hnone.symm.trans hfresh) (by simp)
    · exact Snapshot.kept_of_get? h
  · rintro ⟨ho, hkept⟩
    rw [← hkept]
    exact get?_snapshot_putAll_of_mem _ ho fun p hp hkey => ofPair?_inj_on hpairs hp ho hkey

/-- If all flags that are read are true, the strategy lists what is read, in its own order. -/
theorem overrides_load_perm (base : S) {pairs : List (String × String)}
    (hpairs : (pairs.map Prod.fst).Nodup)
    (hkept : ∀ o ∈ pairs.filterMap ofPair?, o.setting.kept = some o.setting) :
    ((wrap base).load pairs).2.snapshot.overrides.Perm (pairs.filterMap ofPair?) := by
  refine (List.perm_ext_iff_of_nodup (Snapshot.nodup_overrides _)
    (nodup_filterMap_ofPair? hpairs)).mpr fun o => ?_
  rw [mem_overrides_load base hpairs]
  exact and_iff_left_of_imp (hkept o)

/-- Then the number of the overrides that are held is the number of those that were read. -/
theorem fst_load (base : S) {pairs : List (String × String)} (hpairs : (pairs.map Prod.fst).Nodup)
    (hkept : ∀ o ∈ pairs.filterMap ofPair?, o.setting.kept = some o.setting) :
    ((wrap base).load pairs).1 = ((wrap base).load pairs).2.snapshot.overrides.length :=
  (overrides_load_perm base hpairs hkept).length_eq.symm

/-- No list of overrides makes the gate remember a name. -/
theorem mem_remembered_of_mem_putAll {s : Steered S} {os : List Override} {name : String}
    (h : name ∈ (s.putAll os).gate.remembered) : name ∈ s.gate.remembered := by
  induction os generalizing s with
  | nil => exact h
  | cons o os ih =>
    have ho := ih h
    rw [gate_put] at ho
    exact Gate.mem_remembered_of_mem_set ho

/-- If nothing is remembered, nothing is after a list of overrides. -/
theorem remembered_putAll_eq_empty {s : Steered S} (h : s.gate.remembered = ∅)
    (os : List Override) : (s.putAll os).gate.remembered = ∅ := by
  refine Std.ExtTreeSet.ext_mem fun name => ⟨fun hname => ?_, fun hname => ?_⟩
  · rw [← h]
    exact mem_remembered_of_mem_putAll hname
  · exact absurd hname Std.ExtTreeSet.not_mem_empty

theorem remembered_load (base : S) (pairs : List (String × String)) :
    ((wrap base).load pairs).2.gate.remembered = ∅ :=
  remembered_putAll_eq_empty rfl _

end Steered

end RuleSteering
