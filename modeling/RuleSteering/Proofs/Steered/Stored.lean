import RuleSteering.Proofs.Snapshot.Flat

/-!
# The exported property map

A strategy exports what its snapshot lists, in an order of its own, and so the map is the map of the
snapshot (`store_empty`). A strategy that loads what another one has exported holds the same overrides,
except those with an empty name, which are no overrides for the reader (`snapshot_load_store`).

* `storedOverrides`, the overrides that are exported; `storedOverrides_perm`, they are those of the
  snapshot;
* `store_exports`, what is written, and how much of it, into a map that may hold something already;
* `mem_toList_store`, an empty map holds exactly the pairs of the overrides then.
-/

namespace RuleSteering

open Override

namespace Steered

variable {S : Type}

/-- The overrides that are exported. -/
def storedOverrides (s : Steered S) : List Override :=
  s.adjustments.overrides ++ s.gate.overrides

theorem store_eq (s : Steered S) (into : Properties) : s.store into = into.store s.storedOverrides :=
  (into.store_append _ _).symm

/-- The exported overrides are those of the snapshot, in another order. -/
theorem storedOverrides_perm (s : Steered S) : s.storedOverrides.Perm s.snapshot.overrides := by
  have hgate : s.gate.overrides.Perm
      (disabling .group s.gate.groups ++ disabling .rule s.gate.explicitRules) :=
    List.perm_append_comm
  refine (hgate.append_left _).trans ?_
  simp only [Adjustments.overrides, Snapshot.overrides, snapshot, List.append_assoc]
  exact (List.perm_append_comm_assoc _ _ _).append_left _

theorem nodup_keys_storedOverrides (s : Steered S) : (s.storedOverrides.map Override.key).Nodup :=
  (s.storedOverrides_perm.map _).nodup_iff.mpr s.snapshot.nodup_keys_overrides

theorem mem_storedOverrides {s : Steered S} {o : Override} :
    o ∈ s.storedOverrides ↔ s.snapshot.get? o.key = some o.setting := by
  rw [s.storedOverrides_perm.mem_iff, Snapshot.mem_overrides]

/-! ### Export -/

/-- Into an empty map the map of the snapshot is exported. -/
theorem store_empty (s : Steered S) : s.store ∅ = s.snapshot.toProperties := by
  rw [store_eq, Snapshot.toProperties]
  exact Properties.store_eq_of_perm ∅ s.storedOverrides_perm s.nodup_keys_storedOverrides

/-- Every override is exported under the text of its key. -/
theorem getElem?_store_of_get? {s : Steered S} (m : Properties) {k : Key} {x : Setting}
    (h : s.snapshot.get? k = some x) : (s.store m)[k.text]? = some x.text := by
  have hkey := Snapshot.key_of_get? h
  have ho : ⟨k.scope, k.name, x⟩ ∈ s.storedOverrides := by
    rw [mem_storedOverrides, hkey]
    exact h
  have hget := m.getElem?_store_of_mem s.nodup_keys_storedOverrides ho
  rwa [hkey, ← store_eq] at hget

/-- Under every other text the map holds what it held before. -/
theorem getElem?_store_of_ne {s : Steered S} (m : Properties) {t : String}
    (h : ∀ k, k.text = t → s.snapshot.get? k = none) : (s.store m)[t]? = m[t]? := by
  rw [store_eq]
  refine m.getElem?_store_of_ne fun o ho ht => ?_
  have hnone := h o.key ht
  rw [mem_storedOverrides.mp ho] at hnone
  contradiction

/-- Everything that is overridden is exported, and under its own text, whatever the names are. The
pairs that are written have different texts of keys, and there are as many of them as the tables and
the sets of disabled names have entries. The map then holds the value of each override under the text
of its key, and holds under any other text what it held before. Into an empty map the map of the
snapshot is exported. -/
theorem store_exports (s : Steered S) :
    let pairs := s.storedOverrides.map Override.toPair
    (∀ m : Properties, s.store m = m.insertMany pairs) ∧
      (pairs.map Prod.fst).Nodup ∧
      pairs.length =
        s.adjustments.groups.factors.size + s.adjustments.groups.summands.size +
          s.gate.groups.size +
        (s.adjustments.rules.factors.size + s.adjustments.rules.summands.size +
          s.gate.explicitRules.size) ∧
      (∀ (m : Properties) (k : Key) (x : Setting),
        s.snapshot.get? k = some x → (s.store m)[k.text]? = some x.text) ∧
      (∀ (m : Properties) (t : String),
        (∀ k, k.text = t → s.snapshot.get? k = none) → (s.store m)[t]? = m[t]?) ∧
      s.snapshot.toProperties = s.store ∅ := by
  intro pairs
  have hlength : pairs.length = s.snapshot.overrides.length := by
    rw [List.length_map, s.storedOverrides_perm.length_eq]
  refine ⟨s.store_eq, Properties.nodup_fst_toPair s.nodup_keys_storedOverrides,
    hlength.trans s.snapshot.length_overrides, ?_, ?_, s.store_empty.symm⟩
  · exact fun m k x => getElem?_store_of_get? m
  · exact fun m t => getElem?_store_of_ne m

/-- With an empty name, names that look like parts of keys, and a map that already holds the text of
one of the keys and that of another key. -/
theorem store_exports_of_odd_names :
    let s := (wrap (⟨.top⟩ : Indifferent Cost)).putAll [⟨.rule, "", .factor 2⟩,
      ⟨.rule, ".factor", .factor 3⟩, ⟨.group, "rule.a", .disabled true⟩]
    let m : Properties := .ofList [("rule..factor", "7"), ("rule.a.disabled", "false")]
    s.snapshot.get? ⟨.rule, "", .factor⟩ = some (.factor 2) ∧
      (s.store m)["rule..factor"]? = some "2" ∧
      s.snapshot.get? ⟨.rule, "a", .disabled⟩ = none ∧
      (s.store m)["rule.a.disabled"]? = some "false" := by
  intro s m
  obtain ⟨-, -, -, hheld, hother, -⟩ := store_exports s
  have hset : s.snapshot.get? ⟨.rule, "", .factor⟩ = some (.factor 2) := by decide +kernel
  have hunset : s.snapshot.get? ⟨.rule, "a", .disabled⟩ = none := by decide +kernel
  have hkeep : (s.store m)["rule.a.disabled"]? = m["rule.a.disabled"]? := by
    refine hother m _ fun k hk => ?_
    have hka : k = ⟨.rule, "a", .disabled⟩ := Key.text_injective (hk.trans (by decide +kernel))
    rw [hka, hunset]
  exact ⟨hset, hheld m _ _ hset, hunset, hkeep.trans (by decide +kernel)⟩

/-! ### Loading what was exported -/

/-- An empty map holds the pairs of the exported overrides. -/
theorem mem_toList_store {s : Steered S} {e : String × String} :
    e ∈ (s.store ∅).toList ↔ ∃ o ∈ s.storedOverrides, o.toPair = e := by
  rw [store_eq]
  exact Properties.mem_toList_store s.nodup_keys_storedOverrides

/-- From the exported map the overrides with a name are read. -/
theorem mem_filterMap_store {s : Steered S} {o : Override} :
    o ∈ (s.store ∅).toList.filterMap ofPair? ↔ s.snapshot.named.get? o.key = some o.setting := by
  rw [store_empty, Snapshot.mem_filterMap_toProperties, Snapshot.mem_overrides]

/-- Loading an exported map restores the overrides with a name. -/
theorem snapshot_load_store {S' : Type} (s : Steered S) (base : S') :
    ((wrap base).load (s.store ∅).toList).2.snapshot = s.snapshot.named :=
  snapshot_putAll_of_mem_iff (s := { wrap base with configured := true }) rfl
    fun _ => mem_filterMap_store

end Steered

end RuleSteering
