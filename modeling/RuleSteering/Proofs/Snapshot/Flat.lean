import RuleSteering.Proofs.Override.RoundTrip
import RuleSteering.Proofs.Snapshot.Lookup

/-!
# A snapshot as a property map

The overrides of a snapshot go into a property map as pairs of texts. A snapshot holds one setting
under a key, and no two keys are written alike, so no pair replaces another one: the map holds all of
them, whatever their order, and nothing else of what it held before is touched.

* `Snapshot.nodup_overrides`, `Snapshot.nodup_keys_overrides`, no override is listed twice, and no
  key; `Snapshot.length_overrides`, how many overrides there are;
* `Properties.getElem?_store_of_mem`, `Properties.getElem?_store_of_ne`, what a map holds into which
  overrides with different keys are written; `Properties.store_eq_of_perm`, in any order;
* `Snapshot.named`, a snapshot without the overrides with an empty name, which is what is read back
  from its map (`mem_filterMap_toProperties`).
-/

namespace RuleSteering

open Override

/-! ### No override is listed twice -/

theorem LinearTable.nodup_overrides (t : LinearTable) (scope : Scope) :
    (t.overrides scope).Nodup := by
  have hkeys (m : Std.ExtTreeMap String Int64) (make : Int64 → Setting) :
      (m.toList.map fun e => Override.mk scope e.1 (make e.2)).Nodup := by
    refine List.pairwise_map.mpr (m.distinct_keys_toList.imp fun h heq => h ?_)
    rw [(Override.mk.inj heq).2.1]
    exact Std.ReflCmp.compare_self
  refine List.nodup_append.mpr ⟨hkeys t.factors .factor, hkeys t.summands .summand, ?_⟩
  intro o ho p hp hop
  obtain ⟨a, -, rfl⟩ := List.mem_map.mp ho
  obtain ⟨b, -, rfl⟩ := List.mem_map.mp hp
  exact absurd (Override.mk.inj hop).2.2 (by simp)

theorem LinearTable.length_overrides (t : LinearTable) (scope : Scope) :
    (t.overrides scope).length = t.factors.size + t.summands.size := by
  simp [overrides]

theorem Override.nodup_disabling (scope : Scope) (names : Std.ExtTreeSet String) :
    (disabling scope names).Nodup := by
  refine List.pairwise_map.mpr (names.distinct_toList.imp fun h heq => h ?_)
  rw [(Override.mk.inj heq).2.1]
  exact Std.ReflCmp.compare_self

theorem Override.length_disabling (scope : Scope) (names : Std.ExtTreeSet String) :
    (disabling scope names).length = names.size := by
  simp [disabling]

namespace Snapshot

/-- A snapshot lists no override twice. -/
theorem nodup_overrides (sn : Snapshot) : sn.overrides.Nodup := by
  have hscope (t : LinearTable) (scope : Scope) (names : Std.ExtTreeSet String) :
      (t.overrides scope ++ disabling scope names).Nodup := by
    refine List.nodup_append.mpr ⟨t.nodup_overrides scope, nodup_disabling scope names, ?_⟩
    rintro o ho p hp rfl
    rcases (LinearTable.mem_overrides.mp ho).2 with ⟨n, hset, -⟩ | ⟨n, hset, -⟩ <;>
      exact absurd (hset.symm.trans (mem_disabling.mp hp).2.1) (by simp)
  have hmem {t : LinearTable} {scope : Scope} {names : Std.ExtTreeSet String} {o : Override}
      (ho : o ∈ t.overrides scope ++ disabling scope names) : o.scope = scope := by
    rcases List.mem_append.mp ho with ho | ho
    · exact (LinearTable.mem_overrides.mp ho).1
    · exact (mem_disabling.mp ho).1
  refine List.nodup_append.mpr ⟨hscope _ _ _, hscope _ _ _, ?_⟩
  rintro o ho p hp rfl
  exact absurd ((hmem ho).symm.trans (hmem hp)) (by decide)

/-- Under one key a snapshot holds one override. -/
theorem eq_of_mem_overrides {sn : Snapshot} {o p : Override} (ho : o ∈ sn.overrides)
    (hp : p ∈ sn.overrides) (hkey : o.key = p.key) : o = p := by
  rw [mem_overrides] at ho hp
  rw [hkey, hp] at ho
  exact eq_of_key_of_setting hkey (Option.some.inj ho).symm

theorem nodup_keys_overrides (sn : Snapshot) : (sn.overrides.map Override.key).Nodup :=
  sn.nodup_overrides.map_on fun _ ho _ hp => eq_of_mem_overrides ho hp

/-- A snapshot lists as many overrides as its tables and its sets have entries. -/
theorem length_overrides (sn : Snapshot) :
    sn.overrides.length =
      sn.adjustments.groups.factors.size + sn.adjustments.groups.summands.size +
        sn.disabledGroups.size +
      (sn.adjustments.rules.factors.size + sn.adjustments.rules.summands.size +
        sn.disabledRules.size) := by
  simp only [overrides, List.length_append, LinearTable.length_overrides, length_disabling]

end Snapshot

/-! ### Pairs in a map -/

namespace Properties

theorem store_append (p : Properties) (os ps : List Override) :
    p.store (os ++ ps) = (p.store os).store ps := by
  refine Std.ExtTreeMap.ext_getElem? fun k => ?_
  simp [store, Std.ExtTreeMap.getElem?_insertMany_list, Option.or_assoc]

/-- A map has no key twice. -/
theorem nodup_keys_toList (p : Properties) : (p.toList.map Prod.fst).Nodup := by
  refine List.pairwise_map.mpr (p.distinct_keys_toList.imp fun h heq => h ?_)
  rw [heq]
  exact Std.ReflCmp.compare_self

/-- Overrides with different keys make pairs with different texts. -/
theorem nodup_fst_toPair {os : List Override} (hkeys : (os.map Override.key).Nodup) :
    ((os.map Override.toPair).map Prod.fst).Nodup := by
  have htexts : ((os.map Override.key).map Key.text).Nodup :=
    hkeys.map fun _ _ => Key.text_injective
  rw [List.map_map] at htexts ⊢
  exact htexts

/-- If no key is set twice, the map holds every pair. -/
theorem getElem?_store_of_mem (p : Properties) {os : List Override}
    (hkeys : (os.map Override.key).Nodup) {o : Override} (ho : o ∈ os) :
    (p.store os)[o.key.text]? = some o.setting.text := by
  refine Std.ExtTreeMap.getElem?_insertMany_list_of_mem Std.ReflCmp.compare_self ?_
    (List.mem_map.mpr ⟨o, ho, rfl⟩)
  exact (List.pairwise_map.mp (nodup_fst_toPair hkeys)).imp fun h heq =>
    h (Std.LawfulEqOrd.eq_of_compare heq)

/-- Under a text that is no key of an override the map holds what it held before. -/
theorem getElem?_store_of_ne (p : Properties) {os : List Override} {t : String}
    (h : ∀ o ∈ os, o.key.text ≠ t) : (p.store os)[t]? = p[t]? := by
  refine Std.ExtTreeMap.getElem?_insertMany_list_of_contains_eq_false ?_
  have hmem : t ∉ (os.map Override.toPair).map Prod.fst := by
    rw [List.map_map]
    rintro ht
    obtain ⟨o, ho, hot⟩ := List.mem_map.mp ht
    exact h o ho hot
  simpa using hmem

/-- If no key is set twice, the overrides are written in any order. -/
theorem store_eq_of_perm (p : Properties) {os ps : List Override} (h : os.Perm ps)
    (hkeys : (os.map Override.key).Nodup) : p.store os = p.store ps := by
  have hkeys' : (ps.map Override.key).Nodup := (h.map _).nodup_iff.mp hkeys
  refine Std.ExtTreeMap.ext_getElem? fun t => ?_
  by_cases ht : ∃ o ∈ os, o.key.text = t
  · obtain ⟨o, ho, rfl⟩ := ht
    rw [getElem?_store_of_mem p hkeys ho, getElem?_store_of_mem p hkeys' (h.mem_iff.mp ho)]
  · have hos : ∀ o ∈ os, o.key.text ≠ t := fun o ho hot => ht ⟨o, ho, hot⟩
    rw [getElem?_store_of_ne p hos, getElem?_store_of_ne p fun o ho => hos o (h.mem_iff.mpr ho)]

/-- An empty map holds the pairs of the overrides and no other. -/
theorem mem_toList_store {os : List Override} (hkeys : (os.map Override.key).Nodup)
    {e : String × String} : e ∈ (store ∅ os).toList ↔ ∃ o ∈ os, o.toPair = e := by
  obtain ⟨t, v⟩ := e
  rw [Std.ExtTreeMap.mem_toList_iff_getElem?_eq_some]
  constructor
  · intro hv
    by_cases ht : ∃ o ∈ os, o.key.text = t
    · obtain ⟨o, ho, rfl⟩ := ht
      rw [getElem?_store_of_mem ∅ hkeys ho] at hv
      exact ⟨o, ho, congrArg (Prod.mk _) (Option.some.inj hv)⟩
    · rw [getElem?_store_of_ne ∅ fun o ho hot => ht ⟨o, ho, hot⟩] at hv
      simp at hv
  · rintro ⟨o, ho, hpair⟩
    obtain ⟨rfl, rfl⟩ := Prod.mk.inj hpair
    exact getElem?_store_of_mem ∅ hkeys ho

end Properties

/-! ### Overrides with a name -/

/-- The table without a key. -/
def LinearTable.erase (t : LinearTable) (key : String) : LinearTable :=
  ⟨t.factors.erase key, t.summands.erase key⟩

namespace Snapshot

/-- The snapshot without the overrides with an empty name. -/
def named (sn : Snapshot) : Snapshot where
  adjustments := ⟨sn.adjustments.groups.erase "", sn.adjustments.rules.erase ""⟩
  disabledRules := sn.disabledRules.erase ""
  disabledGroups := sn.disabledGroups.erase ""

theorem get?_named (sn : Snapshot) (k : Key) :
    sn.named.get? k = if k.name = "" then none else sn.get? k := by
  obtain ⟨scope, name, field⟩ := k
  have htable : sn.named.table scope = (sn.table scope).erase "" := by cases scope <;> rfl
  have hdisabled : sn.named.disabled scope = (sn.disabled scope).erase "" := by cases scope <;> rfl
  by_cases hname : name = ""
  · subst hname
    cases field <;> simp [get?, htable, hdisabled, LinearTable.erase, flag?]
  · have hne : ¬ compare "" name = .eq := fun h => hname (Std.LawfulEqOrd.eq_of_compare h).symm
    cases field <;>
      simp [get?, htable, hdisabled, LinearTable.erase, flag?, Std.ExtTreeMap.getElem?_erase, hname,
        Ne.symm hname]

theorem mem_overrides_named {sn : Snapshot} {o : Override} :
    o ∈ sn.named.overrides ↔ o ∈ sn.overrides ∧ o.name ≠ "" := by
  rw [mem_overrides, mem_overrides, get?_named, show o.key.name = o.name from rfl]
  by_cases hname : o.name = "" <;> simp [hname]

/-- The overrides with a name are all only if none has an empty one. -/
theorem named_eq_self_iff {sn : Snapshot} : sn.named = sn ↔ ∀ o ∈ sn.overrides, o.name ≠ "" := by
  constructor
  · intro h o ho
    rw [← h] at ho
    exact (mem_overrides_named.mp ho).2
  · intro h
    refine ext_get? fun k => ?_
    rw [get?_named]
    split
    · rename_i hname
      cases hk : sn.get? k with
      | none => rfl
      | some x =>
        refine absurd hname (h ⟨k.scope, k.name, x⟩ (mem_overrides.mpr ?_))
        rw [key_of_get? hk]
        exact hk
    · rfl

/-- From the map of a snapshot the overrides with a name are read. -/
theorem mem_filterMap_toProperties {sn : Snapshot} {o : Override} :
    o ∈ sn.toProperties.toList.filterMap ofPair? ↔ o ∈ sn.named.overrides := by
  simp only [mem_overrides_named, toProperties, List.mem_filterMap,
    Properties.mem_toList_store sn.nodup_keys_overrides]
  constructor
  · rintro ⟨e, ⟨p, hp, rfl⟩, he⟩
    rw [ofPair?_toPair] at he
    split at he
    · contradiction
    · rename_i hname
      obtain rfl := Option.some.inj he
      exact ⟨hp, hname⟩
  · rintro ⟨ho, hname⟩
    exact ⟨o.toPair, ⟨o, ho, rfl⟩, by rw [ofPair?_toPair, if_neg hname]⟩

end Snapshot

end RuleSteering
