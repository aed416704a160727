import RuleSteering.Proofs.Steered.LoadOrder
import RuleSteering.Proofs.Steered.Stored

/-!
# The cost tables by themselves

The tables of factors and summands can be built from pairs of texts without a strategy, and exported
without one. This is in step with a strategy that loads and exports the same pairs: its tables are the
same, and what the tables export is what the strategy exports under the keys that end in a factor or a
summand (`load_agrees_with_ofPairs`).

* `isCostKey`, the texts of keys that end in a factor or a summand. A name may hold dots and look like
  the end of a key, but what follows the last dot is the field (`suffix_text_iff`);
* `restrict_store`, what a strategy exports, restricted to these keys;
* `ofPairs_of_perm_store`, tables are built again from what they export.
-/

namespace RuleSteering

open Override

/-! ### Keys of factors and summands -/

namespace Override

/-- A text of a key ends in a dot and a field exactly if it is a key of this field. -/
theorem Key.suffix_text_iff {k : Key} {f : Field} :
    '.' :: f.text.toList <:+ k.text.toList ↔ k.field = f := by
  have htext : k.text.toList =
      (k.scope.text.toList ++ k.name.toList) ++ '.' :: k.field.text.toList := by
    rw [toList_text, List.append_assoc]
  constructor
  · rintro ⟨a, ha⟩
    have hsplit : some (a, f.text.toList) =
        some (k.scope.text.toList ++ k.name.toList, k.field.text.toList) := by
      rw [← splitLastDot?_append _ (not_mem_fieldText f), ha, htext,
        splitLastDot?_append _ (not_mem_fieldText k.field)]
    have hfield : f.text.toList = k.field.text.toList :=
      (Prod.mk.inj (Option.some.inj hsplit)).2
    have hread := congrArg Field.ofText? hfield
    simpa using hread.symm
  · rintro rfl
    exact ⟨_, htext.symm⟩

end Override

/-- The text ends in a factor or a summand. -/
def Properties.isCostKey (t : String) : Bool :=
  ('.' :: Field.factor.text.toList).isSuffixOf t.toList ||
    ('.' :: Field.summand.text.toList).isSuffixOf t.toList

open Properties

theorem Override.isCostKey_text (o : Override) :
    isCostKey o.key.text = true ↔ o.setting.field ≠ .disabled := by
  simp only [isCostKey, Bool.or_eq_true, List.isSuffixOf_iff_suffix, Key.suffix_text_iff, key]
  cases o.setting.field <;> simp

/-! ### What is exported under these keys -/

namespace Properties

/-- The part of the map under the keys with the property. -/
def restrict (f : String → Bool) (p : Properties) : Properties :=
  p.filter fun t _ => f t

theorem getElem?_restrict (f : String → Bool) (p : Properties) (t : String) :
    (p.restrict f)[t]? = if f t = true then p[t]? else none := by
  rw [restrict, Std.ExtTreeMap.getElem?_filter']
  cases p[t]? <;> simp [Option.filter]

theorem restrict_empty (f : String → Bool) : restrict f ∅ = ∅ := by
  refine Std.ExtTreeMap.ext_getElem? fun t => ?_
  simp [getElem?_restrict]

theorem restrict_insert (f : String → Bool) (p : Properties) (t v : String) :
    restrict f (p.insert t v) = if f t = true then (p.restrict f).insert t v else p.restrict f := by
  refine Std.ExtTreeMap.ext_getElem? fun u => ?_
  by_cases hu : t = u
  · subst hu
    by_cases ht : f t = true <;> simp [getElem?_restrict, ht]
  · by_cases ht : f t = true <;> simp [getElem?_restrict, ht, hu, Std.ExtTreeMap.getElem?_insert]

/-- What is written under other keys leaves no trace in the part of the map. -/
theorem restrict_store (f : String → Bool) (p : Properties) (os : List Override) :
    restrict f (p.store os) = (p.restrict f).store (os.filter fun o => f o.key.text) := by
  induction os generalizing p with
  | nil => rw [store_nil, List.filter_nil, store_nil]
  | cons o os ih =>
    have hcons (q : Properties) (ps : List Override) :
        q.store (o :: ps) = store (q.insert o.key.text o.setting.text) ps :=
      Std.ExtTreeMap.insertMany_cons
    rw [hcons, ih, restrict_insert, List.filter_cons]
    split
    · rw [hcons]
    · rfl

end Properties

theorem Adjustments.field_of_mem_overrides {a : Adjustments} {o : Override} (h : o ∈ a.overrides) :
    o.setting.field ≠ .disabled := by
  have htable {t : LinearTable} {scope : Scope} (h : o ∈ t.overrides scope) :
      o.setting.field ≠ .disabled := by
    rcases (LinearTable.mem_overrides.mp h).2 with ⟨n, hset, -⟩ | ⟨n, hset, -⟩ <;> rw [hset] <;> simp
  exact (List.mem_append.mp h).elim htable htable

theorem Gate.field_of_mem_overrides {g : Gate} {o : Override} (h : o ∈ g.overrides) :
    o.setting.field = .disabled := by
  have hnames {scope : Scope} {names : Std.ExtTreeSet String} (h : o ∈ disabling scope names) :
      o.setting.field = .disabled := by
    rw [(mem_disabling.mp h).2.1]
    rfl
  exact (List.mem_append.mp h).elim hnames hnames

namespace Steered

variable {S : Type}

/-- Restricted to the keys of factors and summands, a strategy exports its tables. -/
theorem restrict_store (s : Steered S) (into : Properties) :
    restrict isCostKey (s.store into) = (into.restrict isCostKey).store s.adjustments.overrides := by
  have htables : s.adjustments.overrides.filter (fun o => isCostKey o.key.text) =
      s.adjustments.overrides :=
    List.filter_eq_self.mpr fun o ho => (isCostKey_text o).mpr (Adjustments.field_of_mem_overrides ho)
  have hgate : s.gate.overrides.filter (fun o => isCostKey o.key.text) = [] :=
    List.filter_eq_nil_iff.mpr fun o ho hcost =>
      (isCostKey_text o).mp hcost (Gate.field_of_mem_overrides ho)
  rw [store_eq, Properties.restrict_store, storedOverrides, List.filter_append, htables, hgate,
    List.append_nil]

/-! ### Building tables -/

/-- A fresh strategy that loads pairs has the tables that are built from them. -/
theorem adjustments_load (base : S) (pairs : List (String × String)) :
    ((wrap base).load pairs).2.adjustments = Adjustments.ofPairs pairs :=
  adjustments_putAll _ _

end Steered

open Steered

namespace Adjustments

/-- Tables that are built from pairs hold no empty name. -/
theorem name_ne_empty_of_mem_overrides_ofPairs {pairs : List (String × String)} {o : Override}
    (h : o ∈ (ofPairs pairs).overrides) : o.name ≠ "" := by
  have hstored : o ∈ ((wrap ()).load pairs).2.storedOverrides := by
    rw [storedOverrides, adjustments_load]
    exact List.mem_append_left _ h
  rcases mem_or_get?_of_get?_snapshot_putAll (mem_storedOverrides.mp hstored) with hread | hfresh
  · obtain ⟨pair, -, hpair⟩ := List.mem_filterMap.mp hread
    exact name_ne_empty_of_ofPair? hpair
  · -- nothing was held before
    have hnone : (wrap ()).snapshot.get? o.key = none := Snapshot.get?_empty o.key
    exact absurd (hnone.symm.trans hfresh) (by simp)

/-- Tables without empty names are built again from the pairs that they export, in any order. -/
theorem ofPairs_of_perm_store {a : Adjustments} (hnames : ∀ o ∈ a.overrides, o.name ≠ "")
    {pairs : List (String × String)} (h : pairs.Perm (Properties.store ∅ a.overrides).toList) :
    ofPairs pairs = a := by
  let s : Steered Unit := { base := (), adjustments := a }
  have hstore : s.store ∅ = Properties.store ∅ a.overrides := Properties.store_nil _
  have hsnapshot : ((wrap ()).load pairs).2.snapshot = s.snapshot.named := by
    rw [← hstore] at h
    rw [← load_eq_of_perm (wrap ()) h.symm (nodup_keys_toList _), snapshot_load_store]
  have hnamed : s.snapshot.named = s.snapshot := by
    refine Snapshot.named_eq_self_iff.mpr fun o ho => hnames o ?_
    rw [← s.storedOverrides_perm.mem_iff] at ho
    exact (List.mem_append.mp ho).resolve_right List.not_mem_nil
  rw [← adjustments_load ()]
  exact congrArg Snapshot.adjustments (hsnapshot.trans hnamed)

end Adjustments

namespace Steered

/-- Whatever pairs are given: the tables that are built from them are those of a fresh strategy that loads
them, and so both assign the same cost to every candidate, whatever it costs without them. What the
tables export is what the strategy exports under the keys that end in a factor or a summand. From what
they export, in any order, the same tables are built. -/
theorem load_agrees_with_ofPairs (pairs : List (String × String)) :
    (∀ (S : Type) (base : S),
      ((wrap base).load pairs).2.adjustments = Adjustments.ofPairs pairs ∧
        (∀ (C : Type) [CostDomain C] (c : Candidate) (cost : C),
          ((wrap base).load pairs).2.adjustments.adjust c cost =
            (Adjustments.ofPairs pairs).adjust c cost) ∧
        (∀ (C : Type) [CostDomain C] [Strategy S C] (c : Candidate),
          ((wrap base).load pairs).2.cost c =
            (Adjustments.ofPairs pairs).adjust c (Strategy.cost base c)) ∧
        Properties.store ∅ (Adjustments.ofPairs pairs).overrides =
          restrict isCostKey (((wrap base).load pairs).2.store ∅)) ∧
      ∀ pairs' : List (String × String),
        pairs'.Perm (Properties.store ∅ (Adjustments.ofPairs pairs).overrides).toList →
          Adjustments.ofPairs pairs' = Adjustments.ofPairs pairs := by
  constructor
  · intro S base
    have hsame := adjustments_load base pairs
    have hbase : ((wrap base).load pairs).2.base = base := base_putAll _ _
    refine ⟨hsame, fun C _ c cost => by rw [hsame], fun C _ _ c => by rw [cost, hsame, hbase], ?_⟩
    rw [restrict_store, restrict_empty, hsame]
  · intro pairs' h
    exact Adjustments.ofPairs_of_perm_store
      (fun o => Adjustments.name_ne_empty_of_mem_overrides_ofPairs) h

/-- Names that look like the end of a key, malformed pairs, a key that is given twice, and disabled names
that only the strategy takes over. The exported pairs come in the opposite order. -/
theorem load_agrees_with_ofPairs_of_odd_names :
    let pairs := [("rule.a.factor.factor", "2"), ("ruleset..summand.summand", "+3"),
      ("rule.b.factor.disabled", "true"), ("rule.a.factor.factor", " -4 "), ("rule..factor", "5"),
      ("ruleset.simplify.summand", "1.5"), ("ruleset.c.disabled", "TRUE")]
    let a := Adjustments.ofPairs pairs
    let s := ((wrap (⟨.finite 7⟩ : Indifferent Cost)).load pairs).2
    s.adjustments = a ∧ s.cost ⟨"a.factor", some [".summand"]⟩ = Cost.finite (-40) ∧
      (restrict isCostKey (s.store ∅)).toList =
        [("rule.a.factor.factor", "-4"), ("ruleset..summand.summand", "3")] ∧
      (s.store ∅).toList = [("rule.a.factor.factor", "-4"), ("rule.b.factor.disabled", "true"),
        ("ruleset..summand.summand", "3"), ("ruleset.c.disabled", "true")] ∧
      Adjustments.ofPairs (Properties.store ∅ a.overrides).toList.reverse = a := by
  intro pairs a s
  obtain ⟨hloaded, hbuilt⟩ := load_agrees_with_ofPairs pairs
  obtain ⟨hsame, -, hcost, hstore⟩ := hloaded (Indifferent Cost) ⟨.finite 7⟩
  refine ⟨hsame, ?_, ?_, by decide +kernel, hbuilt _ (List.reverse_perm _)⟩
  · rw [hcost Cost]
    decide +kernel
  · rw [← hstore]
    decide +kernel

end Steered

end RuleSteering
