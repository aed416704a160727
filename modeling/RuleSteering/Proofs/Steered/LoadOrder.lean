import RuleSteering.Proofs.Gate.Sets
import RuleSteering.Proofs.Override.RoundTrip
import RuleSteering.Proofs.Snapshot.Lookup

/-!
# Loading a map in any order

A map has no order, and so the pairs that are loaded may come in any. If no key is given twice, the
strategy is the same after each of them, with everything that it remembers (`load_eq_of_perm`).

* `put_comm`, two overrides with different keys can be handed over in either order;
* `putAll_eq_of_perm`, a list of overrides with different keys in any order.
-/

namespace RuleSteering

namespace Steered

variable {S : Type}

/-- What is overridden does not depend on the order of two edits with different keys. -/
theorem snapshot_put_comm (s : Steered S) {o p : Override} (h : o.key ≠ p.key) :
    ((s.put o).put p).snapshot = ((s.put p).put o).snapshot := by
  refine Snapshot.ext_get? fun k => ?_
  simp only [get?_snapshot_put]
  by_cases hp : k = p.key
  · have ho : k ≠ o.key := fun ho => h (ho.symm.trans hp)
    rw [if_pos hp, if_neg ho, if_pos hp]
  · rw [if_neg hp, if_neg hp]

/-- Neither does what is remembered. -/
theorem put_comm (s : Steered S) {o p : Override} (h : o.key ≠ p.key) :
    (s.put o).put p = (s.put p).put o := by
  have hgate : ((s.put o).put p).gate = ((s.put p).put o).gate := by
    simp only [gate_put, Gate.set_comm s.gate h]
  refine eq_of_parts ?_ hgate (snapshot_put_comm s h) ?_
  · simp only [base_put]
  · simp only [configured_put]

/-- Overrides with different keys can be handed over in any order. -/
theorem putAll_eq_of_perm (s : Steered S) {os ps : List Override} (h : os.Perm ps)
    (hkeys : ∀ o ∈ os, ∀ p ∈ os, o.key = p.key → o = p) : s.putAll os = s.putAll ps := by
  refine h.foldl_eq' (fun o ho p hp t => ?_) s
  by_cases hkey : o.key = p.key
  · rw [hkeys o ho p hp hkey]
  · exact put_comm t hkey

/-- A map is loaded in any order with the same result and the same count: no table, no set of the
gate and no remembered name depends on the order, whatever the strategy was before. -/
theorem load_eq_of_perm (s : Steered S) {pairs pairs' : List (String × String)}
    (h : pairs.Perm pairs') (hkeys : (pairs.map Prod.fst).Nodup) :
    s.load pairs = s.load pairs' := by
  have hread := h.filterMap Override.ofPair?
  have hput := putAll_eq_of_perm { s with configured := true } hread fun _ ho _ hp =>
    Override.ofPair?_inj_on hkeys ho hp
  simp only [load, hread.length_eq, hput]

/-- A remembered name that the map disables stays disabled, whether it is loaded before or after the
group that the map enables, and the name that the map does not mention is forgotten. -/
theorem load_eq_of_perm_of_remembered :
    let s := (wrap (⟨.top⟩ : Indifferent Cost)).run [.set ⟨.group, "alpha", .disabled true⟩,
      .offer ⟨"andLeft", some ["alpha"]⟩, .offer ⟨"orRight", some ["alpha"]⟩]
    let pairs := [("rule.andLeft.disabled", "true"), ("ruleset.alpha.disabled", "false"),
      ("rule.orRight.factor", "2"), ("rule.orRight", "2")]
    "andLeft" ∈ s.gate.remembered ∧ "orRight" ∈ s.gate.remembered ∧
      s.load pairs = s.load pairs.reverse ∧ (s.load pairs).1 = 3 ∧
      "andLeft" ∈ (s.load pairs).2.gate.disabled ∧
      "orRight" ∉ (s.load pairs).2.gate.disabled := by
  intro s pairs
  have hload := load_eq_of_perm s (List.reverse_perm pairs).symm (by decide)
  exact ⟨by decide, by decide, hload, by decide +kernel, by decide +kernel, by decide +kernel⟩

end Steered

end RuleSteering
