import RuleSteering.Catalog
import RuleSteering.Proofs.Text.Order

/-!
# A catalogue lists each name once

The names of a catalogue stand in the order of their bytes, and they are those of the candidates, neither
more nor less. Two lists can keep to this only if they are equal (`ofCandidates_eq_iff`), so neither the order
of the candidates nor how often one of them comes makes a difference.
-/

namespace RuleSteering.Catalog

open Text

variable {cs ds : List Candidate}

theorem mem_ruleNames {name : String} :
    name ∈ (ofCandidates cs).ruleNames ↔ ∃ c ∈ cs, c.name = name := by
  rw [ofCandidates, Std.ExtTreeSet.mem_toList, Std.ExtTreeSet.mem_ofList, List.contains_iff_mem,
    List.mem_map]

/-- Only a candidate with group metadata brings in groups. -/
theorem mem_groupNames {group : String} :
    group ∈ (ofCandidates cs).groupNames ↔ ∃ c ∈ cs, ∃ gs, c.groups = some gs ∧ group ∈ gs := by
  have hlist (c : Candidate) : group ∈ c.groupList ↔ ∃ gs, c.groups = some gs ∧ group ∈ gs := by
    cases hc : c.groups <;> simp [Candidate.groupList, hc]
  rw [ofCandidates, Std.ExtTreeSet.mem_toList, Std.ExtTreeSet.mem_ofList, List.contains_iff_mem,
    List.mem_flatMap]
  simp only [hlist]

theorem ascending_ruleNames (cs : List Candidate) : Ascending (ofCandidates cs).ruleNames := by
  simp only [ofCandidates]
  exact ascending_toList _

theorem ascending_groupNames (cs : List Candidate) : Ascending (ofCandidates cs).groupNames := by
  simp only [ofCandidates]
  exact ascending_toList _

/-- A catalogue is the one of some candidates if its lists are in ascending order and hold their names and
groups and nothing else. -/
theorem ofCandidates_eq_iff {k : Catalog} :
    ofCandidates cs = k ↔ Ascending k.ruleNames ∧ Ascending k.groupNames ∧
      (∀ name, name ∈ k.ruleNames ↔ ∃ c ∈ cs, c.name = name) ∧
      ∀ group, group ∈ k.groupNames ↔ ∃ c ∈ cs, ∃ gs, c.groups = some gs ∧ group ∈ gs := by
  constructor
  · rintro rfl
    exact ⟨ascending_ruleNames cs, ascending_groupNames cs, fun _ => mem_ruleNames,
      fun _ => mem_groupNames⟩
  · rintro ⟨hrules, hgroups, hmemr, hmemg⟩
    rw [mk.injEq]
    exact ⟨(ascending_ruleNames cs).eq_of_mem_iff hrules fun name => mem_ruleNames.trans (hmemr name).symm,
      (ascending_groupNames cs).eq_of_mem_iff hgroups fun group => mem_groupNames.trans (hmemg group).symm⟩

/-- The names of a catalogue stand in strictly ascending order of their bytes, and they are exactly those of
the candidates and of their groups. The catalogue is the same for all lists of the same candidates. -/
theorem ofCandidates_lists_names :
    (∀ cs, (ofCandidates cs).ruleNames.Pairwise (fun s t => utf8 s < utf8 t) ∧
      (ofCandidates cs).groupNames.Pairwise (fun s t => utf8 s < utf8 t) ∧
      (∀ name, name ∈ (ofCandidates cs).ruleNames ↔ ∃ c ∈ cs, c.name = name) ∧
      ∀ group, group ∈ (ofCandidates cs).groupNames ↔
        ∃ c ∈ cs, ∃ gs, c.groups = some gs ∧ group ∈ gs) ∧
      ∀ cs ds, (∀ c, c ∈ cs ↔ c ∈ ds) → ofCandidates cs = ofCandidates ds := by
  refine ⟨fun cs => ⟨ascending_iff_utf8.mp (ascending_ruleNames cs),
    ascending_iff_utf8.mp (ascending_groupNames cs), fun _ => mem_ruleNames, fun _ => mem_groupNames⟩,
    fun cs ds h => ?_⟩
  rw [ofCandidates_eq_iff]
  refine ⟨ascending_ruleNames ds, ascending_groupNames ds, fun name => ?_, fun group => ?_⟩
  · simp only [mem_ruleNames, h]
  · simp only [mem_groupNames, h]

/-- The second list repeats the candidates of the first one in another order. One name is the start of another
one, one is empty, and the last two are in the other order if they are cut into units of 16 bits. -/
theorem ofCandidates_of_repeated :
    let a : Candidate := ⟨"cut", some ["y", "x", "y"]⟩
    let b : Candidate := ⟨"cutAll", none⟩
    let c : Candidate := ⟨"\uffff", some ["x", "😀"]⟩
    let d : Candidate := ⟨"😀", some []⟩
    let e : Candidate := ⟨"", none⟩
    (∀ x, x ∈ [a, b, c, d, e] ↔ x ∈ [e, d, c, c, a, b, a]) ∧
      ofCandidates [a, b, c, d, e] = ofCandidates [e, d, c, c, a, b, a] ∧
      ofCandidates [a, b, c, d, e] =
        ⟨["", "cut", "cutAll", "\uffff", "😀"], ["x", "y", "😀"]⟩ := by
  intro a b c d e
  have hall : (∀ x ∈ [a, b, c, d, e], x ∈ [e, d, c, c, a, b, a]) ∧
      ∀ x ∈ [e, d, c, c, a, b, a], x ∈ [a, b, c, d, e] := by decide
  have hsame : ∀ x, x ∈ [a, b, c, d, e] ↔ x ∈ [e, d, c, c, a, b, a] := fun x =>
    ⟨hall.1 x, hall.2 x⟩
  exact ⟨hsame, ofCandidates_lists_names.2 _ _ hsame, by decide +kernel⟩

end RuleSteering.Catalog
