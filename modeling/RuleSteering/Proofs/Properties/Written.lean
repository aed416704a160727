import Mathlib.Data.List.Dedup
import RuleSteering.Proofs.Properties.RoundTrip

/-!
# A written map shows its entries

A map is written in one line for each key, and the line shows where the key ends: at its first equals sign
that is not escaped. So every written map stands for one map only, even if reading it does not give the map
back (`standsFor_escape_and_render_injective`).

* `line_inj`, a line belongs to one entry; `render_inj`;
* `size_ofList`, a map of pairs has as many entries as the pairs have different keys.
-/

namespace RuleSteering.Properties

open Text

/-- The key of an entry ends where an equals sign is not escaped for the first time. -/
theorem line_inj {e f : String × String} : line e = line f ↔ e = f := by
  refine ⟨fun h => ?_, congrArg line⟩
  have hke := standsFor_escapeKey e.1.toList
  have hkf := standsFor_escapeKey f.1.toList
  have hve := standsFor_escapeValue e.2.toList
  have hvf := standsFor_escapeValue f.2.toList
  obtain ⟨hkey, hvalue⟩ := hke.hides.append_cons_inj hkf.hides hke.not_escapesNext hkf.not_escapesNext
    (by decide) h
  have hfst : e.1 = f.1 := String.toList_inj.mp (by rw [← hke.reads, hkey, hkf.reads])
  have hsnd : e.2 = f.2 := String.toList_inj.mp (by rw [← hve.reads, hvalue, hvf.reads])
  exact Prod.ext hfst hsnd

/-- The lines of a written map are those of its entries, so they tell which entries it has. -/
theorem render_inj {p q : Properties} : p.render = q.render ↔ p = q := by
  refine ⟨fun h => ?_, congrArg render⟩
  have hlines : p.toList.map line = q.toList.map line := by
    rw [← lines_render, ← lines_render, h]
  have hentries : p.toList = q.toList :=
    List.map_injective_iff.mpr (fun _ _ => line_inj.mp) hlines
  rw [← ofList_toList p, hentries, ofList_toList]

theorem size_ofList (pairs : List (String × String)) :
    (Std.ExtTreeMap.ofList pairs : Properties).size = (pairs.map Prod.fst).dedup.length := by
  have hkeys : (Std.ExtTreeMap.ofList pairs : Properties).keys.Perm (pairs.map Prod.fst).dedup := by
    refine (List.perm_ext_iff_of_nodup Std.ExtTreeMap.nodup_keys (List.nodup_dedup _)).mpr fun k => ?_
    rw [Std.ExtTreeMap.mem_keys, Std.ExtTreeMap.mem_ofList, List.contains_iff_mem, List.mem_dedup]
  rw [← Std.ExtTreeMap.length_keys, hkeys.length_eq]

/-- A written key and a written value stand for the texts that they were written for, so a map is written in
one line for each of its entries, a list of pairs in one for each of its keys, and no two maps are written
alike. -/
theorem standsFor_escape_and_render_injective :
    (∀ s, StandsFor true (escapeKey s) s ∧ StandsFor false (escapeValue s) s) ∧
      (∀ p : Properties, lines p.render.toList = p.toList.map line ∧
        (lines p.render.toList).length = p.size) ∧
      (∀ pairs : List (String × String),
        (lines (render (.ofList pairs)).toList).length = (pairs.map Prod.fst).dedup.length) ∧
      ∀ p q : Properties, p.render = q.render ↔ p = q := by
  have hlength (p : Properties) : (lines p.render.toList).length = p.size := by
    rw [lines_render, List.length_map, Std.ExtTreeMap.length_toList]
  refine ⟨fun s => ⟨standsFor_escapeKey s, standsFor_escapeValue s⟩,
    fun p => ⟨lines_render p, hlength p⟩, fun pairs => ?_, fun p q => render_inj⟩
  rw [hlength, size_ofList]

/-- An odd blank in front of a key is lost, so that two maps that are written differently are read alike. -/
example :
    let p : Properties := .ofList [("\u00a0a", "")]
    let q : Properties := .ofList [("a", "")]
    p.render ≠ q.render ∧ (parse p.render).toList = (parse q.render).toList := by
  decide +kernel

end RuleSteering.Properties
