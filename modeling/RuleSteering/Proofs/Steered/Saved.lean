import RuleSteering.Proofs.Properties.RoundTrip
import RuleSteering.Proofs.Steered.Stored

/-!
# Saving to a text and restoring

A strategy that is saved to a text and restored from it holds the same overrides, except those with
an empty name. This is so for every name without odd blanks and for every value.

* `savedText` and `ofText`, between a strategy and a text;
* `readable_toPair`, the line of an override can be read back;
* `lost_if_unnamed_or_odd`, an empty name and a name with an odd blank are lost.
-/

namespace RuleSteering

open Text

/-! ### Texts of overrides -/

/-- No written value starts with an odd blank. -/
theorem Override.Setting.not_odd_head_text (x : Setting) :
    ∀ c ∈ x.text.toList.head?, isOddBlank c = false := by
  have hwrite (n : Int64) : ∀ c ∈ (String.ofList (Decimal.write n)).toList.head?,
      isOddBlank c = false := by
    intro c hc
    rw [String.toList_ofList] at hc
    have hmem : c ∈ Decimal.write n := List.mem_of_mem_head? hc
    simp [isOddBlank, Decimal.not_isBlank_of_mem_write hmem]
  cases x with
  | factor n => exact hwrite n
  | summand n => exact hwrite n
  | disabled b =>
    intro c hc
    cases b <;> obtain rfl := Option.some.inj hc <;> decide

/-- A written key holds an odd blank only if its name does. -/
theorem Override.Key.not_odd_of_mem_text {k : Key} (h : ∀ c ∈ k.name.toList, isOddBlank c = false) :
    ∀ c ∈ k.text.toList, isOddBlank c = false := by
  obtain ⟨scope, name, field⟩ := k
  have hscope : scope.text.toList.all (! isOddBlank ·) = true := by cases scope <;> decide
  have hfield : field.text.toList.all (! isOddBlank ·) = true := by cases field <;> decide
  simp only [List.all_eq_true, Bool.not_eq_true'] at hscope hfield
  intro c hc
  rw [toList_text] at hc
  rcases List.mem_append.mp hc with hc | hc
  · exact hscope c hc
  · rcases List.mem_append.mp hc with hc | hc
    · exact h c hc
    · rcases List.mem_cons.mp hc with rfl | hc
      · decide
      · exact hfield c hc

/-- The line of an override is read back unless its name holds an odd blank. -/
theorem Override.readable_toPair {o : Override} (h : ∀ c ∈ o.name.toList, isOddBlank c = false) :
    Properties.Readable o.toPair.1 o.toPair.2 :=
  ⟨Key.not_odd_of_mem_text h, o.setting.not_odd_head_text⟩

namespace Steered

variable {S S' : Type}

/-! ### Texts of strategies -/

/-- The text that the overrides are saved to. -/
def savedText (s : Steered S) : String := (s.store ∅).render

/-- A strategy with the overrides of a text. -/
def ofText (base : S) (text : String) : Steered S :=
  ((wrap base).load (Properties.parse text).toList).2

/-- The exported map is read back from its text if no name holds an odd blank. -/
theorem parse_savedText {s : Steered S}
    (h : ∀ o ∈ s.snapshot.overrides, ∀ c ∈ o.name.toList, isOddBlank c = false) :
    Properties.parse s.savedText = s.store ∅ := by
  refine (Properties.parse_render_iff _).mpr fun k v hv => ?_
  obtain ⟨o, ho, hpair⟩ :=
    mem_toList_store.mp (Std.ExtTreeMap.mem_toList_iff_getElem?_eq_some.mpr hv)
  have hsnap : o ∈ s.snapshot.overrides := Snapshot.mem_overrides.mpr (mem_storedOverrides.mp ho)
  have hread := Override.readable_toPair (h o hsnap)
  rw [hpair] at hread
  exact hread

/-- Saving and restoring loses the overrides with an empty name and nothing else, whatever the
strategy has been through, if no name holds an odd blank. -/
theorem snapshot_ofText_savedText (s : Steered S) (base : S')
    (h : ∀ o ∈ s.snapshot.overrides, ∀ c ∈ o.name.toList, isOddBlank c = false) :
    (ofText base s.savedText).snapshot = s.snapshot.named ∧
      ((ofText base s.savedText).snapshot = s.snapshot ↔
        ∀ o ∈ s.snapshot.overrides, o.name ≠ "") := by
  have hsnap : (ofText base s.savedText).snapshot = s.snapshot.named := by
    rw [ofText, parse_savedText h]
    exact snapshot_load_store s base
  refine ⟨hsnap, ?_⟩
  rw [hsnap]
  exact Snapshot.named_eq_self_iff

/-- Names with marks and spaces are restored, and a remembered name is not saved. -/
theorem snapshot_ofText_savedText_of_marks :
    let os : List Override := [⟨.rule, "#and left: β=1\n", .factor (-2)⟩,
      ⟨.group, "alpha.", .disabled true⟩]
    let s := (wrap (⟨.top⟩ : Indifferent Cost)).run
      [.set ⟨.rule, "#and left: β=1\n", .factor (-2)⟩, .set ⟨.group, "alpha.", .disabled true⟩,
        .offer ⟨"andLeft", some ["alpha."]⟩]
    "andLeft" ∈ s.gate.remembered ∧
      (∀ o ∈ s.snapshot.overrides, o ∈ os) ∧
      (∀ o ∈ s.snapshot.overrides, ∀ c ∈ o.name.toList, isOddBlank c = false) ∧
      (ofText (⟨.top⟩ : Indifferent Cost) s.savedText).snapshot = s.snapshot := by
  intro os s
  have hheld : ∀ o ∈ s.snapshot.overrides, o ∈ os := by
    intro o ho
    have hput : s.snapshot = ((wrap (⟨.top⟩ : Indifferent Cost)).putAll os).snapshot := by
      simp only [s, run_cons, run_nil, step, snapshot_admits]
      simp [snapshot, os]
    rw [Snapshot.mem_overrides, hput] at ho
    refine (mem_or_get?_of_get?_snapshot_putAll ho).resolve_right fun hempty => ?_
    have hnone : (wrap (⟨.top⟩ : Indifferent Cost)).snapshot.get? o.key = none :=
      Snapshot.get?_empty o.key
    rw [hnone] at hempty
    contradiction
  have hodd : ∀ o ∈ s.snapshot.overrides, ∀ c ∈ o.name.toList, isOddBlank c = false := by
    have hall : os.all (fun o => o.name.toList.all (! isOddBlank ·)) = true := by decide
    simp only [List.all_eq_true, Bool.not_eq_true'] at hall
    exact fun o ho => hall o (hheld o ho)
  have hnamed : ∀ o ∈ s.snapshot.overrides, o.name ≠ "" := fun o ho =>
    (by decide : ∀ o ∈ os, o.name ≠ "") o (hheld o ho)
  obtain ⟨-, hiff⟩ := snapshot_ofText_savedText s (⟨.top⟩ : Indifferent Cost) hodd
  exact ⟨by decide, hheld, hodd, hiff.mpr hnamed⟩

/-- An override with an empty name is lost, and so is one whose name holds an odd blank. -/
theorem lost_if_unnamed_or_odd :
    let lost (name : String) : Prop :=
      let s := (wrap (⟨.top⟩ : Indifferent Cost)).run [.set ⟨.rule, name, .factor 2⟩]
      (ofText (⟨.top⟩ : Indifferent Cost) s.savedText).snapshot ≠ s.snapshot
    lost "" ∧ lost "and\u00a0left" := by
  have differ {a b : Snapshot} (name : String)
      (h : a.adjustments.rules.factors[name]? ≠ b.adjustments.rules.factors[name]?) : a ≠ b := by
    rintro rfl
    exact h rfl
  exact ⟨differ "" (by decide +kernel), differ "and\u00a0left" (by decide +kernel)⟩

end Steered

end RuleSteering
