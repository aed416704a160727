import RuleSteering.Proofs.Json.Form
import RuleSteering.Proofs.Snapshot.Lookup

/-!
# What is written is read back

Whatever a value has been read from, it is written in one form, and what has this form is read as the value
that it was written for. So nothing is lost if a snapshot is handed over from one strategy to another as a JSON
value (`structured_export_lossless`).

* `ReadsBack`, a type whose values are read from what they are written as, and its instances for the types
  that records are made of;
* `ReadsByPosition`, a record is read from its fields alone, by their names or in their order;
* `IsLossless`, a type that is read back, with the form of what it is written as (`Written.isLossless`).
-/

namespace RuleSteering.Json

/-! ### The members of an object -/

theorem member?_eq_some_of_mem {members : List (String × Json)} (hnodup : (members.map Prod.fst).Nodup)
    {m : String × Json} (h : m ∈ members) : member? m.1 members = some m.2 := by
  obtain ⟨before, after, hsplit⟩ := List.append_of_mem (List.mem_reverse.mpr h)
  have hother : ∀ p ∈ before, m.1 ≠ p.1 := by
    rw [← List.nodup_reverse, ← List.map_reverse, hsplit, List.map_append, List.map_cons,
      List.nodup_middle, List.nodup_cons] at hnodup
    intro p hp heq
    rw [heq] at hnodup
    exact hnodup.1 (List.mem_append_left _ (List.mem_map_of_mem hp))
  rw [member?, List.lookup_eq_some_iff]
  exact ⟨before, after, hsplit, fun p hp => bne_iff_ne.mpr (hother p hp)⟩

/-- The values of an object that holds nothing but the given fields. -/
theorem map_member?_zip {names : List String} {items : List Json} (hnodup : names.Nodup)
    (hlength : names.length = items.length) :
    names.map (fun name => member? name (names.zip items)) = items.map some := by
  have hnames : (names.zip items).map Prod.fst = names := List.map_fst_zip hlength.le
  have hitems : (names.zip items).map Prod.snd = items := List.map_snd_zip hlength.ge
  have hvalues : (names.zip items).map (fun m => member? m.1 (names.zip items)) =
      (names.zip items).map fun m => some m.2 :=
    List.map_congr_left fun m hm => member?_eq_some_of_mem (by rwa [hnames]) hm
  calc names.map (fun name => member? name (names.zip items))
      = ((names.zip items).map Prod.fst).map fun name => member? name (names.zip items) := by rw [hnames]
    _ = ((names.zip items).map Prod.snd).map some := by
      rw [List.map_map, List.map_map]
      exact hvalues
    _ = items.map some := by rw [hitems]

/-! ### Values are read back -/

/-- A value is read from what it is written as. -/
class ReadsBack (α : Type) [JsonFormat α] : Prop where
  ofJson?_toJson (a : α) : ofJson? (toJson a) = some a

export ReadsBack (ofJson?_toJson)

attribute [simp] ofJson?_toJson

instance : ReadsBack String := ⟨fun _ => rfl⟩

instance : ReadsBack Bool := ⟨fun _ => rfl⟩

instance : ReadsBack Int64 where
  ofJson?_toJson n := by
    show (if _ then _ else _) = _
    rw [if_pos ⟨n.minValue_le_toInt, n.toInt_le⟩, n.ofInt_toInt]

theorem mapM_map_eq_some {α β : Type} {read : β → Option α} {write : α → β}
    (h : ∀ a, read (write a) = some a) (as : List α) : (as.map write).mapM read = some as := by
  induction as with
  | nil => rfl
  | cons a as ih => simp [h, ih]

section Items

variable {α : Type} [JsonFormat α] [ReadsBack α]

instance : ReadsBack (List α) where
  ofJson?_toJson := mapM_map_eq_some ofJson?_toJson

/-- An optional value is read back if no value is written as `null`. -/
theorem readsBack_option (h : ∀ a : α, toJson a ≠ null) : ReadsBack (Option α) where
  ofJson?_toJson a := by
    cases a with
    | none => rfl
    | some a =>
      have hread : option? (toJson a) = (ofJson? (toJson a)).map (some : α → Option α) := by
        cases hj : toJson a with
        | null => exact absurd hj (h a)
        | _ => rfl
      rw [ofJson?_toJson] at hread
      exact hread

instance : ReadsBack (Option (List α)) :=
  readsBack_option fun _ => Json.noConfusion

instance : ReadsBack (Std.ExtTreeMap String α) where
  ofJson?_toJson m := by
    have hread : (m.toList.map fun e => (e.1, toJson e.2)).mapM
        (fun e : String × Json => (ofJson? e.2).map fun a : α => (e.1, a)) = some m.toList :=
      mapM_map_eq_some (fun e => by simp) _
    show table? (object _) = _
    rw [table?, hread, Option.map_some, Text.ofList_toList]

end Items

instance : ReadsBack (Std.ExtTreeSet String) where
  ofJson?_toJson names := by
    show (ofJson? (toJson names.toList)).map _ = _
    rw [ofJson?_toJson, Option.map_some, Text.ofList_toList_names]

instance : ReadsBack Cost where
  ofJson?_toJson c := by
    cases c with
    | finite n => exact congrArg (Option.map Cost.finite) (ofJson?_toJson n)
    | top => rfl

/-! ### Records -/

/-- A record is read from an array of the values of its fields, and from every object in which the fields
have these values, wherever they stand in it and whatever else it holds. -/
structure ReadsByPosition (α : Type) [JsonFormat α] (names : List String) (values : α → List Json) :
    Prop where
  written : ∀ a, toJson a = object (names.zip (values a))
  reads_values : ∀ a, ofJson? (array (values a)) = some a
  object_eq_array : ∀ members items, names.map (fun name => member? name members) = items.map some →
    (ofJson? (object members) : Option α) = ofJson? (array items)

theorem ReadsByPosition.readsBack {α : Type} [JsonFormat α] {names : List String}
    {values : α → List Json} (h : ReadsByPosition α names values) (hnodup : names.Nodup)
    (hlength : ∀ a, names.length = (values a).length) : ReadsBack α where
  ofJson?_toJson a := by
    rw [h.written, h.object_eq_array _ _ (map_member?_zip hnodup (hlength a)), h.reads_values]

/-- A reader that looks at nothing but the fields does not tell an object from an array. -/
theorem ofJson?_object_eq_array {α : Type} [JsonFormat α] {names : List String}
    {build : List (Option Json) → Option α} (hread : ∀ j, ofJson? j = (fields? names j).bind build)
    (members : List (String × Json)) (items : List Json)
    (h : names.map (fun name => member? name members) = items.map some) :
    (ofJson? (object members) : Option α) = ofJson? (array items) := by
  have hlength : items.length = names.length := by
    simpa using (congrArg List.length h).symm
  rw [hread, hread, fields?_object, fields?_array hlength, h]

theorem readsByPosition_candidate :
    ReadsByPosition Candidate (candidateFields.map Prod.fst) candidateValues where
  written _ := rfl
  reads_values c := by
    show candidate? _ = _
    simp [candidate?, candidateValues, fields?]
  object_eq_array := ofJson?_object_eq_array fun _ => rfl

theorem readsByPosition_row : ReadsByPosition Row (rowFields.map Prod.fst) rowValues where
  written _ := rfl
  reads_values r := by
    show row? _ = _
    simp [row?, rowValues, fields?]
  object_eq_array := ofJson?_object_eq_array fun _ => rfl

theorem readsByPosition_snapshot :
    ReadsByPosition Snapshot (snapshotFields.map Prod.fst) snapshotValues where
  written _ := rfl
  reads_values s := by
    show snapshot? _ = _
    simp [snapshot?, snapshotValues, fields?]
  object_eq_array := ofJson?_object_eq_array fun _ => rfl

instance : ReadsBack Candidate :=
  readsByPosition_candidate.readsBack (by decide) fun _ => rfl

instance : ReadsBack Row :=
  readsByPosition_row.readsBack (by decide) fun _ => rfl

instance : ReadsBack Snapshot :=
  readsByPosition_snapshot.readsBack (by decide) fun _ => rfl

/-! ### Nothing is lost -/

/-- A value is read from what it is written as, and all that it is read from is rewritten in the one form
that stays the same if it is read and written once more. -/
structure IsLossless (α : Type) [JsonFormat α] (Canonical : Json → Prop) : Prop where
  reads_written : ∀ a : α, ofJson? (toJson a) = some a
  rewrites : ∀ j (a : α), ofJson? j = some a → Canonical (toJson a) ∧ ofJson? (toJson a) = some a
  canonical_iff : ∀ j, Canonical j ↔ (ofJson? j : Option α).map toJson = some j

theorem Written.isLossless {α : Type} [JsonFormat α] [ReadsBack α] {P : Json → Prop}
    (h : Written α P) : IsLossless α P where
  reads_written := ofJson?_toJson
  rewrites _ a _ := ⟨h.form_toJson a, ofJson?_toJson a⟩
  canonical_iff j := by
    rw [h j]
    constructor
    · rintro ⟨a, rfl⟩
      rw [ofJson?_toJson, Option.map_some]
    · intro hj
      obtain ⟨a, -, ha⟩ := Option.map_eq_some_iff.mp hj
      exact ⟨a, ha⟩

end RuleSteering.Json
