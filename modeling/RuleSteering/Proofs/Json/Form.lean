import Mathlib.Data.List.Forall2
import Mathlib.Data.Set.List
import RuleSteering.Json.Format
import RuleSteering.Proofs.Text.Order

/-!
# The forms that values are written in

A value may be read from several JSON values, but it is written as one, and what this one looks like is said
here without the writer: an integer fits into 64 bits, the texts of a set and the keys of a table stand in
ascending order, and a record has all of its fields, in the order in which they are declared, and no more.

* `IsText`, `IsFlag`, `IsInt64`, `IsListOf`, `IsOptional`, `IsSetOfTexts`, `IsTableOf`, `IsRecord`, the
  forms, and from them `IsCost`, `candidateFields`, `rowFields` and `snapshotFields`;
* `Written`, the values of a type are written in all JSON values of a form and in no others.
-/

namespace RuleSteering.Json

open Text

/-! ### Forms -/

/-- A text. -/
def IsText (j : Json) : Prop :=
  ∃ s, j = string s

/-- A flag. -/
def IsFlag (j : Json) : Prop :=
  ∃ b, j = bool b

/-- An integer of at most 64 bits. -/
def IsInt64 (j : Json) : Prop :=
  ∃ n, j = integer n ∧ Int64.minValue.toInt ≤ n ∧ n ≤ Int64.maxValue.toInt

/-- An array of items that all have the form `P`. -/
def IsListOf (P : Json → Prop) (j : Json) : Prop :=
  ∃ items, j = array items ∧ ∀ item ∈ items, P item

/-- A value of the form `P`, or `null`. -/
def IsOptional (P : Json → Prop) (j : Json) : Prop :=
  j = null ∨ P j

/-- An array of different texts in ascending order. -/
def IsSetOfTexts (j : Json) : Prop :=
  ∃ names, j = array (names.map string) ∧ Ascending names

/-- An object with different names in ascending order, whose values have the form `P`. -/
def IsTableOf (P : Json → Prop) (j : Json) : Prop :=
  ∃ members, j = object members ∧ Ascending (members.map Prod.fst) ∧ ∀ m ∈ members, P m.2

/-- An object with exactly the given fields in their order, each value in the form of its field. -/
def IsRecord (fields : List (String × (Json → Prop))) (j : Json) : Prop :=
  ∃ items, j = object ((fields.map Prod.fst).zip items) ∧
    List.Forall₂ (fun field item => field.2 item) fields items

/-- The name of the unbounded cost, or an object with the value of a finite one. -/
def IsCost (j : Json) : Prop :=
  j = string "Top" ∨ IsRecord [("Finite", IsInt64)] j

/-! ### The fields of the records and what is written in them -/

def candidateFields : List (String × (Json → Prop)) :=
  [("name", IsText), ("groups", IsOptional (IsListOf IsText))]

def candidateValues (c : Candidate) : List Json :=
  [toJson c.name, toJson c.groups]

def rowFields : List (String × (Json → Prop)) :=
  [("key", IsText), ("factor", IsInt64), ("summand", IsInt64), ("disabled", IsFlag)]

def rowValues (r : Row) : List Json :=
  [toJson r.key, toJson r.factor, toJson r.summand, toJson r.disabled]

def snapshotFields : List (String × (Json → Prop)) :=
  [("rule_factors", IsTableOf IsInt64), ("rule_summands", IsTableOf IsInt64),
    ("group_factors", IsTableOf IsInt64), ("group_summands", IsTableOf IsInt64),
    ("disabled_rules", IsSetOfTexts), ("disabled_groups", IsSetOfTexts)]

def snapshotValues (s : Snapshot) : List Json :=
  [toJson s.adjustments.rules.factors, toJson s.adjustments.rules.summands,
    toJson s.adjustments.groups.factors, toJson s.adjustments.groups.summands, toJson s.disabledRules,
    toJson s.disabledGroups]

/-! ### What is written in a form -/

/-- The JSON values of the form `P` are those that the values of a type are written as. -/
def Written (α : Type) [JsonFormat α] (P : Json → Prop) : Prop :=
  ∀ j, P j ↔ ∃ a : α, toJson a = j

theorem written_text : Written String IsText := by
  intro j
  simp only [IsText, eq_comm (a := j)]
  rfl

theorem written_flag : Written Bool IsFlag := by
  intro j
  simp only [IsFlag, eq_comm (a := j)]
  rfl

theorem written_int64 : Written Int64 IsInt64 := by
  intro j
  constructor
  · rintro ⟨n, rfl, hmin, hmax⟩
    exact ⟨.ofInt n, congrArg integer (Int64.toInt_ofInt_of_le hmin (Int.lt_add_one_of_le hmax))⟩
  · rintro ⟨n, rfl⟩
    exact ⟨n.toInt, rfl, n.minValue_le_toInt, n.toInt_le⟩

section Items

variable {α : Type} [JsonFormat α] {P : Json → Prop}

theorem Written.form_toJson (h : Written α P) (a : α) : P (toJson a) :=
  (h _).mpr ⟨a, rfl⟩

theorem Written.list (h : Written α P) : Written (List α) (IsListOf P) := by
  intro j
  constructor
  · rintro ⟨items, rfl, hitems⟩
    have hwritten : items ∈ Set.range (List.map (toJson : α → Json)) := by
      rw [Set.range_list_map]
      exact fun item hitem => (h item).mp (hitems item hitem)
    obtain ⟨as, rfl⟩ := hwritten
    exact ⟨as, rfl⟩
  · rintro ⟨as, rfl⟩
    exact ⟨as.map toJson, rfl, List.forall_mem_map.mpr fun a _ => h.form_toJson a⟩

theorem Written.optional (h : Written α P) : Written (Option α) (IsOptional P) := by
  intro j
  constructor
  · rintro (rfl | hj)
    · exact ⟨none, rfl⟩
    · obtain ⟨a, rfl⟩ := (h j).mp hj
      exact ⟨some a, rfl⟩
  · rintro ⟨a, rfl⟩
    cases a with
    | none => exact .inl rfl
    | some a => exact .inr (h.form_toJson a)

/-- The keys decide the order, and nothing is lost by writing a table since no key is repeated. -/
theorem Written.table (h : Written α P) : Written (Std.ExtTreeMap String α) (IsTableOf P) := by
  intro j
  constructor
  · rintro ⟨members, rfl, hkeys, hvalues⟩
    have hwritten : members ∈ Set.range (List.map fun e : String × α => (e.1, toJson e.2)) := by
      rw [Set.range_list_map]
      rintro ⟨name, item⟩ hmem
      obtain ⟨a, rfl⟩ := (h item).mp (hvalues _ hmem)
      exact ⟨(name, a), rfl⟩
    obtain ⟨entries, rfl⟩ := hwritten
    rw [List.map_map] at hkeys
    exact ⟨.ofList entries, congrArg _ (congrArg _ (toList_ofList_entries hkeys))⟩
  · rintro ⟨m, rfl⟩
    refine ⟨_, rfl, ?_, List.forall_mem_map.mpr fun e _ => h.form_toJson e.2⟩
    rw [List.map_map]
    exact ascending_fst_toList m

end Items

theorem written_setOfTexts : Written (Std.ExtTreeSet String) IsSetOfTexts := by
  intro j
  constructor
  · rintro ⟨names, rfl, hnames⟩
    exact ⟨.ofList names, congrArg (fun l => toJson l) (toList_ofList_names hnames)⟩
  · rintro ⟨names, rfl⟩
    exact ⟨names.toList, rfl, ascending_toList names⟩

/-! ### Costs and records -/

theorem written_cost : Written Cost IsCost := by
  intro j
  constructor
  · rintro (rfl | ⟨_, rfl, _ | ⟨hvalue, _ | _⟩⟩)
    · exact ⟨.top, rfl⟩
    · obtain ⟨n, rfl⟩ := (written_int64 _).mp hvalue
      exact ⟨.finite n, rfl⟩
  · rintro ⟨c, rfl⟩
    cases c with
    | finite n => exact .inr ⟨[toJson n], rfl, .cons (written_int64.form_toJson n) .nil⟩
    | top => exact .inl rfl

theorem written_candidate : Written Candidate (IsRecord candidateFields) := by
  intro j
  constructor
  · rintro ⟨_, rfl, _ | ⟨hname, _ | ⟨hgroups, _ | _⟩⟩⟩
    obtain ⟨name, rfl⟩ := (written_text _).mp hname
    obtain ⟨groups, rfl⟩ := (written_text.list.optional _).mp hgroups
    exact ⟨⟨name, groups⟩, rfl⟩
  · rintro ⟨c, rfl⟩
    exact ⟨candidateValues c, rfl, .cons (written_text.form_toJson _)
      (.cons (written_text.list.optional.form_toJson _) .nil)⟩

theorem written_row : Written Row (IsRecord rowFields) := by
  intro j
  constructor
  · rintro ⟨_, rfl, _ | ⟨hkey, _ | ⟨hfactor, _ | ⟨hsummand, _ | ⟨hdisabled, _ | _⟩⟩⟩⟩⟩
    obtain ⟨key, rfl⟩ := (written_text _).mp hkey
    obtain ⟨factor, rfl⟩ := (written_int64 _).mp hfactor
    obtain ⟨summand, rfl⟩ := (written_int64 _).mp hsummand
    obtain ⟨disabled, rfl⟩ := (written_flag _).mp hdisabled
    exact ⟨⟨key, factor, summand, disabled⟩, rfl⟩
  · rintro ⟨r, rfl⟩
    exact ⟨rowValues r, rfl, .cons (written_text.form_toJson _)
      (.cons (written_int64.form_toJson _) (.cons (written_int64.form_toJson _)
        (.cons (written_flag.form_toJson _) .nil)))⟩

theorem written_snapshot : Written Snapshot (IsRecord snapshotFields) := by
  have htable := written_int64.table
  have hset := written_setOfTexts
  intro j
  constructor
  · rintro ⟨_, rfl, _ | ⟨hrf, _ | ⟨hrs, _ | ⟨hgf, _ | ⟨hgs, _ | ⟨hdr, _ | ⟨hdg, _ | _⟩⟩⟩⟩⟩⟩⟩
    obtain ⟨ruleFactors, rfl⟩ := (htable _).mp hrf
    obtain ⟨ruleSummands, rfl⟩ := (htable _).mp hrs
    obtain ⟨groupFactors, rfl⟩ := (htable _).mp hgf
    obtain ⟨groupSummands, rfl⟩ := (htable _).mp hgs
    obtain ⟨disabledRules, rfl⟩ := (hset _).mp hdr
    obtain ⟨disabledGroups, rfl⟩ := (hset _).mp hdg
    exact ⟨⟨⟨⟨groupFactors, groupSummands⟩, ⟨ruleFactors, ruleSummands⟩⟩, disabledRules,
      disabledGroups⟩, rfl⟩
  · rintro ⟨s, rfl⟩
    exact ⟨snapshotValues s, rfl, .cons (htable.form_toJson _) (.cons (htable.form_toJson _)
      (.cons (htable.form_toJson _) (.cons (htable.form_toJson _) (.cons (hset.form_toJson _)
        (.cons (hset.form_toJson _) .nil)))))⟩

end RuleSteering.Json
