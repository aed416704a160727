import RuleSteering.Json
import RuleSteering.Steered.Row

/-!
# Structured formats

How candidates, costs, rows and snapshots are written as JSON values and read back. No value is
taken for one of another type: a text is no number, and a number is no flag.

* texts, flags and integers are plain values, and integers have to fit into 64 bits;
* lists and sets are arrays, and sets are written in ascending order; tables are objects; an
  optional value that is absent is `null`;
* a cost is the text `Top` or an object with the one member `Finite`;
* a candidate, a row and a snapshot are objects with one member for each field. They are read from
  an array of all fields too, in the order in which the fields are listed here.
-/

namespace RuleSteering

/-- A type with a structured format. -/
class JsonFormat (α : Type) where
  toJson : α → Json
  ofJson? : Json → Option α

export JsonFormat (toJson ofJson?)

namespace Json

/-! ### Plain values -/

/-- The text of a value that is a text. -/
def string? : Json → Option String
  | string s => some s
  | _ => none

/-- The flag of a value that is a flag. -/
def bool? : Json → Option Bool
  | bool b => some b
  | _ => none

/-- The integer of a value that is an integer of at most 64 bits. -/
def int64? : Json → Option Int64
  | integer n =>
    if Int64.minValue.toInt ≤ n ∧ n ≤ Int64.maxValue.toInt then some (Int64.ofInt n) else none
  | _ => none

instance : JsonFormat String := ⟨string, string?⟩

instance : JsonFormat Bool := ⟨bool, bool?⟩

instance : JsonFormat Int64 := ⟨fun n => integer n.toInt, int64?⟩

/-! ### Lists, sets and tables -/

variable {α : Type} [JsonFormat α]

/-- The items of an array, all of which have to be readable. -/
def list? : Json → Option (List α)
  | array items => items.mapM ofJson?
  | _ => none

/-- The value, or nothing for `null`. -/
def option? : Json → Option (Option α)
  | null => some none
  | j => (ofJson? j).map some

/-- The members of an object, all of which have to be readable. -/
def table? : Json → Option (Std.ExtTreeMap String α)
  | object members =>
    (members.mapM fun m : String × Json => (ofJson? m.2).map fun a => (m.1, a)).map
      fun entries => .ofList entries
  | _ => none

instance : JsonFormat (List α) := ⟨fun as => array (as.map toJson), list?⟩

instance : JsonFormat (Option α) where
  toJson
    | none => null
    | some a => toJson a
  ofJson? := option?

instance : JsonFormat (Std.ExtTreeMap String α) where
  toJson m := object (m.toList.map fun (name, a) => (name, toJson a))
  ofJson? := table?

instance : JsonFormat (Std.ExtTreeSet String) where
  toJson s := toJson s.toList
  ofJson? j := (ofJson? j : Option (List String)).map fun names => .ofList names

/-! ### Costs -/

/-- Read a cost; the name of the unbounded cost may also stand before `null`. -/
def cost? : Json → Option Cost
  | string "Top" => some .top
  | object [("Top", null)] => some .top
  | object [("Finite", j)] => (int64? j).map .finite
  | _ => none

instance : JsonFormat Cost where
  toJson
    | .finite n => object [("Finite", toJson n)]
    | .top => string "Top"
  ofJson? := cost?

/-! ### Records -/

/-- Read a candidate; without the field `groups` it carries no group metadata. -/
def candidate? (j : Json) : Option Candidate := do
  match ← fields? ["name", "groups"] j with
  | [some name, groups] =>
    return { name := ← ofJson? name, groups := ← ofJson? (groups.getD null) }
  | _ => none

instance : JsonFormat Candidate where
  toJson c := object [("name", toJson c.name), ("groups", toJson c.groups)]
  ofJson? := candidate?

/-- Read a row. -/
def row? (j : Json) : Option Row := do
  match ← fields? ["key", "factor", "summand", "disabled"] j with
  | [some key, some factor, some summand, some disabled] =>
    return {
      key := ← ofJson? key
      factor := ← ofJson? factor
      summand := ← ofJson? summand
      disabled := ← ofJson? disabled }
  | _ => none

instance : JsonFormat Row where
  toJson r :=
    object [("key", toJson r.key), ("factor", toJson r.factor), ("summand", toJson r.summand),
      ("disabled", toJson r.disabled)]
  ofJson? := row?

/-- Read a snapshot. -/
def snapshot? (j : Json) : Option Snapshot := do
  match ← fields? ["rule_factors", "rule_summands", "group_factors", "group_summands",
      "disabled_rules", "disabled_groups"] j with
  | [some ruleFactors, some ruleSummands, some groupFactors, some groupSummands,
      some disabledRules, some disabledGroups] =>
    let rules : LinearTable :=
      { factors := ← ofJson? ruleFactors, summands := ← ofJson? ruleSummands }
    let groups : LinearTable :=
      { factors := ← ofJson? groupFactors, summands := ← ofJson? groupSummands }
    return {
      adjustments := { groups, rules }
      disabledRules := ← ofJson? disabledRules
      disabledGroups := ← ofJson? disabledGroups }
  | _ => none

instance : JsonFormat Snapshot where
  toJson s :=
    object [
      ("rule_factors", toJson s.adjustments.rules.factors),
      ("rule_summands", toJson s.adjustments.rules.summands),
      ("group_factors", toJson s.adjustments.groups.factors),
      ("group_summands", toJson s.adjustments.groups.summands),
      ("disabled_rules", toJson s.disabledRules),
      ("disabled_groups", toJson s.disabledGroups)]
  ofJson? := snapshot?

end Json

end RuleSteering
