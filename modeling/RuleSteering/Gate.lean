import Std.Data.ExtTreeSet
import RuleSteering.Candidate
import RuleSteering.Override

/-!
# The admission gate

The gate turns a candidate away if its rule is disabled or if one of its groups is. A rule that
is turned away for its group is remembered: from then on its name is disabled, even for a
candidate that does not say which groups it is in.

* `Gate`, the disabled names, the disabled groups, and the names that are disabled only because
  they were remembered;
* `Gate.rejects` answers for a candidate and `Gate.after` is the gate that has seen it;
* `Gate.setRule` and `Gate.setGroup` are the edits. An edit of a rule makes its name explicit,
  and enabling a group forgets every remembered name;
* `Gate.WellFormed` says that remembered names are disabled, which every operation keeps.
-/

namespace RuleSteering

/-- The overrides that disable the names of a set. -/
def Override.disabling (scope : Scope) (names : Std.ExtTreeSet String) : List Override :=
  names.toList.map fun name => ⟨scope, name, .disabled true⟩

/-- The disabled names and groups, and the names that were remembered for their group. -/
structure Gate where
  disabled : Std.ExtTreeSet String := ∅
  groups : Std.ExtTreeSet String := ∅
  remembered : Std.ExtTreeSet String := ∅
  deriving DecidableEq

namespace Gate

instance : EmptyCollection Gate := ⟨{}⟩

/-! ### Candidates -/

/-- Whether one of the groups of a candidate is disabled. -/
def groupDisabled (g : Gate) (c : Candidate) : Bool :=
  c.groupList.any (· ∈ g.groups)

/-- Whether a candidate is turned away. -/
def rejects (g : Gate) (c : Candidate) : Bool :=
  c.name ∈ g.disabled || g.groupDisabled c

/-- The gate after it has seen a candidate. -/
def after (g : Gate) (c : Candidate) : Gate :=
  if c.name ∈ g.disabled then g
  else if g.groupDisabled c then
    { g with
      disabled := g.disabled.insert c.name
      remembered := g.remembered.insert c.name }
  else g

theorem after_eq_of_mem {g : Gate} {c : Candidate} (h : c.name ∈ g.disabled) : g.after c = g := by
  simp [after, h]

/-- Only a candidate that is turned away can change the gate. -/
theorem after_eq_of_not_rejects {g : Gate} {c : Candidate} (h : g.rejects c = false) :
    g.after c = g := by
  simp only [rejects, Bool.or_eq_false_iff, decide_eq_false_iff_not] at h
  simp [after, h.1, h.2]

@[simp] theorem groups_after (g : Gate) (c : Candidate) : (g.after c).groups = g.groups := by
  unfold after
  split
  · rfl
  · split <;> rfl

/-! ### Edits -/

/-- Disable or enable a rule by its name. -/
def setRule (g : Gate) (name : String) : Bool → Gate
  | true =>
    { g with disabled := g.disabled.insert name, remembered := g.remembered.erase name }
  | false =>
    { g with disabled := g.disabled.erase name, remembered := g.remembered.erase name }

/-- Forget every remembered name. -/
def forget (g : Gate) : Gate :=
  { g with disabled := g.disabled \ g.remembered, remembered := ∅ }

/-- Disable or enable a group; enabling a disabled group forgets the remembered names. -/
def setGroup (g : Gate) (group : String) : Bool → Gate
  | true => { g with groups := g.groups.insert group }
  | false => if group ∈ g.groups then { g.forget with groups := g.groups.erase group } else g

/-- Take over a disabled flag; factors and summands are no matter of the gate. -/
def set? (g : Gate) (o : Override) : Option Gate :=
  match o.scope, o.setting with
  | .rule, .disabled b => some (g.setRule o.name b)
  | .group, .disabled b => some (g.setGroup o.name b)
  | _, _ => none

/-- Take over an override if it is a disabled flag. -/
def set (g : Gate) (o : Override) : Gate :=
  (g.set? o).getD g

/-! ### Views -/

/-- The names that were disabled by an edit. -/
def explicitRules (g : Gate) : Std.ExtTreeSet String :=
  g.disabled \ g.remembered

/-- Whether nothing is disabled but remembered names. -/
def isEmpty (g : Gate) : Bool :=
  g.groups.isEmpty && g.disabled.size == g.remembered.size

/-- What is disabled by an edit, the rules before the groups. -/
def overrides (g : Gate) : List Override :=
  Override.disabling .rule g.explicitRules ++ Override.disabling .group g.groups

/-! ### Remembered names are disabled -/

/-- Remembered names are disabled. -/
def WellFormed (g : Gate) : Prop :=
  ∀ name ∈ g.remembered, name ∈ g.disabled

theorem wellFormed_empty : WellFormed ∅ := by
  intro name h
  exact absurd h Std.ExtTreeSet.not_mem_empty

namespace WellFormed

variable {g : Gate}

theorem after (h : g.WellFormed) (c : Candidate) : (g.after c).WellFormed := by
  unfold Gate.after
  split
  · exact h
  · split
    · intro name hn
      rcases Std.ExtTreeSet.mem_insert.mp hn with hn | hn
      · exact Std.ExtTreeSet.mem_insert.mpr (.inl hn)
      · exact Std.ExtTreeSet.mem_insert.mpr (.inr (h name hn))
    · exact h

theorem setRule (h : g.WellFormed) (name : String) (b : Bool) :
    (g.setRule name b).WellFormed := by
  intro n hn
  cases b with
  | true => exact Std.ExtTreeSet.mem_insert.mpr (.inr (h n (Std.ExtTreeSet.mem_erase.mp hn).2))
  | false =>
    obtain ⟨hne, hn⟩ := Std.ExtTreeSet.mem_erase.mp hn
    exact Std.ExtTreeSet.mem_erase.mpr ⟨hne, h n hn⟩

theorem setGroup (h : g.WellFormed) (group : String) (b : Bool) :
    (g.setGroup group b).WellFormed := by
  cases b with
  | true => exact h
  | false =>
    simp only [Gate.setGroup]
    split
    · intro n hn
      exact absurd hn Std.ExtTreeSet.not_mem_empty
    · exact h

end WellFormed

end Gate

end RuleSteering
