import RuleSteering.Steered.Basic

/-!
# Rows of an override editor

A row shows the effective values of one rule or group: its factor, its summand, and whether it is
disabled, be it by an edit or, for a rule, because it is remembered.

Writing a row back sets only the values that differ from the effective ones at that moment, so
that a row which nobody edited changes nothing and makes no remembered name explicit.
-/

namespace RuleSteering

/-- The effective values of one rule or group. -/
structure Row where
  key : String
  factor : Int64
  summand : Int64
  disabled : Bool
  deriving DecidableEq, Repr

namespace Row

/-- The settings by which the row `new` differs from the row `old`. -/
def changes (old new : Row) : List Override.Setting :=
  (if old.factor = new.factor then [] else [.factor new.factor]) ++
    (if old.summand = new.summand then [] else [.summand new.summand]) ++
    (if old.disabled = new.disabled then [] else [.disabled new.disabled])

@[simp] theorem changes_self (r : Row) : r.changes r = [] := by
  simp [changes]

end Row

namespace Steered

variable {S : Type}

/-- The row of a rule. -/
def ruleRow (s : Steered S) (name : String) : Row where
  key := name
  factor := s.adjustments.rules.factor name
  summand := s.adjustments.rules.summand name
  disabled := name ∈ s.gate.disabled

/-- The row of a group. -/
def groupRow (s : Steered S) (group : String) : Row where
  key := group
  factor := s.adjustments.groups.factor group
  summand := s.adjustments.groups.summand group
  disabled := group ∈ s.gate.groups

/-- Edit one rule or group by a list of settings. -/
def setAll (s : Steered S) (scope : Override.Scope) (name : String)
    (settings : List Override.Setting) : Steered S :=
  settings.foldl (fun s setting => s.set ⟨scope, name, setting⟩) s

/-- Write the row of a rule back. -/
def writeRuleRow (s : Steered S) (r : Row) : Steered S :=
  s.setAll .rule r.key ((s.ruleRow r.key).changes r)

/-- Write the row of a group back. -/
def writeGroupRow (s : Steered S) (r : Row) : Steered S :=
  s.setAll .group r.key ((s.groupRow r.key).changes r)

@[simp] theorem setAll_nil (s : Steered S) (scope : Override.Scope) (name : String) :
    s.setAll scope name [] = s := rfl

@[simp] theorem setAll_cons (s : Steered S) (scope : Override.Scope) (name : String)
    (setting : Override.Setting) (settings : List Override.Setting) :
    s.setAll scope name (setting :: settings) =
      (s.set ⟨scope, name, setting⟩).setAll scope name settings := rfl

@[simp] theorem key_ruleRow (s : Steered S) (name : String) : (s.ruleRow name).key = name := rfl

@[simp] theorem key_groupRow (s : Steered S) (group : String) :
    (s.groupRow group).key = group := rfl

/-- A rule row that nobody edited changes nothing. -/
@[simp] theorem writeRuleRow_ruleRow (s : Steered S) (name : String) :
    s.writeRuleRow (s.ruleRow name) = s := by
  simp [writeRuleRow]

/-- A group row that nobody edited changes nothing. -/
@[simp] theorem writeGroupRow_groupRow (s : Steered S) (group : String) :
    s.writeGroupRow (s.groupRow group) = s := by
  simp [writeGroupRow]

end Steered

end RuleSteering
