/-!
# Candidates

A candidate is the application of a rule that the engine offers. It names its rule and, if the
rule carries group metadata at all, the groups of the rule in the order of their declaration.
-/

namespace RuleSteering

/-- A rule application with the name of its rule and the groups of the rule. -/
structure Candidate where
  name : String
  groups : Option (List String) := none
  deriving DecidableEq, Repr

namespace Candidate

/-- The groups that a candidate carries, none without metadata. -/
def groupList (c : Candidate) : List String :=
  c.groups.getD []

/-- The first group, or the empty text without one. -/
def primaryGroup (c : Candidate) : String :=
  c.groupList.headD ""

@[simp] theorem groupList_none (name : String) : groupList ⟨name, none⟩ = [] := rfl

@[simp] theorem groupList_some (name : String) (gs : List String) :
    groupList ⟨name, some gs⟩ = gs := rfl

theorem primaryGroup_eq_of_groupList_nil {c : Candidate} (h : c.groupList = []) :
    c.primaryGroup = "" := by
  simp [primaryGroup, h]

end Candidate

end RuleSteering
