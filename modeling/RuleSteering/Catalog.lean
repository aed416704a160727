import Std.Data.ExtTreeSet
import RuleSteering.Candidate

/-!
# Catalogues of names

The names that occur in a collection of candidates, each once and in ascending order, for an
editor that shows one row for each of them.
-/

namespace RuleSteering

/-- The rule names and the group names of a collection of candidates. -/
structure Catalog where
  ruleNames : List String
  groupNames : List String
  deriving DecidableEq, Repr

namespace Catalog

/-- Collect the names of all candidates; one without group metadata adds only its rule. -/
def ofCandidates (cs : List Candidate) : Catalog where
  ruleNames := (Std.ExtTreeSet.ofList (cs.map (·.name))).toList
  groupNames := (Std.ExtTreeSet.ofList (cs.flatMap (·.groupList))).toList

end Catalog

end RuleSteering
