import RuleSteering.Text.Decimal

/-!
# Faults of a written override

Why a key and its value are no override, and the wording of it. A fault names the key and the
value as they were given, with the blanks around them.
-/

namespace RuleSteering.Override

/-- Why a key and a value are no override. -/
inductive Error
  | unknownScope (key : String)
  | missingField (key : String)
  | unknownField (key field : String)
  | emptyName (key : String)
  | invalidInteger (key value : String) (flaw : Text.Decimal.Flaw)
  | invalidBool (key value : String)
  deriving DecidableEq, Repr

/-- The wording of a fault. -/
def Error.message : Error → String
  | unknownScope key => s!"unknown key prefix: {key}"
  | missingField key => s!"key has no field segment: {key}"
  | unknownField key field => s!"unknown field `{field}` in key {key}"
  | emptyName key => s!"empty name in key {key}"
  | invalidInteger key value flaw => s!"invalid integer `{value}` for {key}: {flaw.message}"
  | invalidBool key value => s!"invalid boolean `{value}` for {key}"

end RuleSteering.Override
