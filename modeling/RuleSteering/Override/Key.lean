import RuleSteering.Override.Error

/-!
# Keys of overrides

A key says which value of which rule or group is overridden. It is written as a scope, a name
and a field: `rule.andLeft.factor`, `ruleset.simplify.disabled`.

The name may hold dots, so the field is what follows the last dot, and the name is all that lies
between the scope and that dot. Reading a key reports, in this order, an unknown scope, a
missing field, an unknown field and an empty name.
-/

namespace RuleSteering.Override

/-- Whether an override is about a rule or about a group of rules. -/
inductive Scope
  | rule
  | group
  deriving DecidableEq, Repr

/-- The value that an override sets. -/
inductive Field
  | factor
  | summand
  | disabled
  deriving DecidableEq, Repr

/-- The text that the keys of a scope start with, up to its dot. -/
def Scope.text : Scope → String
  | .rule => "rule."
  | .group => "ruleset."

/-- The text that the keys of a field end with, after the last dot. -/
def Field.text : Field → String
  | .factor => "factor"
  | .summand => "summand"
  | .disabled => "disabled"

/-- The field that a text names. -/
def Field.ofText? (s : List Char) : Option Field :=
  if s = Field.factor.text.toList then some .factor
  else if s = Field.summand.text.toList then some .summand
  else if s = Field.disabled.text.toList then some .disabled
  else none

@[simp] theorem Field.ofText?_text (f : Field) : Field.ofText? f.text.toList = some f := by
  cases f <;> rfl

/-- A scope, a name and a field. -/
structure Key where
  scope : Scope
  name : String
  field : Field
  deriving DecidableEq, Repr

namespace Key

/-- The text of a key. -/
def text (k : Key) : String :=
  k.scope.text ++ k.name ++ "." ++ k.field.text

/-- The scope that a text starts with, and the rest of the text. -/
def splitScope? (s : List Char) : Option (Scope × List Char) :=
  match Scope.group.text.toList.isPrefixOf? s with
  | some rest => some (.group, rest)
  | none => (Scope.rule.text.toList.isPrefixOf? s).map fun rest => (.rule, rest)

/-- The parts of a text before and after its last dot. -/
def splitLastDot? : List Char → Option (List Char × List Char)
  | [] => none
  | c :: s =>
    match splitLastDot? s with
    | some (a, b) => some (c :: a, b)
    | none => if c = '.' then some ([], s) else none

@[simp] theorem splitLastDot?_nil : splitLastDot? [] = none := rfl

/-- A text without a dot cannot be split, and no other. -/
theorem splitLastDot?_eq_none_iff {s : List Char} : splitLastDot? s = none ↔ '.' ∉ s := by
  induction s with
  | nil => simp
  | cons c s ih =>
    cases h : splitLastDot? s with
    | some p =>
      have hs : '.' ∈ s := by
        by_cases hs : '.' ∈ s
        · exact hs
        · rw [ih.mpr hs] at h
          contradiction
      simp [splitLastDot?, h, hs]
    | none =>
      by_cases hc : c = '.'
      · simp [splitLastDot?, h, hc]
      · simp [splitLastDot?, h, ih.mp h, hc, Ne.symm hc]

/-- The dot before a text without dots is the last one. -/
theorem splitLastDot?_append (a : List Char) {b : List Char} (h : '.' ∉ b) :
    splitLastDot? (a ++ '.' :: b) = some (a, b) := by
  induction a with
  | nil => simp [splitLastDot?, splitLastDot?_eq_none_iff.mpr h]
  | cons c a ih => simp [splitLastDot?, ih]

/-- Read the name and the field, given the scope and what follows it. -/
def parseRest (key : String) (scope : Scope) (rest : List Char) : Except Error Key :=
  match splitLastDot? rest with
  | none => .error (.missingField key)
  | some (name, field) =>
    match Field.ofText? field with
    | none => .error (.unknownField key (String.ofList field))
    | some f => if name = [] then .error (.emptyName key) else .ok ⟨scope, String.ofList name, f⟩

/-- Read a key. -/
def parse (key : String) : Except Error Key :=
  match splitScope? key.toList with
  | none => .error (.unknownScope key)
  | some (scope, rest) => parseRest key scope rest

end Key

end RuleSteering.Override
