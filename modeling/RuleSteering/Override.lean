import RuleSteering.Override.Key
import RuleSteering.Properties

/-!
# Overrides

An override sets the factor, the summand or the disabled flag of one rule or one group. It is
written as a pair of texts, its key and its value.

* `Override.parse` reads such a pair. Blanks around the value do not count, integers are decimal
  and flags are `true` or `false` in any case; faults of the key come before those of the value;
* `Override.toPair` writes it;
* `Properties.store` writes overrides into a property map.
-/

namespace RuleSteering

namespace Override

/-- A field together with the value that it is set to. -/
inductive Setting
  | factor (n : Int64)
  | summand (n : Int64)
  | disabled (b : Bool)
  deriving DecidableEq, Repr

namespace Setting

/-- The field that a setting sets. -/
def field : Setting → Field
  | factor _ => .factor
  | summand _ => .summand
  | disabled _ => .disabled

/-- The text of the value. -/
def text : Setting → String
  | factor n => String.ofList (Text.Decimal.write n)
  | summand n => String.ofList (Text.Decimal.write n)
  | disabled true => "true"
  | disabled false => "false"

@[simp] theorem field_factor (n : Int64) : (factor n).field = .factor := rfl
@[simp] theorem field_summand (n : Int64) : (summand n).field = .summand := rfl
@[simp] theorem field_disabled (b : Bool) : (disabled b).field = .disabled := rfl

end Setting

/-- A flag in any mixture of upper and lower case. -/
def readBool? (s : List Char) : Option Bool :=
  let s := s.map Char.toLower
  if s = "true".toList then some true
  else if s = "false".toList then some false
  else none

end Override

/-- One setting of one rule or group. -/
structure Override where
  scope : Override.Scope
  name : String
  setting : Override.Setting
  deriving DecidableEq, Repr

namespace Override

/-- The key of an override. -/
def key (o : Override) : Key :=
  ⟨o.scope, o.name, o.setting.field⟩

/-- The texts of the key and of the value. -/
def toPair (o : Override) : String × String :=
  (o.key.text, o.setting.text)

/-- Read the value of an integer field, which `make` turns into a setting. -/
def parseInteger (key value : String) (make : Int64 → Setting) : Except Error Setting :=
  match Text.Decimal.read (Text.trim value.toList) with
  | .ok n => .ok (make n)
  | .error flaw => .error (.invalidInteger key value flaw)

/-- Read the value of a field. -/
def parseSetting (key value : String) : Field → Except Error Setting
  | .factor => parseInteger key value .factor
  | .summand => parseInteger key value .summand
  | .disabled =>
    match readBool? (Text.trim value.toList) with
    | some b => .ok (.disabled b)
    | none => .error (.invalidBool key value)

/-- Read an override from the texts of its key and its value. -/
def parse (key value : String) : Except Error Override :=
  match Key.parse key with
  | .error e => .error e
  | .ok k =>
    match parseSetting key value k.field with
    | .error e => .error e
    | .ok s => .ok ⟨k.scope, k.name, s⟩

/-- The override that a pair of texts holds, if it is well-formed. -/
def ofPair? (pair : String × String) : Option Override :=
  (parse pair.1 pair.2).toOption

end Override

/-- The map with the pair of every override put into it. -/
def Properties.store (p : Properties) (os : List Override) : Properties :=
  p.insertMany (os.map Override.toPair)

@[simp] theorem Properties.store_nil (p : Properties) : p.store [] = p := by
  simp [store]

end RuleSteering
