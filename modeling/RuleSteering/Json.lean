/-!
# JSON values

The values that structured data is exchanged in. A number counts as an integer only if it is
written as one; any other number is kept as the text that it is written as.
-/

namespace RuleSteering

/-- A JSON value. -/
inductive Json
  | null
  | bool (b : Bool)
  | integer (n : Int)
  | number (text : String)
  | string (s : String)
  | array (items : List Json)
  | object (members : List (String × Json))
  deriving Inhabited

namespace Json

/-- The member of an object with a given name; of several the last one counts. -/
def member? (name : String) (members : List (String × Json)) : Option Json :=
  members.reverse.lookup name

/-- The fields of a record: by name from an object, whose other members do not count, or by
position from an array that holds nothing else. -/
def fields? (names : List String) : Json → Option (List (Option Json))
  | array items => if items.length = names.length then some (items.map some) else none
  | object members => some (names.map fun name => member? name members)
  | _ => none

@[simp] theorem fields?_object (names : List String) (members : List (String × Json)) :
    fields? names (object members) = some (names.map fun name => member? name members) := rfl

theorem fields?_array {names : List String} {items : List Json}
    (h : items.length = names.length) : fields? names (array items) = some (items.map some) := by
  simp [fields?, h]

end Json

end RuleSteering
