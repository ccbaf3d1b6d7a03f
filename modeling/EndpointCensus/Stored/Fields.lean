import EndpointCensus.Json.Basic
import EndpointCensus.Text.Number

/-! Reading of records from JSON. A record is an object, whose unknown members are passed over, or
an array of all its fields in order. -/

namespace EndpointCensus.Stored

/-- The value of a member that occurs at most once; none if it occurs twice. -/
def member? (members : List (String × Json)) (key : String) : Option (Option Json) :=
  match members.filter fun m => m.1 == key with
  | [] => some none
  | [m] => some (some m.2)
  | _ => none

def fields? (keys : List String) : Json → Option (List (Option Json))
  | .obj members => keys.mapM (member? members)
  | .arr items => if items.length == keys.length then some (items.map some) else none
  | _ => none

def required? {α : Type _} (decode : Json → Option α) (field : Option Json) : Option α :=
  field.bind decode

/-- A field that may be missing or null. -/
def optional? {α : Type _} (decode : Json → Option α) (field : Option Json) : Option (Option α) :=
  match field with
  | some v => v.nullable? decode
  | none => some none

/-- The name of a variant without content: a string, or an object from it to null. -/
def variant? : Json → Option String
  | .str name => some name
  | .obj [(name, .null)] => some name
  | _ => none

/-- The name of a variant in the content of a tagged record, where an empty object also stands for
null. -/
def taggedVariant? : Json → Option String
  | .obj [(name, .obj [])] => some name
  | v => variant? v

/-- A member that is left out when there is no value. -/
def member (key : String) {α : Type _} (encode : α → Json) : Option α → List (String × Json)
  | some a => [(key, encode a)]
  | none => []

/-- A member that is left out when the list is empty. -/
def listMember (key : String) {α : Type _} (encode : α → Json) (l : List α) :
    List (String × Json) :=
  if l.isEmpty then [] else [(key, .ofList encode l)]

end EndpointCensus.Stored
