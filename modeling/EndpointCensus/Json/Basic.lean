/-! JSON values. Objects keep their members in order and may name a key twice; numbers that are not
written as plain integers keep their text. A record passes over what it has no field for, so a text
may hold values that nothing could be read from. -/

namespace EndpointCensus

inductive Json where
  | null
  | bool (b : Bool)
  | int (n : Int)
  /-- A number with a fraction or an exponent, and negative zero. -/
  | decimal (text : String)
  | str (s : String)
  | arr (items : List Json)
  | obj (members : List (String × Json))
  /-- A well-formed value that cannot be held: a string with half of a surrogate pair, an object
  with such a key, a number out of range, or a list or object that is nested too deep. -/
  | unreadable
  deriving Repr

namespace Json

def get? (key : String) : Json → Option Json
  | obj members => members.lookup key
  | _ => none

def str? : Json → Option String
  | str s => some s
  | _ => none

def arr? : Json → Option (List Json)
  | arr items => some items
  | _ => none

def bool? : Json → Option Bool
  | bool b => some b
  | _ => none

/-- A natural number of at most `limit`. -/
def nat? (limit : Nat) : Json → Option Nat
  | int n => if 0 ≤ n ∧ n ≤ limit then some n.toNat else none
  | _ => none

def list? {α : Type _} (decode : Json → Option α) : Json → Option (List α)
  | arr items => items.mapM decode
  | _ => none

def nullable? {α : Type _} (decode : Json → Option α) : Json → Option (Option α)
  | null => some none
  | v => (decode v).map some

mutual

/-- The value can be held in all its parts. -/
def isReadable : Json → Bool
  | unreadable => false
  | arr items => areReadable items
  | obj members => haveReadable members
  | null | bool _ | int _ | decimal _ | str _ => true

def areReadable : List Json → Bool
  | [] => true
  | v :: rest => v.isReadable && areReadable rest

def haveReadable : List (String × Json) → Bool
  | [] => true
  | (_, v) :: rest => v.isReadable && haveReadable rest

end

def ofOption {α : Type _} (encode : α → Json) : Option α → Json
  | some a => encode a
  | none => null

def ofList {α : Type _} (encode : α → Json) (l : List α) : Json := arr (l.map encode)

def nat (n : Nat) : Json := int n

def text (cs : List Char) : Json := str (String.ofList cs)

end Json

end EndpointCensus
