import EndpointCensus.Endpoint

/-! The inventory: endpoints in the order of path, method and location, each such triple once. Of
several declarations of one route all but the first are reported. -/

namespace EndpointCensus

namespace Endpoint

/-- By path, code point by code point, then by method, then by location. -/
def compare (a b : Endpoint) : Ordering :=
  ((Ord.compare a.path b.path).then (Ord.compare a.method.rank b.method.rank)).then
    (a.location.compare b.location)

def sameRoute (a b : Endpoint) : Bool := a.method == b.method && a.path == b.path

end Endpoint

inductive Failure where
  | cancelled
  /-- The endpoint does not come after the one before it. -/
  | outOfOrder (endpoint : Endpoint)
  deriving DecidableEq, Repr

namespace Failure

def message : Failure → String
  | cancelled => "Analysis cancelled"
  | outOfOrder e => "Invariant violated: inventory out of order at " ++ e.method.name ++ " " ++
      e.path ++ " (" ++ e.location.message ++ ")"

end Failure

structure Inventory where
  endpoints : List Endpoint
  deriving DecidableEq, Repr

namespace Inventory

def size (i : Inventory) : Nat := i.endpoints.length

def lookup (i : Inventory) (method : Method) (path : String) : List Endpoint :=
  i.endpoints.filter fun e => e.method == method && e.path == path

def repetition (first e : Endpoint) : Diagnostic where
  location := e.location
  issue :=
    if first.location == e.location then .repeatedInclusion e.method e.path
    else .duplicateRegistration e.method e.path first.location

/-- What of a sorted list of endpoints is kept, in reverse, and what is found about the rest. -/
structure Sifting where
  /-- The first endpoint of the current route. -/
  first : Option Endpoint := none
  kept : List Endpoint := []
  found : List Diagnostic := []
  deriving DecidableEq, Repr

namespace Sifting

/-- The next endpoint. It opens a route, or repeats one and is reported; a repetition is kept unless
it equals the endpoint kept last in path, method and location. -/
def next (s : Sifting) (e : Endpoint) : Sifting :=
  match s.first.filter (·.sameRoute e) with
  | none => { s with first := some e, kept := e :: s.kept }
  | some first =>
    let exact := s.kept.head?.any fun last => last.compare e == .eq
    { s with
      kept := if exact then s.kept else e :: s.kept
      found := s.found ++ [repetition first e] }

end Sifting

/-- The first endpoint of a list that does not come after the one before it. -/
def disorder? : List Endpoint → Option Endpoint
  | a :: b :: rest => if a.compare b == .lt then disorder? (b :: rest) else some b
  | _ => none

/-- The inventory of endpoints. Findings about routes declared more than once are added to those at
hand. -/
def build (endpoints : List Endpoint) (found : List Diagnostic := []) :
    Except Failure (Inventory × List Diagnostic) :=
  let sorted := endpoints.mergeSort fun a b => (a.compare b).isLE
  let sifted := sorted.foldl Sifting.next { found }
  let kept := sifted.kept.reverse
  match disorder? kept with
  | some e => .error (.outOfOrder e)
  | none => .ok (⟨kept⟩, sifted.found)

end Inventory

end EndpointCensus
