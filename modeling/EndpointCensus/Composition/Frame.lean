import EndpointCensus.Graph
import EndpointCensus.Path.Join
import EndpointCensus.Path.Pattern

/-! What accumulates along one usage path: pieces of the route, parameters and metadata. -/

namespace EndpointCensus

structure Frame where
  pieces : List (List Char) := []
  params : List Param := []
  metadata : Metadata := {}
  deriving DecidableEq, Repr

namespace Frame

/-- The frame of a declaration with a route of its own inside the frame. -/
def nest (f : Frame) (route : String) (metadata : Metadata) : Frame :=
  let (piece, params) := Pattern.normalize route.toList
  { pieces := f.pieces ++ [piece]
    params := f.params ++ params
    metadata := f.metadata.merge metadata }

def path (f : Frame) : String := String.ofList (Path.absolute (Path.join f.pieces))

def endpoint (f : Frame) (method : Method) (route symbol : String) (location : Location)
    (metadata : Metadata) (unresolved : Option String) : Endpoint :=
  let full := f.nest route metadata
  { method, path := full.path, symbol, location, metadata := full.metadata, params := full.params
    unresolved }

def ofFragment (f : Frame) (x : Fragment) : Endpoint :=
  f.endpoint x.method x.path x.symbol x.location x.metadata none

end Frame

end EndpointCensus
