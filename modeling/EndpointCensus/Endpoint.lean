import EndpointCensus.Diagnostic
import EndpointCensus.Metadata

/-! Endpoints, the records of an inventory. -/

namespace EndpointCensus

structure Param where
  name : String
  constraint : Option String
  deriving DecidableEq, Repr

structure Endpoint where
  method : Method
  /-- Absolute, or relative when a reference is unresolved. -/
  path : String
  symbol : String
  location : Location
  metadata : Metadata
  params : List Param
  /-- The reference that could not be resolved. -/
  unresolved : Option String
  deriving DecidableEq, Repr

end EndpointCensus
