import EndpointCensus.Graph
import EndpointCensus.Language

/-! Source units and what is read from them. -/

namespace EndpointCensus

/-- One source text and the path that identifies it. -/
structure SourceUnit where
  identity : String
  language : Language
  text : String
  deriving DecidableEq, Repr

/-- What one unit declares, and what was wrong with it. -/
structure UnitReport where
  identity : String
  fragments : List Fragment
  nodes : List Node
  diagnostics : List Diagnostic
  deriving DecidableEq, Repr

end EndpointCensus
