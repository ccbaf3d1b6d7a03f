/-! Declared facts about a route, and how the facts of nested declarations combine. -/

namespace EndpointCensus

structure Metadata where
  statusCode : Option UInt16 := none
  tags : List String := []
  summary : Option String := none
  dependencies : List String := []
  name : Option String := none
  deprecated : Bool := false
  deriving DecidableEq, Repr

namespace Metadata

def isEmpty (m : Metadata) : Bool := m == {}

/-- The tags with one more at the end, unless it is there already. -/
def insertTag (tags : List String) (tag : String) : List String :=
  if tags.contains tag then tags else tags ++ [tag]

def addTag (m : Metadata) (tag : String) : Metadata := { m with tags := insertTag m.tags tag }

/-- The facts of an outer declaration with those of an inner one beneath. Tags unite, the outer ones
first; dependencies accumulate; the single values of the inner declaration win. -/
def merge (outer inner : Metadata) : Metadata where
  statusCode := inner.statusCode.or outer.statusCode
  tags := inner.tags.foldl insertTag outer.tags
  summary := inner.summary.or outer.summary
  dependencies := outer.dependencies ++ inner.dependencies
  name := inner.name.or outer.name
  deprecated := outer.deprecated || inner.deprecated

end Metadata

end EndpointCensus
