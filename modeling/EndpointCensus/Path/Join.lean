import EndpointCensus.Text.Name

/-! Joining of path pieces with exactly one slash between segments. -/

namespace EndpointCensus.Path

/-- The segments of a path, those without characters left out. -/
def segments (cs : List Char) : List (List Char) :=
  (Text.splitOn '/' cs).filter fun s => !s.isEmpty

/-- Segments with a slash between any two. -/
def ofSegments (segments : List (List Char)) : List Char := ['/'].intercalate segments

/-- The segments of all pieces, joined. -/
def join (pieces : List (List Char)) : List Char := ofSegments (pieces.flatMap segments)

def absolute (relative : List Char) : List Char := '/' :: relative

end EndpointCensus.Path
