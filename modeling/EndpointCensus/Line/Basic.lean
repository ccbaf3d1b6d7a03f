import EndpointCensus.Text.Blank

/-! Physical lines of a source text, cut into segments of code, literal and comment. The text of a
line is the concatenation of its segments, so the segments partition it by construction. -/

namespace EndpointCensus

inductive SegmentKind where
  | code
  | literal
  | comment
  deriving DecidableEq, Repr

/-- A stretch of one line of a single lexical kind. -/
structure Segment where
  kind : SegmentKind
  chars : List Char
  deriving DecidableEq, Repr

inductive LineTag where
  | code
  | comment
  /-- The line starts inside a literal opened on an earlier line. -/
  | literalBody
  deriving DecidableEq, Repr

structure Line where
  /-- Line numbers start at one. -/
  number : Nat
  tag : LineTag
  segments : List Segment
  /-- A multi-line literal is still open where the line ends. -/
  literalOpen : Bool
  deriving DecidableEq, Repr

namespace Segment

def hasContent (s : Segment) : Bool := s.kind != .comment && !Text.allBlank s.chars

end Segment

/-- Byte ranges of consecutive segments, the first one starting at `start`. -/
def spansFrom : Nat → List Segment → List (SegmentKind × Nat × Nat)
  | _, [] => []
  | start, s :: rest =>
    (s.kind, start, start + Text.width s.chars) :: spansFrom (start + Text.width s.chars) rest

namespace Line

def text (l : Line) : List Char := l.segments.flatMap Segment.chars

def spans (l : Line) : List (SegmentKind × Nat × Nat) := spansFrom 0 l.segments

def hasContent (l : Line) : Bool := l.segments.any Segment.hasContent

end Line

inductive Unclosed where
  | literal
  | comment
  deriving DecidableEq, Repr

/-- A source text in lines, with the line of a literal or block comment that never closes. -/
structure LineTable where
  lines : List Line
  unterminated : Option (Nat × Unclosed)
  deriving DecidableEq, Repr

end EndpointCensus
