import EndpointCensus.Idiom.Basic
import EndpointCensus.Method

/-! Findings about a corpus, each tied to a place in it. -/

namespace EndpointCensus

/-- A unit of the corpus and a line of it. -/
structure Location where
  unit : String
  line : Nat
  deriving DecidableEq, Repr

namespace Location

def message (l : Location) : String := l.unit ++ ":" ++ toString l.line

/-- By unit, code point by code point, then by line. -/
def compare (a b : Location) : Ordering :=
  (Ord.compare a.unit b.unit).then (Ord.compare a.line b.line)

end Location

inductive Issue where
  | unterminatedLiteral
  | unterminatedComment
  | unterminatedConstruct
  | unresolvedReference (reference : String)
  | cyclicInclusion (reference : String)
  | duplicateRegistration (method : Method) (path : String) (other : Location)
  | repeatedInclusion (method : Method) (path : String)
  | ambiguousMatch (idioms : List Idiom)
  deriving DecidableEq, Repr

/-- The family of an issue. -/
inductive Category where
  | lexical
  | statement
  | composition
  | duplicate
  | ambiguity
  deriving DecidableEq, Repr

namespace Issue

def category : Issue → Category
  | unterminatedLiteral | unterminatedComment => .lexical
  | unterminatedConstruct => .statement
  | unresolvedReference _ | cyclicInclusion _ => .composition
  | duplicateRegistration _ _ _ | repeatedInclusion _ _ => .duplicate
  | ambiguousMatch _ => .ambiguity

def message : Issue → String
  | unterminatedLiteral => "unterminated string literal"
  | unterminatedComment => "unterminated block comment"
  | unterminatedConstruct => "statement never closes before the end of the unit"
  | unresolvedReference reference => "unresolved reference `" ++ reference ++ "`"
  | cyclicInclusion reference => "cyclic inclusion through `" ++ reference ++ "`"
  | duplicateRegistration method path other =>
    method.name ++ " " ++ path ++ " is also declared at " ++ other.message
  | repeatedInclusion method path =>
    method.name ++ " " ++ path ++ " is reached through multiple inclusion paths"
  | ambiguousMatch idioms =>
    "statement matched by several idioms: [" ++ ", ".intercalate (idioms.map Idiom.title) ++ "]"

end Issue

structure Diagnostic where
  location : Location
  issue : Issue
  deriving DecidableEq, Repr

namespace Diagnostic

def message (d : Diagnostic) : String := d.location.message ++ ": " ++ d.issue.message

def sort (ds : List Diagnostic) : List Diagnostic :=
  ds.mergeSort fun a b => (a.location.compare b.location).isLE

end Diagnostic

end EndpointCensus
