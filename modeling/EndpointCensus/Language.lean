/-! The two families of source languages. -/

namespace EndpointCensus

/-- The language family of a source text, which decides its lexical rules and its idioms. -/
inductive Language where
  /-- Hash comments, triple-quoted strings, scopes by indentation. -/
  | python
  /-- JavaScript and TypeScript: slash comments and template literals. -/
  | script
  deriving DecidableEq, Repr

end EndpointCensus
