import EndpointCensus.Idiom.Match

/-! The reading of a unit: its statements in order, each in the scopes it stands in, and what the
idioms read from them. -/

namespace EndpointCensus

inductive ScopeKind where
  | classBody
  | functionBody
  deriving DecidableEq, Repr

/-- A declaration whose body is indented deeper than itself. -/
structure Scope where
  indent : Nat
  name : List Char
  kind : ScopeKind
  deriving DecidableEq, Repr

/-- An emission with the place it was read at. -/
structure Sighting where
  idiom : Idiom
  emission : Emission
  /-- Names of the enclosing scopes, the outermost first. -/
  scope : List (List Char)
  /-- The outermost scope, when it is a function. -/
  factory : Option (List Char)
  deriving DecidableEq, Repr

def Statement.scope? (s : Statement) : Option Scope :=
  match s.defName? with
  | some name => some ⟨s.indent, name, .functionBody⟩
  | none => s.className?.map fun name => ⟨s.indent, name, .classBody⟩

/-- What has been read of a unit, up to some statement. -/
structure Reading where
  imports : ImportTable
  /-- The open scopes, the innermost first. -/
  scopes : List Scope := []
  routers : List (List Char) := []
  verbAliases : List (List Char × VerbAlias) := []
  sightings : List Sighting := []
  diagnostics : List Diagnostic := []

namespace Reading

/-- Closes the scopes that a statement of this indentation is not inside of. -/
def closeScopes (scopes : List Scope) (indent : Nat) : List Scope :=
  scopes.dropWhile fun s => indent ≤ s.indent

/-- The class that a statement is a direct member of. -/
def owner? (r : Reading) : Option (List Char) :=
  match r.scopes with
  | s :: _ => if s.kind == .classBody then some s.name else none
  | [] => none

/-- The outermost scope, when it is a function. -/
def factory? (r : Reading) : Option (List Char) :=
  (r.scopes.getLast?.filter (·.kind == .functionBody)).map Scope.name

def record (idiom : Idiom) (r : Reading) (e : Emission) : Reading :=
  let sighting : Sighting := ⟨idiom, e, (r.scopes.map Scope.name).reverse, r.factory?⟩
  match e with
  | .verbAlias as receiver verb =>
    { r with verbAliases := (as, ⟨receiver, verb⟩) :: r.verbAliases }
  | .node name kind _ _ _ _ =>
    { r with
      routers := if kind.isContainer then name :: r.routers else r.routers
      sightings := r.sightings ++ [sighting] }
  | _ => { r with sightings := r.sightings ++ [sighting] }

/-- The context of a statement, given those after it. -/
def context (language : Language) (r : Reading) (s : Statement) (rest : List Statement) :
    Context where
  language
  statement := s
  following := rest
  owner? := r.owner?
  routers := r.routers
  verbAliases := r.verbAliases
  imports := r.imports

/-- The finding that several idioms matched a statement. -/
def ambiguity (unit : String) (s : Statement) (found : List (Idiom × List Emission)) :
    List Diagnostic :=
  if 1 < found.length then [⟨⟨unit, s.startLine⟩, .ambiguousMatch (found.map Prod.fst)⟩] else []

/-- Reads one statement. The first match in order of priority counts. -/
def readOne (unit : SourceUnit) (flag : Bool) (r : Reading) (s : Statement)
    (rest : List Statement) : Reading :=
  let python := unit.language == .python
  let scopes := if python then closeScopes r.scopes s.indent else r.scopes
  let (imports, isImport) := r.imports.scan s
  let r := { r with scopes, imports }
  if isImport then r
  else
    let found := (r.context unit.language s rest).matches
    let noted := { r with
      diagnostics := r.diagnostics ++ if flag then ambiguity unit.identity s found else [] }
    let read := match found with
      | (idiom, emissions) :: _ => emissions.foldl (record idiom) noted
      | [] => noted
    { read with scopes := (if python then s.scope?.toList else []) ++ read.scopes }

def readAll (unit : SourceUnit) (flag : Bool) (r : Reading) : List Statement → Reading
  | [] => r
  | s :: rest => readAll unit flag (r.readOne unit flag s rest) rest

end Reading

end EndpointCensus
