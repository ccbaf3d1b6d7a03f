import EndpointCensus.Graph
import EndpointCensus.Import.Scan

/-! What an idiom reads from a statement. Emissions keep the names written in the unit. -/

namespace EndpointCensus

/-- A reference as written in a unit. -/
inductive Target where
  /-- A dotted name. -/
  | name (path : List Char)
  /-- A call of a function that returns a router. -/
  | factory (path : List Char)
  /-- A URL table by name: a list of the unit or an imported module. -/
  | table (path : List Char)
  /-- A member of a module that is spelled out. -/
  | member (module name : List Char)
  deriving DecidableEq, Repr

inductive Emission where
  | fragment (receiver : Option (List Char)) (method : Method) (path symbol : List Char)
      (action : Option (List Char)) (line : Nat) (metadata : Metadata)
  | node (name : List Char) (kind : NodeKind) (path : List Char) (metadata : Metadata)
      (bases : List (List Char)) (line : Nat)
  | link (parent : List Char) (target : Target) (binding : Binding) (path : List Char)
      (metadata : Metadata) (line : Nat)
  /-- A name is exported under an alias. -/
  | export (name as : List Char)
  /-- A local name for the verb method of a router. -/
  | verbAlias (as receiver verb : List Char)
  deriving DecidableEq, Repr

/-- A verb method taken out of a router. -/
structure VerbAlias where
  receiver : List Char
  verb : List Char
  deriving DecidableEq, Repr

/-- What is known where a statement stands. -/
structure Context where
  language : Language
  statement : Statement
  /-- The statements after it. -/
  following : List Statement
  /-- The class it is a direct member of. -/
  owner? : Option (List Char)
  /-- Names of routers declared before it. -/
  routers : List (List Char)
  /-- Local names of verb methods, the latest first. -/
  verbAliases : List (List Char × VerbAlias)
  imports : ImportTable

namespace Context

def expr (c : Context) : Expr := .ofStatement c.statement

def line (c : Context) : Nat := c.statement.startLine

/-- The name of a member of the class, or the bare name outside classes. -/
def qualify (c : Context) (name : List Char) : List Char :=
  match c.owner? with
  | some owner => owner ++ '.' :: name
  | none => name

end Context

end EndpointCensus
