import EndpointCensus.Diagnostic
import EndpointCensus.Metadata

/-! The composition graph: routers, tables and views, the links between them, and the candidate
endpoints that belong to them. -/

namespace EndpointCensus

/-- A reference to a node, read through the imports of the unit that makes it. -/
structure Reference where
  /-- Set when the target is declared in the referring unit. -/
  unit : Option String
  /-- The dotted module expected to declare the target. -/
  module : String
  /-- A symbol, an exported alias or the name of a factory. -/
  name : String
  /-- The reference calls a function that returns the node. -/
  factory : Bool
  deriving DecidableEq, Repr

namespace Reference

def inUnit (unit module name : String) : Reference := ⟨some unit, module, name, false⟩

def external (module name : String) : Reference := ⟨none, module, name, false⟩

def message (r : Reference) : String :=
  (if r.module.isEmpty then "" else r.module ++ ".") ++ r.name ++ (if r.factory then "()" else "")

end Reference

inductive NodeKind where
  /-- An application or router object. -/
  | router
  /-- A list of URL patterns. -/
  | urlTable
  /-- A router that registers resource classes. -/
  | resourceRouter
  /-- A class whose members become handlers once it is bound. -/
  | viewClass
  /-- A function view that names its methods. -/
  | viewFunction
  deriving DecidableEq, Repr

namespace NodeKind

def all : List NodeKind := [router, urlTable, resourceRouter, viewClass, viewFunction]

def key : NodeKind → String
  | router => "router"
  | urlTable => "url_table"
  | resourceRouter => "resource_router"
  | viewClass => "view_class"
  | viewFunction => "view_function"

/-- The kinds that may be a root when nothing includes them. -/
def isContainer : NodeKind → Bool
  | router | urlTable | resourceRouter => true
  | viewClass | viewFunction => false

end NodeKind

/-- How a child is attached to its parent. -/
inductive Binding where
  /-- The child's own routes are nested under the link. -/
  | inclusion
  /-- A function is bound to a path. -/
  | handler
  /-- A class is bound to a path, methods going to actions as listed. -/
  | view (methodMap : List (Method × String))
  /-- A resource class is registered as a collection. -/
  | resource
  deriving DecidableEq, Repr

structure Link where
  target : Reference
  /-- The reference as written where it is registered. -/
  symbol : String
  binding : Binding
  path : String
  metadata : Metadata
  location : Location
  deriving DecidableEq, Repr

structure Node where
  unit : String
  module : String
  name : String
  kind : NodeKind
  path : String := ""
  metadata : Metadata := {}
  /-- The base classes of a view class. -/
  bases : List Reference := []
  /-- Further names the node is exported under. -/
  aliases : List String := []
  /-- The function whose call returns the node. -/
  factory : Option String := none
  /-- Set on a stand-in for an imported node, to which its links belong. -/
  stands : Option Reference := none
  links : List Link := []
  location : Location
  deriving DecidableEq, Repr

namespace Node

def answersTo (n : Node) (name : String) : Bool := n.name == name || n.aliases.contains name

end Node

/-- A candidate endpoint, relative to the node it belongs to. -/
structure Fragment where
  method : Method
  path : String
  symbol : String
  /-- The member or action it was read from. -/
  action : Option String
  idiom : Idiom
  location : Location
  metadata : Metadata
  /-- The node it belongs to, if any. -/
  key : Option Reference
  deriving DecidableEq, Repr

end EndpointCensus
