import EndpointCensus.Idiom.Decorator

/-! Resource routers, which register view sets as collections, and the members of a view set. -/

namespace EndpointCensus.Resource

open Text

/-- The path segment of a single object. -/
def detailSegment : List Char := ['\x7b', 'i', 'd', '\x7d']

/-- The standard members of a view set, each with its method and whether it addresses one object. -/
def standardActions : List (String × Method × Bool) := [
  ("list", .get, false), ("create", .post, false), ("retrieve", .get, true), ("update", .put, true),
  ("partial_update", .patch, true), ("destroy", .delete, true)]

def standardAction? (name : List Char) : Option (Method × List Char) :=
  (standardActions.find? fun a => a.1.toList == name).map fun a =>
    (a.2.1, if a.2.2 then detailSegment else [])

/-- The standard members that a base class provides, in their order. -/
def impliedActions (base : List Char) : List String :=
  let provides (names : List String) : Bool := isOneOf names (lastSegment base)
  if provides ["ModelViewSet"] then standardActions.map Prod.fst
  else if provides ["ReadOnlyModelViewSet"] then ["list", "retrieve"]
  else if provides ["ListModelMixin"] then ["list"]
  else if provides ["CreateModelMixin"] then ["create"]
  else if provides ["RetrieveModelMixin"] then ["retrieve"]
  else if provides ["UpdateModelMixin"] then ["update", "partial_update"]
  else if provides ["DestroyModelMixin"] then ["destroy"]
  else []

def constructed? (c : Context) (e : Expr) : Option (List Emission) := do
  let a ← e.assignment?
  if isOneOf ["DefaultRouter", "SimpleRouter"] (lastSegment a.callee) then
    some [.node a.name .resourceRouter [] {} [] c.line]
  else none

/-- A view set that is registered under a literal path. -/
def registered? (c : Context) (e : Expr) : Option (List Emission) := do
  let (router, _, args) ← Decorator.memberCall? ["register"] e
  if !(e.tail args.stop).isEmpty then none
  else
    let path ← ((args.positional? 0).or (args.keyword? "prefix")).bind Expr.stringValue?
    let viewSet ← ((args.positional? 1).or (args.keyword? "viewset")).bind Expr.namePath?
    let name := Decorator.storedValue? ((args.keyword? "basename").or (args.keyword? "base_name"))
    some [.link router (.name viewSet) .resource (stripRuns '^' '$' path) { name } c.line]

/-- Whether a decorator's action addresses one object; none for other decorators. -/
def detail? (last : List Char) (args : Option Args) : Option Bool :=
  if isOneOf ["action"] last then
    some (((Decorator.keyword? args "detail").bind Expr.boolValue?).getD false)
  else if isOneOf ["detail_route"] last then some true
  else if isOneOf ["list_route"] last then some false
  else none

def extraAction? (c : Context) (owner : List Char) (body : Expr) : Option (List Emission) := do
  let (callee, args) ← body.callOrName?
  let detail ← detail? (lastSegment callee) args
  let target ← c.decorated?
  if target.isClass then none
  else
    let segment :=
      ((Decorator.keyword? args "url_path").bind Expr.stringValue?).getD target.name
    let path := if detail then detailSegment ++ '/' :: segment else segment
    let name := Decorator.storedValue? (Decorator.keyword? args "url_name")
    some <| (methodsOrGet (Decorator.keyword? args "methods")).map fun method =>
      .fragment (some owner) method path (c.qualify target.name) (some target.name) c.line { name }

def member? (c : Context) (owner : List Char) (e : Expr) : Option (List Emission) :=
  if e.isDecorator then extraAction? c owner (e.tail 1)
  else do
    let name ← c.statement.defName?
    let (method, path) ← standardAction? name
    some [.fragment (some owner) method path (c.qualify name) (some name) c.line {}]

def match? (c : Context) : Option (List Emission) :=
  match c.owner? with
  | some owner => member? c owner c.expr
  | none => (constructed? c c.expr).or (registered? c c.expr)

end EndpointCensus.Resource
