import EndpointCensus.Unit.Scope

/-! Lowering: the names written in a unit become references, and its emissions become
the nodes, links and fragments of the composition graph. A name declared in a scope is
known by its dotted path. -/

namespace EndpointCensus

structure Lowering where
  identity : String
  module : String
  imports : ImportTable
  /-- The nodes so far, in order of declaration; no two have one name. -/
  nodes : List Node := []

/-- The path of a name in scopes, the outermost first. -/
def scopedName (scope : List (List Char)) (name : List Char) : String :=
  stored (['.'].intercalate (scope ++ [name]))

/-- A dotted name as a reference to the last part in the module before it. -/
def Reference.ofDotted (dotted : List Char) : Reference :=
  match Text.splitLast? '.' dotted with
  | some (module, name) => .external (stored module) (stored name)
  | none => .external "" (stored dotted)

def Target.symbol : Target → String
  | name path => stored path
  | table path => stored path
  | factory path => stored path ++ "()"
  | member module entry => stored module ++ "." ++ stored entry

namespace Lowering

def node? (l : Lowering) (name : String) : Option Node := l.nodes.find? (·.name == name)

def has (l : Lowering) (name : String) : Bool := l.nodes.any (·.name == name)

def modify (l : Lowering) (name : String) (f : Node → Node) : Lowering :=
  { l with nodes := l.nodes.map fun n => if n.name == name then f n else n }

/-- Adds a node unless its name is taken. -/
def add (l : Lowering) (n : Node) : Lowering :=
  if l.has n.name then l else { l with nodes := l.nodes ++ [n] }

def newNode (l : Lowering) (name : String) (kind : NodeKind) (line : Nat) : Node :=
  { unit := l.identity, module := l.module, name, kind, location := ⟨l.identity, line⟩ }

/-- The name of the innermost node that a name means in scopes, the outermost first. -/
def visible? (l : Lowering) (scope : List (List Char)) (name : List Char) : Option String :=
  ((List.range (scope.length + 1)).reverse.map fun k => scopedName (scope.take k) name).find? l.has

def localReference (l : Lowering) (name : String) : Reference :=
  .inUnit l.identity l.module name

def imported? (l : Lowering) (name : List Char) : Option Reference :=
  (l.imports.resolve? name).map fun (module, member) =>
    match member with
    | some member => .external (stored module) (stored member)
    | none => .ofDotted module

/-- An imported name, a dotted name of some module, or a name of the unit. -/
def elsewhere (l : Lowering) (name : List Char) : Reference :=
  match l.imported? name with
  | some r => r
  | none => if name.contains '.' then .ofDotted name else l.localReference (stored name)

def tableReference (l : Lowering) (name : List Char) : Reference :=
  match l.imports.resolve? name with
  | some (module, some member) =>
    if Text.endsWith member "patterns" then .external (stored module) (stored member)
    else .external (stored module ++ "." ++ stored member) "urlpatterns"
  | some (module, none) => .external (stored module) "urlpatterns"
  | none => if name.contains '.' then .ofDotted name else l.localReference (stored name)

/-- The reference that a target means in scopes. -/
def reference (l : Lowering) (scope : List (List Char)) : Target → Reference
  | .name path =>
    match l.visible? scope path with
    | some key => l.localReference key
    | none => l.elsewhere path
  | .factory path =>
    let declared := l.nodes.any fun n => n.factory == some (stored path)
    { (if declared then l.localReference (stored path) else l.elsewhere path) with factory := true }
  | .table path =>
    match l.visible? scope path with
    | some key => l.localReference key
    | none => l.tableReference path
  | .member module name => .external (stored module) (stored name)

/-- Declares a node, or adds to the one of its name: the first path that is not empty holds, and
metadata accumulate. -/
def declare (l : Lowering) (s : Sighting) : Lowering :=
  match s.emission with
  | .node name kind path metadata _ line =>
    let key := scopedName s.scope name
    (l.add { l.newNode key kind line with factory := s.factory.map stored }).modify key fun n =>
      { n with
        path := if n.path.isEmpty then stored path else n.path
        metadata := n.metadata.merge metadata }
  | _ => l

def addBases (l : Lowering) (s : Sighting) : Lowering :=
  match s.emission with
  | .node name _ _ _ bases _ =>
    let refs := bases.map fun b => l.reference s.scope (.name b)
    l.modify (scopedName s.scope name) fun n => { n with bases := n.bases ++ refs }
  | _ => l

def addImplicit (l : Lowering) (key : String) (line : Nat) : Lowering :=
  l.add (l.newNode key .router line)

/-- The reference of the router that a fragment is registered on. -/
def receiver (l : Lowering) (scope : List (List Char)) (name : List Char) (line : Nat) :
    Lowering × Reference :=
  match l.visible? scope name with
  | some key => (l, ((l.node? key).bind Node.stands).getD (l.localReference key))
  | none =>
    match l.imported? name with
    | some r => (l, r)
    | none =>
      let key := scopedName scope name
      (l.addImplicit key line, l.localReference key)

/-- The node that links of a name are kept at; an imported parent gets a stand-in. -/
def parent (l : Lowering) (scope : List (List Char)) (name : List Char) (line : Nat) :
    Lowering × String :=
  match l.visible? scope name with
  | some key => (l, key)
  | none =>
    let key := scopedName scope name
    let added := l.addImplicit key line
    match l.imported? name with
    | some r => (added.modify key fun n => { n with stands := some r }, key)
    | none => (added, key)

/-- Lowers what is no node: a fragment, a link or an export. -/
def attach (l : Lowering) (s : Sighting) : Lowering × Option Fragment :=
  match s.emission with
  | .fragment owner method path symbol action line metadata =>
    let (l, key) := match owner with
      | some name => (l.receiver s.scope name line).map id some
      | none => (l, none)
    (l, some {
      method, path := stored path, symbol := stored symbol, action := action.map stored
      idiom := s.idiom, location := ⟨l.identity, line⟩, metadata, key })
  | .link owner target binding path metadata line =>
    let link : Link := {
      target := l.reference s.scope target, symbol := target.symbol, binding, path := stored path
      metadata, location := ⟨l.identity, line⟩ }
    let (l, key) := l.parent s.scope owner line
    (l.modify key fun n => { n with links := n.links ++ [link] }, none)
  | .export name as =>
    match l.visible? s.scope name with
    | some key => (l.modify key fun n =>
        if n.answersTo (stored as) then n else { n with aliases := n.aliases ++ [stored as] }, none)
    | none => (l, none)
  | .node _ _ _ _ _ _ | .verbAlias _ _ _ => (l, none)

def attachAll (l : Lowering) : List Sighting → Lowering × List Fragment
  | [] => (l, [])
  | s :: rest =>
    let (l, fragment?) := l.attach s
    let (l, fragments) := l.attachAll rest
    (l, fragment?.toList ++ fragments)

/-- Lowers all sightings of a unit: first its nodes, then their bases, then the rest. -/
def lower (l : Lowering) (sightings : List Sighting) : Lowering × List Fragment :=
  let declared := sightings.foldl declare l
  let based := sightings.foldl addBases declared
  based.attachAll sightings

end Lowering

end EndpointCensus
