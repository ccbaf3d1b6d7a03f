import EndpointCensus.Endpoint
import EndpointCensus.Source
import EndpointCensus.Stored.Fields

/-! The stored form of every record. Fields without a value are left out where the form allows it;
what is left out of metadata and endpoints as an empty list must still be there to be read. -/

namespace EndpointCensus

open Stored

namespace Language

def key : Language → String
  | python => "python"
  | script => "script"

def ofKey? (s : String) : Option Language := [python, script].find? (·.key == s)

def toJson (l : Language) : Json := .str l.key

def ofJson? (v : Json) : Option Language := (variant? v).bind ofKey?

end Language

namespace Method

def toJson (m : Method) : Json := .str m.name

def ofJson? (v : Json) : Option Method := (variant? v).bind ofName?

end Method

namespace Idiom

def ofKey? (s : String) : Option Idiom := all.find? (·.key == s)

def toJson (i : Idiom) : Json := .str i.key

def ofJson? (v : Json) : Option Idiom := (variant? v).bind ofKey?

end Idiom

namespace NodeKind

def toJson (k : NodeKind) : Json := .str k.key

def ofJson? (v : Json) : Option NodeKind :=
  (variant? v).bind fun s => all.find? (·.key == s)

end NodeKind

namespace Location

def toJson (l : Location) : Json := .obj [("unit", .str l.unit), ("line", .nat l.line)]

def ofJson? (v : Json) : Option Location := do
  match ← fields? ["unit", "line"] v with
  | [unit, line] => some {
      unit := ← required? Json.str? unit
      line := ← required? (Json.nat? Text.maxWord) line }
  | _ => none

end Location

namespace Metadata

def toJson (m : Metadata) : Json := .obj <|
  member "status_code" (fun n : UInt16 => .nat n.toNat) m.statusCode ++
  listMember "tags" .str m.tags ++
  member "summary" .str m.summary ++
  listMember "dependencies" .str m.dependencies ++
  member "name" .str m.name ++
  member "deprecated" .bool (if m.deprecated then some true else none)

def ofJson? (v : Json) : Option Metadata := do
  match ← fields? ["status_code", "tags", "summary", "dependencies", "name", "deprecated"] v with
  | [statusCode, tags, summary, dependencies, name, deprecated] => some {
      statusCode := (← optional? (Json.nat? 65535) statusCode).map UInt16.ofNat
      tags := ← required? (Json.list? Json.str?) tags
      summary := ← optional? Json.str? summary
      dependencies := ← required? (Json.list? Json.str?) dependencies
      name := ← optional? Json.str? name
      deprecated := ← required? Json.bool? deprecated }
  | _ => none

end Metadata

namespace Reference

def toJson (r : Reference) : Json := .obj [
  ("unit", .ofOption .str r.unit), ("module", .str r.module), ("name", .str r.name),
  ("factory", .bool r.factory)]

def ofJson? (v : Json) : Option Reference := do
  match ← fields? ["unit", "module", "name", "factory"] v with
  | [unit, module, name, factory] => some {
      unit := ← optional? Json.str? unit
      module := ← required? Json.str? module
      name := ← required? Json.str? name
      factory := ← required? Json.bool? factory }
  | _ => none

end Reference

namespace Binding

def toJson : Binding → Json
  | inclusion => .str "include"
  | handler => .str "handler"
  | resource => .str "resource"
  | view methodMap => .obj [("view", .obj [("method_map",
      .ofList (fun e => .arr [e.1.toJson, .str e.2]) methodMap)])]

def entry? : Json → Option (Method × String)
  | .arr [method, action] => do some (← Method.ofJson? method, ← action.str?)
  | _ => none

def ofJson? (v : Json) : Option Binding :=
  match v with
  | .obj [("view", body)] => do
    match ← fields? ["method_map"] body with
    | [methodMap] => some (.view (← required? (Json.list? entry?) methodMap))
    | _ => none
  | _ => (variant? v).bind fun s =>
    if s == "include" then some inclusion
    else if s == "handler" then some handler
    else if s == "resource" then some resource
    else none

end Binding

namespace Link

def toJson (l : Link) : Json := .obj [
  ("target", l.target.toJson), ("symbol", .str l.symbol), ("binding", l.binding.toJson),
  ("prefix", .str l.path), ("metadata", l.metadata.toJson), ("location", l.location.toJson)]

def ofJson? (v : Json) : Option Link := do
  match ← fields? ["target", "symbol", "binding", "prefix", "metadata", "location"] v with
  | [target, symbol, binding, path, metadata, location] => some {
      target := ← required? Reference.ofJson? target
      symbol := ← required? Json.str? symbol
      binding := ← required? Binding.ofJson? binding
      path := ← required? Json.str? path
      metadata := ← required? Metadata.ofJson? metadata
      location := ← required? Location.ofJson? location }
  | _ => none

end Link

namespace Node

def toJson (n : Node) : Json := .obj [
  ("unit", .str n.unit), ("module", .str n.module), ("name", .str n.name),
  ("kind", n.kind.toJson), ("prefix", .str n.path), ("metadata", n.metadata.toJson),
  ("bases", .ofList Reference.toJson n.bases), ("aliases", .ofList .str n.aliases),
  ("factory", .ofOption .str n.factory), ("extends", .ofOption Reference.toJson n.stands),
  ("links", .ofList Link.toJson n.links), ("location", n.location.toJson)]

def ofJson? (v : Json) : Option Node := do
  match ← fields? ["unit", "module", "name", "kind", "prefix", "metadata", "bases", "aliases",
      "factory", "extends", "links", "location"] v with
  | [unit, module, name, kind, path, metadata, bases, aliases, factory, stands, links,
      location] => some {
      unit := ← required? Json.str? unit
      module := ← required? Json.str? module
      name := ← required? Json.str? name
      kind := ← required? NodeKind.ofJson? kind
      path := ← required? Json.str? path
      metadata := ← required? Metadata.ofJson? metadata
      bases := ← required? (Json.list? Reference.ofJson?) bases
      aliases := ← required? (Json.list? Json.str?) aliases
      factory := ← optional? Json.str? factory
      stands := ← optional? Reference.ofJson? stands
      links := ← required? (Json.list? Link.ofJson?) links
      location := ← required? Location.ofJson? location }
  | _ => none

end Node

namespace Fragment

def toJson (f : Fragment) : Json := .obj [
  ("method", f.method.toJson), ("path", .str f.path), ("symbol", .str f.symbol),
  ("action", .ofOption .str f.action), ("idiom", f.idiom.toJson),
  ("location", f.location.toJson), ("metadata", f.metadata.toJson),
  ("key", .ofOption Reference.toJson f.key)]

def ofJson? (v : Json) : Option Fragment := do
  match ← fields? ["method", "path", "symbol", "action", "idiom", "location", "metadata", "key"]
      v with
  | [method, path, symbol, action, idiom, location, metadata, key] => some {
      method := ← required? Method.ofJson? method
      path := ← required? Json.str? path
      symbol := ← required? Json.str? symbol
      action := ← optional? Json.str? action
      idiom := ← required? Idiom.ofJson? idiom
      location := ← required? Location.ofJson? location
      metadata := ← required? Metadata.ofJson? metadata
      key := ← optional? Reference.ofJson? key }
  | _ => none

end Fragment

namespace Param

def toJson (p : Param) : Json :=
  .obj (("name", .str p.name) :: member "constraint" .str p.constraint)

def ofJson? (v : Json) : Option Param := do
  match ← fields? ["name", "constraint"] v with
  | [name, constraint] => some {
      name := ← required? Json.str? name
      constraint := ← optional? Json.str? constraint }
  | _ => none

end Param

namespace Endpoint

def toJson (e : Endpoint) : Json := .obj <|
  [("method", e.method.toJson), ("path", .str e.path), ("symbol", .str e.symbol),
    ("location", e.location.toJson), ("metadata", e.metadata.toJson)] ++
  listMember "params" Param.toJson e.params ++
  member "unresolved" .str e.unresolved

def ofJson? (v : Json) : Option Endpoint := do
  match ← fields? ["method", "path", "symbol", "location", "metadata", "params", "unresolved"]
      v with
  | [method, path, symbol, location, metadata, params, unresolved] => some {
      method := ← required? Method.ofJson? method
      path := ← required? Json.str? path
      symbol := ← required? Json.str? symbol
      location := ← required? Location.ofJson? location
      metadata := ← required? Metadata.ofJson? metadata
      params := ← required? (Json.list? Param.ofJson?) params
      unresolved := ← optional? Json.str? unresolved }
  | _ => none

end Endpoint

namespace Category

def key : Category → String
  | lexical => "lexical"
  | statement => "statement"
  | composition => "composition"
  | duplicate => "duplicate"
  | ambiguity => "ambiguity"

end Category

namespace Issue

/-- The kind of an issue and its fields. -/
def parts : Issue → String × List (String × Json)
  | unterminatedLiteral => ("unterminated_literal", [])
  | unterminatedComment => ("unterminated_comment", [])
  | unterminatedConstruct => ("unterminated_construct", [])
  | unresolvedReference reference => ("unresolved_reference", [("reference", .str reference)])
  | cyclicInclusion reference => ("cyclic_inclusion", [("reference", .str reference)])
  | duplicateRegistration method path other => ("duplicate_registration",
      [("method", method.toJson), ("path", .str path), ("other", other.toJson)])
  | repeatedInclusion method path => ("repeated_inclusion",
      [("method", method.toJson), ("path", .str path)])
  | ambiguousMatch idioms => ("ambiguous_match", [("idioms", .ofList Idiom.toJson idioms)])

def toJson (i : Issue) : Json := .obj (("kind", .str i.parts.1) :: i.parts.2)

def method? (v : Json) : Option Method := (taggedVariant? v).bind Method.ofName?

def idiom? (v : Json) : Option Idiom := (taggedVariant? v).bind Idiom.ofKey?

/-- The issue of a kind whose fields are those of a record. -/
def ofParts? (kind : String) (v : Json) : Option Issue :=
  if kind == "unterminated_literal" then plain? unterminatedLiteral
  else if kind == "unterminated_comment" then plain? unterminatedComment
  else if kind == "unterminated_construct" then plain? unterminatedConstruct
  else if kind == "unresolved_reference" then do
    match ← fields? ["reference"] v with
    | [reference] => some (unresolvedReference (← required? Json.str? reference))
    | _ => none
  else if kind == "cyclic_inclusion" then do
    match ← fields? ["reference"] v with
    | [reference] => some (cyclicInclusion (← required? Json.str? reference))
    | _ => none
  else if kind == "duplicate_registration" then do
    match ← fields? ["method", "path", "other"] v with
    | [method, path, other] => some (duplicateRegistration
        (← required? method? method) (← required? Json.str? path)
        (← required? Location.ofJson? other))
    | _ => none
  else if kind == "repeated_inclusion" then do
    match ← fields? ["method", "path"] v with
    | [method, path] => some (repeatedInclusion
        (← required? method? method) (← required? Json.str? path))
    | _ => none
  else if kind == "ambiguous_match" then do
    match ← fields? ["idioms"] v with
    | [idioms] => some (ambiguousMatch (← required? (Json.list? idiom?) idioms))
    | _ => none
  else none
where
  plain? (i : Issue) : Option Issue :=
    match v with
    | .arr [] | .obj _ => some i
    | _ => none

/-- The kind may stand anywhere among the members; in an array it comes first. An issue is read as a
whole before its kind is known, so all of it must be readable. -/
def ofJson? (v : Json) : Option Issue :=
  match v with
  | .obj members => do
    let kind ← required? Json.str? (← member? members "kind")
    if v.isReadable then ofParts? kind (.obj (members.filter fun m => m.1 != "kind")) else none
  | .arr (.str kind :: rest) => if v.isReadable then ofParts? kind (.arr rest) else none
  | _ => none

end Issue

namespace Diagnostic

def toJson (d : Diagnostic) : Json :=
  .obj [("location", d.location.toJson), ("issue", d.issue.toJson)]

def ofJson? (v : Json) : Option Diagnostic := do
  match ← fields? ["location", "issue"] v with
  | [location, issue] => some {
      location := ← required? Location.ofJson? location
      issue := ← required? Issue.ofJson? issue }
  | _ => none

end Diagnostic

namespace SourceUnit

def toJson (u : SourceUnit) : Json := .obj [
  ("identity", .str u.identity), ("language", u.language.toJson), ("text", .str u.text)]

def ofJson? (v : Json) : Option SourceUnit := do
  match ← fields? ["identity", "language", "text"] v with
  | [identity, language, text] => some {
      identity := ← required? Json.str? identity
      language := ← required? Language.ofJson? language
      text := ← required? Json.str? text }
  | _ => none

end SourceUnit

namespace UnitReport

def toJson (r : UnitReport) : Json := .obj [
  ("identity", .str r.identity), ("fragments", .ofList Fragment.toJson r.fragments),
  ("nodes", .ofList Node.toJson r.nodes), ("diagnostics", .ofList Diagnostic.toJson r.diagnostics)]

def ofJson? (v : Json) : Option UnitReport := do
  match ← fields? ["identity", "fragments", "nodes", "diagnostics"] v with
  | [identity, fragments, nodes, diagnostics] => some {
      identity := ← required? Json.str? identity
      fragments := ← required? (Json.list? Fragment.ofJson?) fragments
      nodes := ← required? (Json.list? Node.ofJson?) nodes
      diagnostics := ← required? (Json.list? Diagnostic.ofJson?) diagnostics }
  | _ => none

end UnitReport

end EndpointCensus
