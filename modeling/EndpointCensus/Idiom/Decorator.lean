import EndpointCensus.Idiom.Heading

/-! Routes declared by decorators, and the statements that build and combine the routers they belong
to: constructors, inclusions, and decorators applied by hand. -/

namespace EndpointCensus.Decorator

open Text

/-- What a decorator says of the function below it. -/
inductive Reading where
  /-- It registers the function on a router. -/
  | route (receiver : List Char) (methods : List Method) (args : Option Args)
  /-- It names the methods of a function that is bound elsewhere. -/
  | hint (methods : List Method)
  deriving DecidableEq, Repr

def keyword? (args : Option Args) (name : String) : Option Expr := args.bind (·.keyword? name)

def positional? (args : Option Args) (n : Nat) : Option Expr := args.bind (·.positional? n)

/-- The methods that a decorator of a function view allows. -/
def hinted (last : List Char) (args : Option Args) : List Method :=
  if isOneOf ["api_view"] last then
    methodsOrGet ((positional? args 0).or (keyword? args "http_method_names"))
  else if isOneOf ["require_http_methods"] last then methodsOf (positional? args 0)
  else if isOneOf ["require_GET"] last then [.get]
  else if isOneOf ["require_POST"] last then [.post]
  else if isOneOf ["require_safe"] last then [.get, .head]
  else []

def read? (body : Expr) : Option Reading := do
  let (callee, args) ← body.callOrName?
  let last := lastSegment callee
  let hint? : Option Reading := match hinted last args with
    | [] => none
    | methods => some (.hint methods)
  match splitLast? '.' callee with
  | some (receiver, _) =>
    if isVerb last then some (.route receiver (Method.ofVerb? last).toList args)
    else if isOneOf ["route", "api_route"] last then
      some (.route receiver (methodsOrGet (keyword? args "methods")) args)
    else hint?
  | none => hint?

/-- Dependencies as markers: what `Depends` or `Security` is given, or the item as it is written. -/
def dependencyMarkers (list : Option Expr) : List String :=
  ((list.bind Expr.items?).getD []).map fun item =>
    let given? := item.call?.bind fun c =>
      if isOneOf ["Depends", "Security"] (lastSegment c.callee) then
        (c.args.positional? 0).or (c.args.keyword? "dependency")
      else none
    stored (given?.getD item).text

/-- The string literals of a list, each once. -/
def tagsOf (list : Option Expr) : List String :=
  match list with
  | some e => (e.stringItems.map stored).foldl Metadata.insertTag []
  | none => []

def storedValue? (e : Option Expr) : Option String := (e.bind Expr.stringValue?).map stored

def groupMetadata (args : Args) : Metadata where
  tags := tagsOf (args.keyword? "tags")
  dependencies := dependencyMarkers (args.keyword? "dependencies")

/-- All that the arguments of a route say beside its path. -/
def routeMetadata (args : Args) : Metadata where
  statusCode := ((args.keyword? "status_code").bind Expr.statusCode?).map UInt16.ofNat
  summary := storedValue? (args.keyword? "summary")
  name := storedValue? ((args.keyword? "name").or (args.keyword? "endpoint"))
  deprecated := ((args.keyword? "deprecated").bind Expr.boolValue?).getD false
  tags := tagsOf (args.keyword? "tags")
  dependencies := dependencyMarkers (args.keyword? "dependencies")

/-- A decorator above a function or a class. -/
def decorated? (c : Context) (body : Expr) : Option (List Emission) := do
  let reading ← read? body
  let target ← c.decorated?
  match reading with
  | .route receiver methods args =>
    let path := pathOf <|
      ((positional? args 0).or (keyword? args "path")).or (keyword? args "rule")
    let metadata := (args.map routeMetadata).getD {}
    if target.isClass then
      some [.link receiver (.name target.name) (.view []) path metadata c.line]
    else some <| methods.map fun method =>
      .fragment (some receiver) method path (c.qualify target.name) (some target.name) c.line metadata
  | .hint methods =>
    if target.isClass then none
    else some <| .node target.name .viewFunction [] {} [] c.line :: methods.map fun method =>
      .fragment (some target.name) method [] target.name (some target.name) c.line {}

def constructors : List String :=
  ["FastAPI", "APIRouter", "Flask", "Quart", "Blueprint", "APIBlueprint"]

def constructed? (c : Context) (e : Expr) : Option (List Emission) := do
  let a ← e.assignment?
  if isOneOf constructors (lastSegment a.callee) then
    let path := pathOf ((a.args.keyword? "prefix").or (a.args.keyword? "url_prefix"))
    some [.node a.name .router path (groupMetadata a.args) [] c.line]
  else none

/-- The longest run of word characters and dots, from an ASCII letter or underscore on, cut at its
last dot: a receiver and its member, with the text after the run. -/
def memberRun? (cs : List Char) : Option (List Char × List Char × List Char) :=
  match cs with
  | [] => none
  | c :: rest =>
    let isPart (d : Char) := isWord d || d == '.'
    if isWordStart c then
      (splitLast? '.' (c :: rest.takeWhile isPart)).bind fun r =>
        if r.1.isEmpty then none else some (r.1, r.2, rest.dropWhile isPart)
    else none

/-- A call of one of the members at the start of an expression: the receiver, the member and the
arguments. -/
def memberCall? (members : List String) (e : Expr) : Option (List Char × List Char × Args) := do
  let (receiver, member, rest) ← memberRun? e.masked
  let paren := trimStart rest
  if isOneOf members member && paren.head? == some '(' then
    let args ← e.argsAt? (e.offsetOf paren)
    some (e.chars 0 (width receiver), member, args)
  else none

/-- The child of an inclusion and the path it is included under. -/
def inclusionParts? (verb : List Char) (args : Args) : Option (Expr × List Char) :=
  if isOneOf ["include_router"] verb then
    ((args.positional? 0).or (args.keyword? "router")).map fun child =>
      (child, pathOf (args.keyword? "prefix"))
  else if isOneOf ["register_blueprint"] verb then
    ((args.positional? 0).or (args.keyword? "blueprint")).map fun child =>
      (child, pathOf (args.keyword? "url_prefix"))
  else
    ((args.positional? 1).or (args.keyword? "app")).map fun child =>
      (child, pathOf ((args.positional? 0).or (args.keyword? "path")))

def included? (c : Context) (e : Expr) : Option (List Emission) := do
  let (parent, verb, args) ← memberCall? ["include_router", "register_blueprint", "mount"] e
  if !(e.tail args.stop).isEmpty then none
  else
    let (child, path) ← inclusionParts? verb args
    let target ← if isOneOf ["mount"] verb then child.namePath?.map Target.name
      else child.childTarget?
    some [.link parent target .inclusion path (groupMetadata args) c.line]

/-- A decorator applied by hand: the call of a route with the handler as argument of its result. -/
def applied? (c : Context) (e : Expr) : Option (List Emission) := do
  let (receiver, verb, args) ← memberCall? (httpVerbs ++ ["route", "api_route"]) e
  let rest := e.tail args.stop
  let application ← rest.argsAt? 0
  if !(rest.tail application.stop).isEmpty || application.items.length != 1 then none
  else
    let handler ← (application.positional? 0).bind Expr.namePath?
    let methods := match Method.ofVerb? verb with
      | some m => [m]
      | none => methodsOrGet (args.keyword? "methods")
    let path := pathOf ((args.positional? 0).or (args.keyword? "path"))
    some <| methods.map fun method =>
      .fragment (some receiver) method path handler (some (lastSegment handler)) c.line
        (routeMetadata args)

def match? (c : Context) : Option (List Emission) :=
  let e := c.expr
  if e.isDecorator then decorated? c (e.tail 1)
  else (constructed? c e).or ((included? c e).or (applied? c e))

end EndpointCensus.Decorator
