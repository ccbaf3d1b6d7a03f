import EndpointCensus.Idiom.Decorator

/-! Routes registered by calls of a router's members, in scripts and in Python, and the exports and
verb aliases of scripts. -/

namespace EndpointCensus.MemberCall

open Text

/-- Receivers that need no declaration. -/
def conventionalReceivers : List String := ["app", "router", "api", "server", "routes"]

/-- Members that register a handler for the method they name. -/
def handlerMembers : List (String × Method) := [
  ("add_get", .get), ("add_post", .post), ("add_put", .put), ("add_patch", .patch),
  ("add_delete", .delete), ("add_head", .head), ("add_options", .options)]

def verbMethod? (verb : List Char) : Option Method :=
  if isOneOf ["all"] verb then some .any else if isVerb verb then Method.ofVerb? verb else none

/-- A letter, underscore or dollar sign and more of them or digits, all ASCII. -/
def isAsciiName (cs : List Char) : Bool :=
  cs.head?.any isNameStart && cs.all fun c => isAsciiWord c || c == '$'

def acceptsReceiver (c : Context) (receiver : List Char) : Bool :=
  c.routers.contains receiver || isOneOf conventionalReceivers receiver ||
    isOneOf ["router"] (lastSegment receiver)

/-- The router that a receiver registers on: a declared application for its `router`. -/
def ownerOf (c : Context) (receiver : List Char) : List Char :=
  match before? ".router" receiver with
  | some base => if c.routers.contains base then base else receiver
  | none => receiver

def constructed? (c : Context) (e : Expr) : Option (List Emission) := do
  let a ← e.assignment?
  let isRouter := match c.language with
    | .script => isOneOf ["express"] a.callee || isOneOf ["Router"] (lastSegment a.callee)
    | .python => isOneOf ["web.Application", "Application"] a.callee
  if isRouter then some [.node a.name .router [] {} [] c.line] else none

/-! ### Exports -/

def onlyName? (cs : List Char) : Option (List Char) :=
  (identifier? cs).bind fun r => if r.2.isEmpty then some r.1 else none

def defaultExport? (masked : List Char) : Option Emission := do
  let rest ← (after? "module.exports" masked).or
    ((afterWord? ["export"] masked).bind (after? "default"))
  let name ← onlyName? (trimStart ((afterMark? '=' rest).getD rest))
  some (.export name ImportTable.defaultName)

def namedExport? (masked : List Char) : Option Emission := do
  let start ← after? "exports." ((after? "module." masked).getD masked)
  let (as, rest) ← identifier? start
  let name ← (afterMark? '=' rest).bind fun value => onlyName? (trimStart value)
  some (.export name as)

def exportedItem? (item : Expr) : Option Emission :=
  let (as, name) := match splitFirst? ':' item.masked with
    | some (as, name) => (trim as, trim name)
    | none => (item.text, item.text)
  if isAsciiName as && isAsciiName name then some (.export name as) else none

def objectExport? (e : Expr) : Option (List Emission) := do
  let value ← (after? "module.exports" e.masked).bind (afterMark? '=')
  let object := e.tail (e.offsetOf (trimStart value))
  if (trimStart value).head? != some '{' then none
  else match (← object.items?).filterMap exportedItem? with
    | [] => none
    | exports => some exports

def exported? (e : Expr) : Option (List Emission) :=
  let single? := (defaultExport? e.masked).or (namedExport? e.masked)
  (single?.map fun x => [x]).or (objectExport? e)

/-! ### Verb aliases -/

/-- The fields and the source of a declaration that takes an object apart. -/
def destructured? (e : Expr) : Option (List Char × List Char) := do
  let masked := e.masked
  let start ← ["const", "let", "var"].findSome? fun w => after? w masked
  let fields ← afterMark? '{' start
  let rest := fields.dropWhile fun c => c != '{' && c != '}'
  let source := trimStart (← (afterMark? '}' rest).bind (afterMark? '='))
  let (name, rest') ← dottedName? source
  let tail := trimStart rest'
  if rest.head? == some '}' && (tail.isEmpty || tail == [';']) then
    some (e.between fields rest, e.chars (e.offsetOf source) (e.offsetOf source + width name))
  else none

/-- The verbs taken out of a router, under their own or other names. -/
def aliases? (c : Context) (e : Expr) : Option (List Emission) := do
  let (fields, receiver) ← destructured? e
  if !acceptsReceiver c receiver then none
  else
    let emissions := (splitOn ',' fields).filterMap fun field =>
      let (verb, as) := match splitFirst? ':' field with
        | some (verb, as) => (trim verb, trim as)
        | none => (trim field, trim field)
      if (verbMethod? verb).isSome && isAsciiName as then
        some (Emission.verbAlias as (ownerOf c receiver) verb)
      else none
    match emissions with
    | [] => none
    | emissions => some emissions

end MemberCall

/-! ### Calls -/

structure MemberCall where
  context : Context
  receiver : List Char
  args : Args
  /-- What follows the argument list. -/
  tail : Expr

namespace MemberCall

open Text

def line (m : MemberCall) : Nat := m.context.line

def fragments (m : MemberCall) (methods : List Method) (path symbol : List Char) (line : Nat)
    (metadata : Metadata) : List Emission :=
  methods.map fun method =>
    .fragment (some m.receiver) method path symbol (some (lastSegment symbol)) line metadata

/-- The last handler, or the member itself when that handler is no name. -/
def symbolOf (m : MemberCall) (handlers : List Expr) (verb : List Char) : List Char :=
  (handlers.getLast?.bind Expr.namePath?).getD (m.receiver ++ '.' :: verb)

/-- The handlers of a verb: those after the path, or the one that the call's result is applied to.
None when a handler is needed and missing, or when something else follows the call. -/
def handlers? (m : MemberCall) (method : Method) : Option (List Expr) :=
  if m.tail.isEmpty then
    let given := m.args.positionals.drop 1
    let needed := m.context.language == .python || method == .get
    if needed && given.isEmpty then none else some given
  else do
    let inner ← m.tail.argsAt? 0
    if !(m.tail.tail inner.stop).isEmpty || inner.items.length != 1 then none
    else some inner.positionals

/-- A path and its handlers. -/
def verbCall? (m : MemberCall) (method : Method) (verb : List Char) : Option (List Emission) := do
  let path ← m.args.positional? 0
  let handlers ← m.handlers? method
  some (m.fragments [method] (pathOf (some path)) (m.symbolOf handlers verb) m.line {})

/-- The links of a chain of verbs on one path; at most `fuel` are read. -/
def chainFrom? (m : MemberCall) (path : List Char) : Nat → Expr → Option (List Emission)
  | 0, _ => none
  | fuel + 1, e =>
    if e.isEmpty then some []
    else do
      let start := trimStart (← after? "." e.masked)
      let (_, rest) ← identifier? start
      let verb := e.between start rest
      let args ← (e.callOpen? (e.offsetOf rest)).bind e.argsAt?
      let method ← verbMethod? verb
      let line := m.context.statement.lineAt e.offset
      let links ← m.chainFrom? path fuel (e.tail args.stop)
      some (m.fragments [method] path (m.symbolOf args.positionals verb) line {} ++ links)

def chain? (m : MemberCall) : Option (List Emission) := do
  let path ← m.args.positional? 0
  m.chainFrom? (pathOf (some path)) (m.tail.glyphs.length + 1) m.tail

/-- A child that is known to be a router of the corpus. -/
def child? (m : MemberCall) (e : Expr) : Option Target :=
  let imports := m.context.imports
  match e.namePath? with
  | some name =>
    if m.context.routers.contains name || imports.isLocal (firstSegment name) then some (.name name)
    else none
  | none => do
    let c ← e.call?
    if isOneOf ["require"] c.callee then
      let spec ← (c.args.positional? 0).bind Expr.stringValue?
      some (.member (← imports.resolveSpecifier? spec) ImportTable.defaultName)
    else if c.args.items.isEmpty && imports.isLocal (firstSegment c.callee) then
      some (.factory c.callee)
    else none

/-- A router mounted below an optional path, after any middleware. -/
def mount? (m : MemberCall) : Option (List Emission) := do
  if !m.tail.isEmpty then none
  else
    let first ← m.args.positional? 0
    let rest := if first.stringValue?.isSome then m.args.positionals.drop 1 else m.args.positionals
    let target ← rest.getLast?.bind m.child?
    some [.link m.receiver target .inclusion (first.stringValue?.getD []) {} m.line]

/-- A path and a handler at the given place of the arguments. -/
def handlerCall? (m : MemberCall) (method : Method) (place : Nat) : Option (List Emission) := do
  if !m.tail.isEmpty then none
  else
    let path ← m.args.positional? place
    let handler ← (m.args.positional? (place + 1)).or (m.args.keyword? "handler")
    some (m.fragments [method] (pathOf (some path)) (m.symbolOf [handler] "handler".toList) m.line {})

/-- A path, an endpoint and a list of methods. -/
def endpointCall? (m : MemberCall) : Option (List Emission) := do
  if !m.tail.isEmpty then none
  else
    let path ← (m.args.positional? 0).or (m.args.keyword? "path")
    let endpoint ← (m.args.positional? 1).or (m.args.keyword? "endpoint")
    some (m.fragments (methodsOrGet (m.args.keyword? "methods")) (pathOf (some path))
      (m.symbolOf [endpoint] "add_api_route".toList) m.line (Decorator.routeMetadata m.args))

/-- A rule, the name of an endpoint, a view and a list of methods. -/
def ruleCall? (m : MemberCall) : Option (List Emission) := do
  if !m.tail.isEmpty then none
  else
    let rule ← (m.args.positional? 0).or (m.args.keyword? "rule")
    let endpoint := (m.args.positional? 1).or (m.args.keyword? "endpoint")
    let view := (m.args.positional? 2).or (m.args.keyword? "view_func")
    let name := endpoint.bind Expr.stringValue?
    let metadata : Metadata := { name := name.map stored }
    match view.bind Expr.call? with
    | some c => (before? ".as_view" c.callee).map fun owner =>
      [.link m.receiver (.name owner) (.view []) (pathOf (some rule)) metadata m.line]
    | none =>
      let symbol ← (view.bind Expr.namePath?).or name
      some (m.fragments (methodsOrGet (m.args.keyword? "methods")) (pathOf (some rule)) symbol m.line
        metadata)

/-- A method, a path and a handler; a star stands for every method. -/
def methodCall? (m : MemberCall) : Option (List Emission) := do
  let written ← (m.args.positional? 0).bind Expr.stringValue?
  let method ← if written == ['*'] then some .any else Method.ofVerb? written
  m.handlerCall? method 1

def register? (m : MemberCall) (member : List Char) : Option (List Emission) :=
  let verb? := (verbMethod? member).bind fun method => m.verbCall? method member
  match m.context.language with
  | .script =>
    if isOneOf ["route"] member then m.chain?
    else if isOneOf ["use"] member then m.mount?
    else verb?
  | .python =>
    if isOneOf ["add_api_route"] member then m.endpointCall?
    else if isOneOf ["add_url_rule"] member then m.ruleCall?
    else if isOneOf ["add_route"] member then m.methodCall?
    else match handlerMembers.find? fun h => h.1.toList == member with
      | some (_, method) => m.handlerCall? method 0
      | none => verb?

/-- The call whose callee ends at byte `stop` of an expression. -/
def ofCall? (c : Context) (e : Expr) (receiver : List Char) (stop : Nat) : Option MemberCall := do
  let args ← (e.callOpen? stop).bind e.argsAt?
  some ⟨c, receiver, args, e.tail args.stop⟩

/-- A name before a parenthesis or an angle bracket. -/
def opensCall (rest : List Char) : Bool :=
  (trimStart rest).head?.any fun c => c == '(' || c == '<'

def aliasCall? (c : Context) (e : Expr) : Option (List Emission) := do
  let masked := e.masked
  let (_, rest) ← identifier? masked
  if opensCall rest then
    let a ← c.verbAliases.lookup (e.between masked rest)
    let m ← ofCall? c e a.receiver (e.offsetOf rest)
    m.verbCall? (← verbMethod? a.verb) a.verb
  else none

/-- The receiver and the member of a call, with the text after the member. -/
def callee? (masked : List Char) : Option (List Char × List Char × List Char) := do
  let (name, rest) ← dottedName? masked
  let (receiver, member) ← splitLast? '.' name
  if opensCall rest then some (receiver, member, rest) else none

/-- The registration that a statement makes through a member, or through an alias of one. -/
def registered? (c : Context) (e : Expr) : Option (List Emission) :=
  match callee? e.masked with
  | none => aliasCall? c e
  | some (receiver, member, rest) =>
    let stop := e.offsetOf rest
    let receiver := e.chars 0 (width receiver)
    if acceptsReceiver c receiver then
      (ofCall? c e (ownerOf c receiver) stop).bind (·.register? (e.chars (stop - width member) stop))
    else none

def match? (c : Context) : Option (List Emission) :=
  let e := c.expr
  (constructed? c e).or <|
    match c.language with
    | .script => (exported? e).or ((aliases? c e).or (registered? c e))
    | .python => registered? c e

end EndpointCensus.MemberCall
