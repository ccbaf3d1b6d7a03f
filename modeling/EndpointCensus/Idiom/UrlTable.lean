import EndpointCensus.Idiom.Heading

/-! Tables of URL patterns. A table is a node; each entry binds a view to a path or includes another
table under its route. -/

namespace EndpointCensus.UrlTable

open Text

/-- The name of the table and the value assigned to it, at the start of a masked text: a word that
ends in `patterns`, an annotation if there is one, and an equals sign. -/
def assigned? (masked : List Char) : Option (List Char × List Char) := do
  let (name, rest) ← word? masked
  if name.length ≤ 8 || !endsWith name "patterns" then none
  else
    let rest := trimStart rest
    let rest := if rest.head? == some ':' then rest.dropWhile (· != '=') else rest
    match rest with
    | '=' :: value | '+' :: '=' :: value => some (name, value)
    | _ => none

/-- The route of a regular expression without its anchors. -/
def stripAnchors (cs : List Char) : List Char :=
  let cs := if cs.head? == some '^' then cs.tail else cs
  (before? "$" cs).getD cs

/-- A dotted name as the router whose `urls` it takes, or else as a table. -/
def includedName (name : List Char) : Target :=
  match before? ".urls" name with
  | some router => .name router
  | none => .table name

/-- Methods and actions of a dictionary; entries that are no such pair are left out. -/
def methodMap (e : Option Expr) : List (Method × String) :=
  ((e.bind Expr.dictItems?).getD []).filterMap fun (key, value) => do
    let method ← key.stringValue?.bind Method.ofVerb?
    let action ← value.stringValue?
    some (method, stored action)

/-- Where the entries of a table are written. -/
structure Site where
  context : Context
  table : List Char

namespace Site

def lineOf (s : Site) (e : Expr) : Nat := s.context.statement.lineAt e.offset

def inclusion (s : Site) (target : Target) (route : List Char) (line : Nat) : Emission :=
  .link s.table target .inclusion route {} line

/-- A view by name or by the text of a module's member; a fragment of its own for anything else. -/
def viewEntry (s : Site) (view : Expr) (route : List Char) (line : Nat) (metadata : Metadata) :
    Emission :=
  let target? := match view.stringValue? with
    | some dotted => some <| match splitLast? '.' dotted with
      | some (module, name) => Target.member module name
      | none => .name dotted
    | none => view.namePath?.map .name
  match target? with
  | some target => .link s.table target .handler route metadata line
  | none => .fragment (some s.table) .any route view.text none line metadata

mutual

/-- An entry with `outer` before its route. Inline lists nest at most `fuel` deep. -/
def entry (s : Site) : Nat → List Char → Expr → List Emission
  | 0, _, _ => []
  | fuel + 1, outer, item =>
    match item.call? with
    | none => []
    | some c =>
      let kind := lastSegment c.callee
      match (c.args.positional? 1).or (c.args.keyword? "view") with
      | none => []
      | some view =>
        if isOneOf ["path", "re_path", "url"] kind then
          let written := (((c.args.positional? 0).or (c.args.keyword? "route")).bind
            Expr.stringValue?).getD []
          let route := outer ++ if isOneOf ["path"] kind then written else stripAnchors written
          let line := s.lineOf item
          let name := ((c.args.keyword? "name").bind Expr.stringValue?).map stored
          let plain := [s.viewEntry view route line { name }]
          match view.call? with
          | none => plain
          | some v =>
            if isOneOf ["include"] (lastSegment v.callee) then
              match v.args.positional? 0 with
              | some first => included s fuel first route line
              | none => []
            else match before? ".as_view" v.callee with
              | some owner =>
                let actions := (v.args.positional? 0).or (v.args.keyword? "actions")
                [.link s.table (.name owner) (.view (methodMap actions)) route { name } line]
              | none => plain
        else []

/-- What an inclusion is given: a module, a list of entries, a tuple that begins with one of them,
or a name. -/
def included (s : Site) : Nat → Expr → List Char → Nat → List Emission
  | 0, _, _, _ => []
  | fuel + 1, first, route, line =>
    match first.stringValue? with
    | some module => [s.inclusion (.member module "urlpatterns".toList) route line]
    | none =>
      match first.items? with
      | some items =>
        if first.masked.head? == some '(' then
          match items with
          | inner :: _ => included s fuel inner route line
          | [] => []
        else items.flatMap (entry s fuel route)
      | none =>
        match first.namePath? with
        | some name => [s.inclusion (includedName name) route line]
        | none => []

end

/-- One operand of a sum of tables: a list, a name, or a call of `patterns`. -/
def operand (s : Site) (e : Expr) : List Emission :=
  let fuel := e.glyphs.length + 1
  match e.items? with
  | some items => items.flatMap (s.entry fuel [])
  | none =>
    match e.namePath? with
    | some name => [s.inclusion (includedName name) [] (s.lineOf e)]
    | none =>
      match e.call? with
      | some c =>
        if isOneOf ["patterns"] (lastSegment c.callee) then
          (c.args.positionals.drop 1).flatMap (s.entry fuel [])
        else []
      | none => []

end Site

def match? (c : Context) : Option (List Emission) := do
  let e := c.expr
  let (name, value) ← assigned? e.masked
  let table := e.chars 0 (width name)
  let sum := e.tail (e.offsetOf value)
  if sum.isEmpty || sum.masked.head? == some '=' then none
  else
    some <| .node table .urlTable [] {} [] c.line ::
      (sum.split '+' 0 sum.width).flatMap (Site.operand ⟨c, table⟩)

end EndpointCensus.UrlTable
