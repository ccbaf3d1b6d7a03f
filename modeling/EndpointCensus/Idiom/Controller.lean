import EndpointCensus.Idiom.Heading

/-! Controller classes of scripts: a decorated class is a router, and each of its methods below a
route decorator is a route. -/

namespace EndpointCensus.Controller

open Text

def routeMarks : List String :=
  ["Get", "Post", "Put", "Patch", "Delete", "Head", "Options", "All"]

def modifiers : List String := ["public", "private", "protected", "static", "async", "override"]

/-- The name and body of a class declaration: the text from the name on, after it, and from the
opening brace on. -/
def classParts? (masked : List Char) : Option (List Char × List Char × List Char) := do
  let skip (word : String) (cs : List Char) := (afterWord? [word] cs).getD cs
  let start ← afterWord? ["class"] (skip "abstract" (skip "default" (skip "export" masked)))
  let (_, rest) ← identifier? start
  let body := rest.dropWhile (· != '{')
  if body.isEmpty then none else some (start, rest, body)

/-- The path in the argument of a controller: a literal, or the `path` entry of an object. -/
def basePath (args : Args) : List Char :=
  match args.positional? 0 with
  | none => []
  | some first =>
    match first.stringValue? with
    | some path => path
    | none =>
      let entry := (first.dictItems?.getD []).find? fun (key, _) =>
        key.text == "path".toList || key.stringValue? == some "path".toList
      (entry.bind fun e => e.2.stringValue?).getD []

/-- An identifier before a parenthesis or type parameters: the text after it. -/
def named? (cs : List Char) : Option (List Char × List Char) :=
  match identifier? cs with
  | some (_, rest) =>
    match (trimStart rest).head? with
    | some c => if c == '(' || c == '<' then some (cs, rest) else none
    | none => none
  | none => none

/-- The name of a method after its modifiers, as the text from it and after it. A modifier is itself
the name where no other name follows. At most `fuel` modifiers are read. -/
def methodName? : Nat → List Char → Option (List Char × List Char)
  | 0, cs => named? cs
  | fuel + 1, cs => ((afterWord? modifiers cs).bind (methodName? fuel)).or (named? cs)

/-- The name of a decorator, with the text after it and white space. -/
def decoratorName? (masked : List Char) : Option (List Char × List Char) :=
  match masked with
  | '@' :: c :: cs =>
    let isPart (d : Char) := isNamePart d || d == '.'
    if isNameStart c then some (c :: cs.takeWhile isPart, trimStart (cs.dropWhile isPart)) else none
  | _ => none

/-- The method below the remaining decorators of a member, and the status code they declare. At most
`fuel` decorators are read. -/
def member? : Nat → Option UInt16 → Expr → Option (List Char × Metadata)
  | 0, _, _ => none
  | fuel + 1, code, e =>
    let masked := e.masked
    match decoratorName? masked with
    | none => (methodName? masked.length masked).map fun (start, rest) =>
      (e.between start rest, { statusCode := code })
    | some (name, rest) =>
      if rest.head? == some '(' then
        (e.argsIn? masked (e.offsetOf rest)).bind fun args =>
          let code := if name == "HttpCode".toList then
              ((args.positional? 0).bind Expr.statusCode?).map UInt16.ofNat
            else code
          member? fuel code (e.tail args.stop)
      else member? fuel code (e.tail (e.offsetOf rest))

/-- A decorator may follow white space, a brace or a semicolon. -/
def isFree (before : Option Char) : Bool :=
  before.all fun c => isBlank c || c == '{' || c == '}' || c == ';'

/-- The route decorators in a text: the method, the text from the mark on and the text from the
parenthesis on. -/
def marks (before : Option Char) : List Char → List (Method × List Char × List Char)
  | [] => []
  | c :: cs =>
    let found? := if c == '@' && isFree before then
        routeMarks.findSome? fun word => (after? word cs).bind fun rest =>
          if (trimStart rest).head? == some '(' then
            (Method.ofVerb? word.toList).map fun m => (m, c :: cs, trimStart rest)
          else none
      else none
    found?.toList ++ marks (some c) cs

/-- The route of a decorator in the masked body of a class. -/
def route? (owner : List Char) (s : Statement) (body : Expr) (masked : List Char)
    (mark : Method × List Char × List Char) : Option Emission := do
  let (method, start, paren) := mark
  let args ← body.argsIn? masked (body.offsetOf paren)
  let rest := body.tail args.stop
  let (name, metadata) ← member? (rest.glyphs.length + 1) none rest
  some <| .fragment (some owner) method (((args.positional? 0).bind Expr.stringValue?).getD [])
    (owner ++ '.' :: name) (some name) (s.lineAt (body.offset + body.offsetOf start)) metadata

/-- What the idiom reads from a statement of a script: a controller decorator above a class. -/
def match? (c : Context) : Option (List Emission) := do
  let e := c.expr
  let rest ← after? "@Controller" e.masked
  let paren := trimStart rest
  let args ← e.argsAt? (e.offsetOf paren)
  if !(e.tail args.stop).isEmpty then none
  else
    let s ← c.following.find? fun s => !s.isDecorator
    let whole := Expr.ofStatement s
    let (start, after, brace) ← classParts? whole.masked
    let owner := whole.between start after
    let body := whole.tail (whole.offsetOf brace)
    let masked := body.masked
    some <| .node owner .router (basePath args) {} [] c.line ::
      (marks none masked).filterMap (route? owner s body masked)

end EndpointCensus.Controller
