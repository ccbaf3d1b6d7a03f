import EndpointCensus.Idiom.Heading

/-! Class-based views: the members of a class that are named for HTTP methods. -/

namespace EndpointCensus.ClassView

open Text

/-- The methods that a base class handles without declaring them. -/
def impliedMethods (base : List Char) : List Method :=
  let isAny (names : List String) : Bool := isOneOf names (lastSegment base)
  if isAny ["ListAPIView", "RetrieveAPIView", "ListView", "DetailView", "TemplateView",
      "RedirectView", "ArchiveIndexView"] then [.get]
  else if isAny ["CreateAPIView"] then [.post]
  else if isAny ["DestroyAPIView"] then [.delete]
  else if isAny ["UpdateAPIView"] then [.put, .patch]
  else if isAny ["ListCreateAPIView"] then [.get, .post]
  else if isAny ["RetrieveUpdateAPIView"] then [.get, .put, .patch]
  else if isAny ["RetrieveDestroyAPIView"] then [.get, .delete]
  else if isAny ["RetrieveUpdateDestroyAPIView"] then [.get, .put, .patch, .delete]
  else if isAny ["FormView", "CreateView", "UpdateView", "DeleteView"] then [.get, .post]
  else []

def bases (e : Expr) : List (List Char) :=
  let masked := e.masked
  let head := masked.takeWhile (· != '(')
  if head.contains ':' then []
  else match e.argsAt? (width head) with
    | some args => args.positionals.filterMap Expr.namePath?
    | none => []

/-- What the idiom reads from a statement: a class, or a member named for a method. -/
def match? (c : Context) : Option (List Emission) :=
  match c.statement.className? with
  | some name => some [.node name .viewClass [] {} (bases c.expr) c.line]
  | none => do
    let owner ← c.owner?
    let member ← c.statement.defName?
    if isVerb member then
      let method ← Method.ofVerb? member
      some [.fragment (some owner) method [] (c.qualify member) (some member) c.line {}]
    else none

end EndpointCensus.ClassView
