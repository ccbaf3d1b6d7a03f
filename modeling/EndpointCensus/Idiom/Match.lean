import EndpointCensus.Idiom.ClassView
import EndpointCensus.Idiom.Controller
import EndpointCensus.Idiom.MemberCall
import EndpointCensus.Idiom.Resource
import EndpointCensus.Idiom.UrlTable

/-! The idioms together: every one that applies to the language is offered each statement. -/

namespace EndpointCensus

namespace Idiom

def appliesTo (i : Idiom) (l : Language) : Bool :=
  match i with
  | decoratorCall | callRegistration => true
  | urlPattern | resourceRegistration | classMethods => l == .python

/-- What one idiom reads from a statement; nothing read is no match. -/
def match? (i : Idiom) (c : Context) : Option (List Emission) :=
  let emissions? := match i with
    | decoratorCall =>
      match c.language with
      | .python => Decorator.match? c
      | .script => Controller.match? c
    | urlPattern => UrlTable.match? c
    | resourceRegistration => Resource.match? c
    | classMethods => ClassView.match? c
    | callRegistration => MemberCall.match? c
  emissions?.filter fun emissions => !emissions.isEmpty

end Idiom

def Context.matches (c : Context) : List (Idiom × List Emission) :=
  (Idiom.all.filter (·.appliesTo c.language)).filterMap fun i =>
    (i.match? c).map fun emissions => (i, emissions)

end EndpointCensus
