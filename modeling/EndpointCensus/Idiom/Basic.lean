/-! The styles in which routes are declared. -/

namespace EndpointCensus

/-- A style of route declaration, in the order of priority among matches of one statement. -/
inductive Idiom where
  | decoratorCall
  | urlPattern
  | resourceRegistration
  | classMethods
  | callRegistration
  deriving DecidableEq, Repr

namespace Idiom

def all : List Idiom :=
  [decoratorCall, urlPattern, resourceRegistration, classMethods, callRegistration]

/-- The name in stored records. -/
def key : Idiom → String
  | decoratorCall => "decorator_call"
  | urlPattern => "url_pattern"
  | resourceRegistration => "resource_registration"
  | classMethods => "class_methods"
  | callRegistration => "call_registration"

/-- The name in running text. -/
def label : Idiom → String
  | decoratorCall => "decorator-call"
  | urlPattern => "url-pattern"
  | resourceRegistration => "resource-registration"
  | classMethods => "class-methods"
  | callRegistration => "call-registration"

/-- The name in a list of idioms. -/
def title : Idiom → String
  | decoratorCall => "DecoratorCall"
  | urlPattern => "UrlPattern"
  | resourceRegistration => "ResourceRegistration"
  | classMethods => "ClassMethods"
  | callRegistration => "CallRegistration"

end Idiom

end EndpointCensus
