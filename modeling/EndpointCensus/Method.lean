import EndpointCensus.Text.Blank

/-! HTTP methods, in the order an inventory lists them. -/

namespace EndpointCensus

inductive Method where
  | get
  | post
  | put
  | patch
  | delete
  | head
  | options
  | trace
  /-- Every method. -/
  | any
  deriving DecidableEq, Repr

namespace Method

def all : List Method := [get, post, put, patch, delete, head, options, trace, any]

def rank : Method → Nat
  | get => 0
  | post => 1
  | put => 2
  | patch => 3
  | delete => 4
  | head => 5
  | options => 6
  | trace => 7
  | any => 8

def name : Method → String
  | get => "GET"
  | post => "POST"
  | put => "PUT"
  | patch => "PATCH"
  | delete => "DELETE"
  | head => "HEAD"
  | options => "OPTIONS"
  | trace => "TRACE"
  | any => "ANY"

def ofName? (s : String) : Option Method := all.find? (·.name == s)

/-- The method of a verb in any case, white space around it allowed; `all` is another word for
`any`. -/
def ofVerb? (cs : List Char) : Option Method :=
  let verb := Text.lower (Text.trim cs)
  if verb == "all".toList then some any
  else all.find? fun m => Text.lower m.name.toList == verb

end Method

end EndpointCensus
