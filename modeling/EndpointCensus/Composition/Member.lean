import EndpointCensus.Composition.Graph
import EndpointCensus.Idiom.ClassView
import EndpointCensus.Idiom.Resource

/-! The members that a class view exposes: its own, then those of its bases depth first, then those
that framework bases imply. The first source of an action wins. -/

namespace EndpointCensus

/-- A graph whose stand-ins are resolved, with the fragments that its nodes own. -/
structure Corpus where
  graph : Graph
  /-- Fragments with the places of their nodes. -/
  owned : List (Nat × Fragment)
  deriving DecidableEq, Repr

/-- A handler of a class. -/
structure Member where
  method : Method
  path : String
  symbol : String
  action : String
  location : Location
  metadata : Metadata
  deriving DecidableEq, Repr

/-- Members found so far, and the classes they were looked for in. -/
structure Gathering where
  members : List Member := []
  classes : List Nat := []
  deriving DecidableEq, Repr

namespace Method

/-- The verb in lower case. -/
def verb (m : Method) : String := String.ofList (Text.lower m.name.toList)

end Method

namespace Corpus

def fragmentsOf (c : Corpus) (i : Nat) : List Fragment :=
  (c.owned.filter (·.1 == i)).map Prod.snd

def memberIdiom (resource : Bool) : Idiom :=
  if resource then .resourceRegistration else .classMethods

/-- A fragment as a member; without an action its verb stands for it. -/
def memberOf (f : Fragment) : Member where
  method := f.method
  path := f.path
  symbol := f.symbol
  action := f.action.getD f.method.verb
  location := f.location
  metadata := f.metadata

def ownMembers (c : Corpus) (resource : Bool) (i : Nat) : List Member :=
  ((c.fragmentsOf i).filter (·.idiom == memberIdiom resource)).map memberOf

/-- The members that a framework base implies for the class `owner`. -/
def impliedMembers (owner : Node) (resource : Bool) (base : Reference) : List Member :=
  let member (method : Method) (path action : String) : Member :=
    ⟨method, path, owner.name ++ "." ++ action, action, owner.location, {}⟩
  let name := base.name.toList
  if resource then
    (Resource.impliedActions name).filterMap fun action =>
      (Resource.standardAction? action.toList).map fun (method, path) =>
        member method (stored path) action
  else (ClassView.impliedMethods name).map fun method => member method "" method.verb

end Corpus

namespace Gathering

def hasAction (g : Gathering) (action : String) : Bool := g.members.any (·.action == action)

/-- Adds the members whose actions were not there before. -/
def addSource (g : Gathering) (members : List Member) : Gathering :=
  { g with members := g.members ++ members.filter fun m => !g.hasAction m.action }

end Gathering

namespace Corpus

/-- Gathers the members of the class at place `i` for the class `owner`; bases are followed at most
`fuel` deep. -/
def gather (c : Corpus) (owner : Node) (resource : Bool) :
    Nat → Gathering → Nat → Gathering
  | 0, g, _ => g
  | fuel + 1, g, i =>
    if g.classes.contains i then g
    else
      let own := { g with classes := i :: g.classes }.addSource (c.ownMembers resource i)
      let bases := ((c.graph.nodes[i]?).map Node.bases).getD []
      bases.foldl (fun g base =>
        match (c.graph.lookupView? base).filter (c.graph.hasKind .viewClass) with
        | some parent => c.gather owner resource fuel g parent
        | none => g.addSource (impliedMembers owner resource base)) own

def members (c : Corpus) (resource : Bool) (i : Nat) : List Member :=
  match c.graph.nodes[i]? with
  | some owner => (c.gather owner resource (c.graph.size + 1) {} i).members
  | none => []

end Corpus

end EndpointCensus
