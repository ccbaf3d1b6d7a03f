import EndpointCensus.Composition.Frame
import EndpointCensus.Composition.Member

/-! The walk over the composition graph. From every container that nothing includes, each usage path
is followed on its own, so a router included twice yields its endpoints twice; a link back onto the
path is a cycle and is not followed. -/

namespace EndpointCensus

/-- What a walk comes to, in order. -/
structure Walk where
  endpoints : List Endpoint := []
  diagnostics : List Diagnostic := []
  /-- The nodes that were entered. -/
  entered : List Nat := []
  deriving DecidableEq, Repr

namespace Walk

instance : Append Walk where
  append a b :=
    ⟨a.endpoints ++ b.endpoints, a.diagnostics ++ b.diagnostics, a.entered ++ b.entered⟩

def concat (ws : List Walk) : Walk := ws.foldl (· ++ ·) {}

def emit (es : List Endpoint) : Walk := { endpoints := es }

def report (location : Location) (issue : Issue) : Walk := { diagnostics := [⟨location, issue⟩] }

end Walk

namespace Corpus

/-- The endpoint of a binding whose methods are unknown. -/
def anyEndpoint (f : Frame) (symbol : String) (location : Location) (unresolved : Option String) :
    Endpoint :=
  f.endpoint .any "" symbol location {} unresolved

/-- The endpoints of members inside a frame, or the class itself when there is none. -/
def memberEndpoints (f : Frame) (link : Link) (owner : Node) (members : List Member) :
    List Endpoint :=
  match members with
  | [] => [anyEndpoint f owner.name link.location none]
  | members => members.map fun m =>
    f.endpoint m.method m.path m.symbol m.location m.metadata none

/-- The endpoints of a method map: each method goes to the member of its action. -/
def mappedEndpoints (f : Frame) (link : Link) (owner : Node) (members : List Member)
    (methodMap : List (Method × String)) : List Endpoint :=
  methodMap.map fun (method, action) =>
    match members.find? (·.action == action) with
    | some m => f.endpoint method "" m.symbol m.location m.metadata none
    | none => f.endpoint method "" (owner.name ++ "." ++ action) link.location {} none

/-- The endpoints of the class at a place that is bound as a view. -/
def viewEndpoints (c : Corpus) (f : Frame) (link : Link) (methodMap : List (Method × String))
    (i : Nat) (owner : Node) : List Endpoint :=
  match methodMap with
  | [] => memberEndpoints f link owner (c.members false i)
  | methodMap => mappedEndpoints f link owner (c.members true i ++ c.members false i) methodMap

def handlerEndpoints (c : Corpus) (f : Frame) (link : Link) : List Endpoint :=
  match (c.graph.lookupView? link.target).filter (c.graph.hasKind .viewFunction) with
  | some i => (c.fragmentsOf i).map f.ofFragment
  | none => [anyEndpoint f link.symbol link.location none]

/-- A class that is bound but not found: an endpoint that says so, and a finding. -/
def missingClass (f : Frame) (link : Link) : Walk :=
  let reference := link.target.message
  .report link.location (.unresolvedReference reference) ++
    .emit [anyEndpoint f link.symbol link.location (some reference)]

/-- A class bound by a link. -/
def bindClass (c : Corpus) (f : Frame) (link : Link)
    (endpoints : Nat → Node → List Endpoint) : Walk :=
  match (c.graph.lookupView? link.target).filter (c.graph.hasKind .viewClass) with
  | some i =>
    match c.graph.nodes[i]? with
    | some owner => .emit (endpoints i owner)
    | none => missingClass f link
  | none => missingClass f link

/-- A link that binds a view, inside the frame of the link. -/
def bind (c : Corpus) (f : Frame) (link : Link) : Walk :=
  match link.binding with
  | .inclusion => {}
  | .handler => .emit (c.handlerEndpoints f link)
  | .view methodMap => c.bindClass f link (c.viewEndpoints f link methodMap)
  | .resource => c.bindClass f link fun i owner =>
    memberEndpoints f link owner (c.members true i)

/-- The walk of the node at place `i` below the nodes of `above`; at most `fuel` nodes deep. -/
def visit (c : Corpus) : Nat → List Nat → Nat → Frame → Walk
  | 0, _, _, _ => {}
  | fuel + 1, above, i, f =>
    match c.graph.nodes[i]? with
    | none => {}
    | some n =>
      let path := i :: above
      let frame := f.nest n.path n.metadata
      let follow (link : Link) : Walk :=
        let inner := frame.nest link.path link.metadata
        match link.binding with
        | .inclusion =>
          match c.graph.lookup? link.target with
          | none => .report link.location (.unresolvedReference link.target.message)
          | some j =>
            if path.contains j then
              .report link.location (.cyclicInclusion link.target.message)
            else c.visit fuel path j inner
        | _ => c.bind inner link
      { endpoints := (c.fragmentsOf i).map frame.ofFragment, entered := [i] } ++
        .concat (n.links.map follow)

/-! ### Roots -/

/-- The places that the inclusions of a node lead to, its own place left out. -/
def inclusionsOf (c : Corpus) (n : Node) (i : Nat) : List Nat :=
  ((n.links.filter (·.binding == .inclusion)).filterMap fun l =>
    c.graph.lookup? l.target).filter (· != i)

def included (c : Corpus) : List Nat :=
  (c.graph.places.filter fun p => !c.graph.isAbsorbed p.2).flatMap fun p => c.inclusionsOf p.1 p.2

def containers (c : Corpus) : List (Node × Nat) :=
  c.graph.places.filter fun p => p.1.kind.isContainer && !c.graph.isAbsorbed p.2

def roots (c : Corpus) : List Nat :=
  let included := c.included
  (c.containers.map Prod.snd).filter fun i => !included.contains i

def walk (c : Corpus) : Walk :=
  .concat (c.roots.map fun i => c.visit c.graph.size [] i {})

/-- Included containers that no walk entered: they only include each other. -/
def unreachable (c : Corpus) (entered : List Nat) : List Diagnostic :=
  let included := c.included
  (c.containers.filter fun p => included.contains p.2 && !entered.contains p.2).map fun p =>
    ⟨p.1.location, .cyclicInclusion (Reference.external p.1.module p.1.name).message⟩

end Corpus

end EndpointCensus
