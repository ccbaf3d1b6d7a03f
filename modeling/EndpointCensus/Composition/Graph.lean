import EndpointCensus.Graph
import EndpointCensus.Path.Join

/-! The nodes of a corpus and the lookup of references among them. Nodes of one unit and name are
one; a stand-in gives its links to the node it stands for and is followed to it. -/

namespace EndpointCensus

/-- The nodes of a corpus, referred to by their places. -/
structure Graph where
  nodes : List Node
  /-- Stand-ins with the nodes that took over their links. -/
  absorbed : List (Nat × Nat) := []
  deriving DecidableEq, Repr

namespace Graph

/-- The aliases of a node with one more, unless the node answers to it. -/
def addAlias (n : Node) (as : String) : Node :=
  if n.answersTo as then n else { n with aliases := n.aliases ++ [as] }

/-- A node with the links, bases and aliases of another one. -/
def mergeNode (n m : Node) : Node :=
  m.aliases.foldl addAlias { n with links := n.links ++ m.links, bases := n.bases ++ m.bases }

/-- Adds a node to those before it, or merges it into the one of its unit and name. -/
def insert (nodes : List Node) (m : Node) : List Node :=
  let same (n : Node) : Bool := n.unit == m.unit && n.name == m.name
  if nodes.any same then nodes.map fun n => if same n then mergeNode n m else n
  else nodes ++ [m]

def ofNodes (nodes : List Node) : Graph := { nodes := nodes.foldl insert [] }

def size (g : Graph) : Nat := g.nodes.length

def places (g : Graph) : List (Node × Nat) := g.nodes.zipIdx

/-! ### Lookup -/

/-- The node at a place answers to a reference. -/
def answers (r : Reference) (n : Node) : Bool :=
  if r.factory then n.factory == some r.name else n.answersTo r.name

/-- The first of the nodes that answers to a reference; of what a factory returns, the first
container if there is one. -/
def pick? (r : Reference) (candidates : List (Node × Nat)) : Option Nat :=
  let found := candidates.filter fun c => answers r c.1
  let containers := if r.factory then found.filter fun c => c.1.kind.isContainer else []
  (containers.head?.or found.head?).map Prod.snd

def inUnit? (g : Graph) (r : Reference) (unit : String) : Option Nat :=
  let own := g.places.filter fun c => c.1.unit == unit
  if r.factory then pick? r own else (own.find? fun c => c.1.name == r.name).map Prod.snd

/-- The modules of the nodes whose names end with a module's name after a dot, each once. -/
def modulesEnding (g : Graph) (module : String) : List String :=
  let suffix := "." ++ module
  ((g.nodes.map Node.module).filter fun m => Text.endsWith m.toList suffix).eraseDups

def ofModule (g : Graph) (module : String) : List (Node × Nat) :=
  g.places.filter fun c => c.1.module == module

/-- The node that a reference names in its module, or else in the first module that ends with its
module and has such a node. -/
def inModule? (g : Graph) (r : Reference) : Option Nat :=
  if r.module.isEmpty then none
  else (pick? r (g.ofModule r.module)).or
    ((g.modulesEnding r.module).findSome? fun m => pick? r (g.ofModule m))

/-- The node that a reference names by unit or module, a stand-in not yet followed. -/
def named? (g : Graph) (r : Reference) : Option Nat :=
  (r.unit.bind (g.inUnit? r)).or (g.inModule? r)

/-- The only view in the corpus with the name of a reference. -/
def unique? (g : Graph) (r : Reference) : Option Nat :=
  if r.factory then none
  else match g.places.filter fun c => !c.1.kind.isContainer && c.1.name == r.name with
    | [c] => some c.2
    | _ => none

/-- The node that stand-ins lead to from a place; at most `fuel` are followed. -/
def settleFrom (g : Graph) : Nat → Nat → Nat
  | 0, i => i
  | fuel + 1, i =>
    match g.absorbed.lookup i with
    | some j => settleFrom g fuel j
    | none => i

def settle (g : Graph) (i : Nat) : Nat := g.settleFrom g.size i

/-- The node that a reference means. -/
def lookup? (g : Graph) (r : Reference) : Option Nat := (g.named? r).map g.settle

/-- The node that a reference means, or else the only view of its name. -/
def lookupView? (g : Graph) (r : Reference) : Option Nat :=
  ((g.named? r).or (g.unique? r)).map g.settle

def isAbsorbed (g : Graph) (i : Nat) : Bool := (g.absorbed.lookup i).isSome

def hasKind (g : Graph) (k : NodeKind) (i : Nat) : Bool := g.nodes[i]?.any (·.kind == k)

/-! ### Stand-ins -/

/-- Gives the links of the node at `i` to the one at `j`. -/
def absorb (g : Graph) (i j : Nat) : Graph where
  nodes :=
    let links := ((g.nodes[i]?).map Node.links).getD []
    (g.nodes.modify j fun n => { n with links := n.links ++ links }).modify i fun n =>
      { n with links := [] }
  absorbed := (i, j) :: g.absorbed

/-- Resolves the stand-in at a place; one without a target is reported. -/
def absorbAt (acc : Graph × List Diagnostic) (i : Nat) : Graph × List Diagnostic :=
  let (g, found) := acc
  match g.nodes[i]? with
  | none => acc
  | some n =>
    match n.stands with
    | none => acc
    | some r =>
      match (g.lookup? r).filter (· != i) with
      | some j => (g.absorb i j, found)
      | none => (g, found ++ [⟨n.location, .unresolvedReference r.message⟩])

/-- Resolves all stand-ins, in the order of the nodes. -/
def absorbAll (g : Graph) : Graph × List Diagnostic :=
  (List.range g.size).foldl absorbAt (g, [])

end Graph

end EndpointCensus
