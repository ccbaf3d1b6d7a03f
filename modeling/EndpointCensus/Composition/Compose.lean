import EndpointCensus.Composition.Walk

/-! The composition of a corpus: its fragments and nodes become endpoints, and findings about what
does not fit together. -/

namespace EndpointCensus

structure Composition where
  endpoints : List Endpoint
  diagnostics : List Diagnostic
  deriving DecidableEq, Repr

namespace Composition

structure Assignment where
  owned : List (Nat × Fragment) := []
  walk : Walk := {}
  deriving DecidableEq, Repr

/-- The endpoint of a fragment whose node is not found: its path stays relative. -/
def looseEndpoint (f : Fragment) (reference : String) : Endpoint :=
  let (path, params) := Pattern.normalize f.path.toList
  { method := f.method, path := String.ofList (Path.join [path]), symbol := f.symbol
    location := f.location, metadata := f.metadata, params, unresolved := some reference }

/-- Gives a fragment to its node. One without a key is an endpoint already, and so is one whose node
is not found, with a finding. -/
def assign (g : Graph) (a : Assignment) (f : Fragment) : Assignment :=
  match f.key with
  | none => { a with walk := a.walk ++ .emit [({} : Frame).ofFragment f] }
  | some key =>
    match g.lookup? key with
    | some i => { a with owned := a.owned ++ [(i, f)] }
    | none =>
      let reference := key.message
      { a with walk := a.walk ++
          (.emit [looseEndpoint f reference] ++
            .report f.location (.unresolvedReference reference)) }

/-- The findings without those that repeat an earlier one at its location. -/
def distinct (ds : List Diagnostic) : List Diagnostic :=
  ds.foldl (fun seen d =>
    if seen.any fun e => e.location == d.location && e.issue.message == d.issue.message then seen
    else seen ++ [d]) []

/-- Composes fragments through the graph of the nodes. -/
def ofParts (fragments : List Fragment) (nodes : List Node) : Composition :=
  let (graph, standIns) := (Graph.ofNodes nodes).absorbAll
  let assigned := fragments.foldl (assign graph) {}
  let corpus : Corpus := ⟨graph, assigned.owned⟩
  let walk := corpus.walk
  { endpoints := assigned.walk.endpoints ++ walk.endpoints
    diagnostics := distinct (standIns ++ assigned.walk.diagnostics ++ walk.diagnostics ++
      corpus.unreachable walk.entered) }

end Composition

end EndpointCensus
