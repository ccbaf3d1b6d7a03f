import EndpointCensus.Proofs.Composition.Params
import EndpointCensus.Proofs.Path.Join

/-! The form of endpoint paths. A path below the root of a corpus is a slash and the segments of all
declarations on the way, however these are written; cutting the way in two cuts the path in two.
Only the path of a fragment whose node is not found stays relative. -/

namespace EndpointCensus

open EndpointCensus.Path (Canonical Compact)

namespace Frame

theorem toList_path (f : Frame) : f.path.toList = Path.absolute (Path.join f.pieces) :=
  String.toList_ofList

theorem canonical_path (f : Frame) :
    Canonical f.path.toList := ⟨_, f.toList_path, Path.compact_join f.pieces⟩

/-- The path of nested declarations is joined from those of the outer and of the inner ones. -/
theorem path_append (outer inner : List Declaration) :
    (ofDeclarations (outer ++ inner)).path.toList =
      Path.absolute (Path.join [(ofDeclarations outer).path.toList,
        (ofDeclarations inner).path.toList]) := by
  rw [toList_path, toList_path, toList_path, Path.join_absolute, ← Path.join_append]
  exact congrArg (Path.absolute ∘ Path.join) List.map_append

/-- The path of a handler inside a frame of declarations has one more declaration, its own route. -/
theorem Holds.exists_path {ds : List Declaration} {e : Endpoint} (h : (ofDeclarations ds).Holds e) :
    ∃ d, e.path = (ofDeclarations (ds ++ [d])).path := by
  obtain ⟨method, route, symbol, location, metadata, unresolved, rfl⟩ := h
  exact ⟨⟨route, metadata⟩, congrArg path (nest_ofDeclarations ds route metadata)⟩

end Frame

namespace Composition

theorem toList_path_looseEndpoint (x : Fragment) (reference : String) :
    (looseEndpoint x reference).path.toList = Path.join [(Pattern.normalize x.path.toList).1] :=
  String.toList_ofList

/-- The paths of a composition are canonical: a slash, and then segments with one slash between, if
there are any. That of a fragment whose node is not found has no slash in front. A join may be cut
at any piece, so the path of a handler is that of the outer declarations on its way joined with that
of the inner ones, wherever the way is cut. -/
theorem paths_are_canonical (fragments : List Fragment) (nodes : List Node) :
    let c := Corpus.ofParts fragments nodes
    (ofParts fragments nodes).endpoints =
      fragments.flatMap (fun x => (stray c.graph x).endpoints) ++ c.points.flatMap c.share ∧
    (∀ x ∈ fragments, ∀ e ∈ (stray c.graph x).endpoints, (x.key = none ∧ Canonical e.path.toList) ∨
      ∃ key, x.key = some key ∧ c.graph.lookup? key = none ∧
        e.path.toList.head? ≠ some '/' ∧ Compact e.path.toList) ∧
    (∀ s ∈ c.points, ∀ e ∈ c.share s, Canonical e.path.toList ∧
      ∃ d, e.path = (Frame.ofDeclarations (s.declarations ++ [d])).path) ∧
    (∀ xs ys, Path.join (xs ++ ys) = Path.join [Path.join xs, Path.join ys]) ∧
    ∀ outer inner, (Frame.ofDeclarations (outer ++ inner)).path.toList = Path.absolute
      (Path.join [(Frame.ofDeclarations outer).path.toList,
        (Frame.ofDeclarations inner).path.toList]) := by
  intro c
  refine ⟨?_, fun x _ e he => ?_, fun s _ e he => ?_, Path.join_append, Frame.path_append⟩
  · rw [← Corpus.endpoints_walk (Corpus.closed_ofParts fragments nodes)]
    exact endpoints_ofParts fragments nodes
  · rcases mem_stray_cases he with ⟨hkey, rfl⟩ | ⟨key, hkey, hnone, rfl⟩
    · exact .inl ⟨hkey, Frame.canonical_path _⟩
    · have hcompact : Compact (looseEndpoint x key.message).path.toList := by
        rw [toList_path_looseEndpoint]
        exact Path.compact_join _
      exact .inr ⟨key, hkey, hnone, hcompact.head?_ne, hcompact⟩
  · obtain ⟨d, hd⟩ := (Corpus.holds_of_mem_share he).exists_path
    exact ⟨hd ▸ Frame.canonical_path _, d, hd⟩

/-- The path of a fragment without a segment is empty if its node is not found,
which is one empty segment. -/
theorem path_of_lost_index :
    let index : Fragment := {
      method := .get, path := "/", symbol := "index", action := none, idiom := .decoratorCall
      location := ⟨"a.py", 2⟩, metadata := {}, key := some (.external "b" "router") }
    ∃ e ∈ (ofParts [index] []).endpoints, e.path ≠ "/" ∧ [] ∈ Text.splitOn '/' e.path.toList := by
  decide +kernel

end Composition

end EndpointCensus
