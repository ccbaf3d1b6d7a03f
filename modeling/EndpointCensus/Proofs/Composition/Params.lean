import EndpointCensus.Proofs.Composition.Batches
import EndpointCensus.Proofs.Path.Normal

/-! The parameters of endpoints. Every piece of a path is normalized by itself and shows the names
of its parameters in braces; a slash between two pieces neither completes nor breaks such a name. So
the path of an endpoint shows exactly its parameters, whatever walk and binding it comes from. -/

namespace EndpointCensus

open Pattern (shownNames)

/-- The names that the path shows in braces, from left to right, are those of the parameters. -/
def Endpoint.ShowsParams (e : Endpoint) : Prop :=
  e.params.map Param.name = (shownNames e.path.toList).map String.ofList

namespace Frame

/-- The endpoint is one of a handler inside the frame. -/
def Holds (f : Frame) (e : Endpoint) : Prop :=
  ∃ method route symbol location metadata unresolved,
    e = f.endpoint method route symbol location metadata unresolved

variable {f : Frame} {e : Endpoint}

theorem holds_endpoint (f : Frame) (method : Method) (route symbol : String) (location : Location)
    (metadata : Metadata) (unresolved : Option String) :
    f.Holds (f.endpoint method route symbol location metadata unresolved) := ⟨_, _, _, _, _, _, rfl⟩

theorem shownNames_declarations (ds : List Declaration) :
    (ds.flatMap Declaration.params).map Param.name =
      (shownNames (Path.join (ds.map Declaration.piece))).map String.ofList := by
  rw [Pattern.shownNames_join]
  induction ds with
  | nil => rfl
  | cons d ds ih =>
    rw [List.flatMap_cons, List.map_append, ih, List.map_cons, List.flatMap_cons, List.map_append]
    exact congrArg (· ++ _) (Pattern.shownNames_normalizeFrom true 0 d.route.toList).symm

theorem Holds.showsParams {ds : List Declaration} (h : (ofDeclarations ds).Holds e) :
    e.ShowsParams := by
  obtain ⟨method, route, symbol, location, metadata, unresolved, rfl⟩ := h
  have hpath (cs : List Char) : shownNames ('/' :: cs) = shownNames cs :=
    Pattern.shownNames_slash [] cs
  unfold Endpoint.ShowsParams endpoint
  rw [nest_ofDeclarations]
  dsimp only [path, Path.absolute, ofDeclarations]
  rw [String.toList_ofList, hpath]
  exact shownNames_declarations _

end Frame

def Stop.declarations : Stop → List Declaration
  | node u => u.declarations
  | link u _ l => u.declarations ++ [⟨l.path, l.metadata⟩]

namespace Corpus

variable {c : Corpus} {f : Frame} {l : Link} {e : Endpoint}

/-! ### Bindings -/

theorem holds_of_mem_memberEndpoints {owner : Node} {members : List Member}
    (h : e ∈ memberEndpoints f l owner members) : f.Holds e := by
  unfold memberEndpoints at h
  split at h
  · rw [List.mem_singleton.mp h]
    exact f.holds_endpoint _ _ _ _ _ _
  · obtain ⟨m, -, rfl⟩ := List.mem_map.mp h
    exact f.holds_endpoint _ _ _ _ _ _

theorem holds_of_mem_mappedEndpoints {owner : Node} {members : List Member}
    {methodMap : List (Method × String)} (h : e ∈ mappedEndpoints f l owner members methodMap) :
    f.Holds e := by
  obtain ⟨⟨method, action⟩, -, rfl⟩ := List.mem_map.mp h
  dsimp only
  split
  · exact f.holds_endpoint _ _ _ _ _ _
  · exact f.holds_endpoint _ _ _ _ _ _

theorem holds_of_mem_viewEndpoints {methodMap : List (Method × String)} {i : Nat} {owner : Node}
    (h : e ∈ c.viewEndpoints f l methodMap i owner) : f.Holds e := by
  unfold viewEndpoints at h
  split at h
  · exact holds_of_mem_memberEndpoints h
  · exact holds_of_mem_mappedEndpoints h

theorem holds_of_mem_handlerEndpoints (h : e ∈ c.handlerEndpoints f l) : f.Holds e := by
  unfold handlerEndpoints at h
  split at h
  · obtain ⟨x, -, rfl⟩ := List.mem_map.mp h
    exact f.holds_endpoint _ _ _ _ _ _
  · rw [List.mem_singleton.mp h]
    exact f.holds_endpoint _ _ _ _ _ _

theorem holds_of_mem_bindClass {endpoints : Nat → Node → List Endpoint}
    (hendpoints : ∀ i owner, ∀ e ∈ endpoints i owner, f.Holds e)
    (h : e ∈ (c.bindClass f l endpoints).endpoints) : f.Holds e := by
  have hmissing (h : e ∈ (missingClass f l).endpoints) : f.Holds e := by
    have hmem : e ∈ [anyEndpoint f l.symbol l.location (some l.target.message)] := h
    rw [List.mem_singleton.mp hmem]
    exact f.holds_endpoint _ _ _ _ _ _
  unfold bindClass at h
  split at h
  · split at h
    · exact hendpoints _ _ e h
    · exact hmissing h
  · exact hmissing h

/-- Whatever a link binds is inside the frame of the link. -/
theorem holds_of_mem_bind (h : e ∈ (c.bind f l).endpoints) : f.Holds e := by
  unfold bind at h
  split at h
  · contradiction
  · exact holds_of_mem_handlerEndpoints h
  · exact holds_of_mem_bindClass (fun _ _ _ => holds_of_mem_viewEndpoints) h
  · exact holds_of_mem_bindClass (fun _ _ _ => holds_of_mem_memberEndpoints) h

/-- At every point of a walk, the endpoints are inside a frame of declarations. -/
theorem holds_of_mem_share {s : Stop} (h : e ∈ c.share s) :
    (Frame.ofDeclarations s.declarations).Holds e := by
  cases s with
  | node u =>
    obtain ⟨x, -, rfl⟩ := List.mem_map.mp h
    rw [← u.ofFragment_frame]
    exact u.frame.holds_endpoint _ _ _ _ _ _
  | link u k l =>
    have hholds := holds_of_mem_bind h
    rwa [Usage.frame, Frame.nest_ofDeclarations] at hholds

end Corpus

namespace Composition

/-- A fragment without a node has no key, or one that leads nowhere. -/
theorem mem_stray_cases {g : Graph} {x : Fragment} {e : Endpoint} (h : e ∈ (stray g x).endpoints) :
    (x.key = none ∧ e = ({} : Frame).ofFragment x) ∨
      ∃ key, x.key = some key ∧ g.lookup? key = none ∧ e = looseEndpoint x key.message := by
  unfold stray at h
  split at h
  next hkey => exact .inl ⟨hkey, List.mem_singleton.mp h⟩
  next key hkey =>
    split at h
    · contradiction
    next hnone => exact .inr ⟨key, hkey, hnone, List.mem_singleton.mp h⟩

theorem showsParams_looseEndpoint (x : Fragment) (reference : String) :
    (looseEndpoint x reference).ShowsParams := by
  unfold Endpoint.ShowsParams looseEndpoint
  dsimp only
  rw [String.toList_ofList]
  simpa [Declaration.piece, Declaration.params] using Frame.shownNames_declarations [⟨x.path, {}⟩]

/-- Normalizing a normalized pattern gives it back, its parameters without constraints, and the path
of every endpoint of a composition shows the names of its parameters, in order and no others. -/
theorem paths_show_params :
    (∀ raw : List Char, Pattern.normalize (Pattern.normalize raw).1 =
      ((Pattern.normalize raw).1, (Pattern.normalize raw).2.map fun p =>
        { p with constraint := none })) ∧
    ∀ (fragments : List Fragment) (nodes : List Node), ∀ e ∈ (ofParts fragments nodes).endpoints,
      e.params.map Param.name = (shownNames e.path.toList).map String.ofList := by
  refine ⟨Pattern.normalize_normalize, fun fragments nodes e he => ?_⟩
  rw [endpoints_ofParts] at he
  rcases List.mem_append.mp he with hstray | hwalk
  · obtain ⟨x, -, hx⟩ := List.mem_flatMap.mp hstray
    rcases mem_stray_cases hx with ⟨-, rfl⟩ | ⟨key, -, -, rfl⟩
    · exact ((Frame.ofDeclarations []).holds_endpoint _ _ _ _ _ _).showsParams
    · exact showsParams_looseEndpoint x key.message
  · rw [Corpus.endpoints_walk (Corpus.closed_ofParts fragments nodes)] at hwalk
    obtain ⟨s, -, hs⟩ := List.mem_flatMap.mp hwalk
    exact (Corpus.holds_of_mem_share hs).showsParams

/-- A typed parameter of a router and a parameter in braces below it, behind a
brace that is only copied. -/
theorem paths_show_params_nested :
    let router : Node := {
      unit := "a.py", module := "a", name := "router", kind := .router, path := "/\x7b/<int:org>/",
      location := ⟨"a.py", 1⟩ }
    let route : Fragment := {
      method := .get, path := "/users/{id:int}", symbol := "show", action := none,
      idiom := .decoratorCall
      location := ⟨"a.py", 2⟩, metadata := {}, key := some (.inUnit "a.py" "a" "router") }
    ∃ e ∈ (ofParts [route] [router]).endpoints, e.path = "/\x7b/{org}/users/{id}" ∧
      e.params.map Param.name = (shownNames e.path.toList).map String.ofList := by
  intro router route
  obtain ⟨e, he, hpath⟩ : ∃ e ∈ (ofParts [route] [router]).endpoints, e.path =
      "/\x7b/{org}/users/{id}" := by
    decide +kernel
  exact ⟨e, he, hpath, paths_show_params.2 [route] [router] e he⟩

end Composition

end EndpointCensus
