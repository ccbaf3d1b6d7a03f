import EndpointCensus.Analysis
import EndpointCensus.Proofs.Composition.Inclusion
import EndpointCensus.Proofs.Composition.Merging
import EndpointCensus.Proofs.Unit.Lowering

/-! No route is lost without a trace. A fragment that belongs to no node is an endpoint by itself.
One that belongs to a container is an endpoint wherever the container is walked, and a container
that is never walked is reported. A link at a node that is walked yields endpoints, is walked into,
or is reported. A handler that is bound to a function view has endpoints because every function view
of a unit has fragments. -/

namespace EndpointCensus

namespace Corpus

variable {c : Corpus}

/-! ### Fragments at containers -/

/-- A container is walked, or it is reported as one that is included and never entered. -/
theorem exists_usage_or_mem_unreachable (hc : c.Closed) (hs : c.Settled) {i : Nat} {n : Node}
    (hn : c.graph.nodes[i]? = some n) (hk : n.kind.isContainer = true)
    (hfree : c.graph.isAbsorbed i = false) :
    (∃ u, c.IsUsage u ∧ u.place = i) ∨
      ⟨n.location, .cyclicInclusion (Reference.external n.module n.name).message⟩ ∈
        c.unreachable c.walk.entered := by
  by_cases hreach : c.Reachable i
  · exact .inl ((reachable_iff hc hs).mp hreach)
  · have hroot : i ∉ c.roots := fun h => hreach ⟨i, h, .refl⟩
    have hin := mem_included.mpr (exists_includes_of_not_mem_roots ⟨n, hn, hk⟩ hfree hroot)
    have hout : i ∉ c.walk.entered := fun h => hreach ((mem_entered hc hs).mp h)
    exact .inr (mem_unreachable.mpr ⟨n, i, mem_containers.mpr ⟨hn, hk, hfree⟩, hin, hout, rfl⟩)

/-- A fragment is an endpoint of every walk of its node. -/
theorem endpoint_mem_walk (hc : c.Closed) {u : Usage} (hu : c.IsUsage u) {f : Fragment}
    (hf : f ∈ c.fragmentsOf u.place) : u.endpoint f ∈ c.walk.endpoints := by
  have hpoint : Stop.node u ∈ c.points := mem_points.mpr hu
  rw [endpoints_walk hc]
  exact List.mem_flatMap.mpr ⟨_, hpoint, List.mem_map.mpr ⟨f, hf, rfl⟩⟩

/-! ### Bindings -/

theorem memberEndpoints_ne_nil (f : Frame) (l : Link) (owner : Node) (members : List Member) :
    memberEndpoints f l owner members ≠ [] := by
  unfold memberEndpoints
  split
  · exact List.cons_ne_nil _ _
  · next hne => exact fun h => hne (List.map_eq_nil_iff.mp h)

theorem viewEndpoints_ne_nil (f : Frame) (l : Link) (methodMap : List (Method × String)) (i : Nat)
    (owner : Node) : c.viewEndpoints f l methodMap i owner ≠ [] := by
  unfold viewEndpoints
  split
  · exact memberEndpoints_ne_nil f l owner _
  · next hne => exact fun h => hne (List.map_eq_nil_iff.mp h)

/-- A class that is bound gives an endpoint also if it is not found. -/
theorem endpoints_bindClass_ne_nil (f : Frame) (l : Link) {endpoints : Nat → Node → List Endpoint}
    (h : ∀ i owner, endpoints i owner ≠ []) : (c.bindClass f l endpoints).endpoints ≠ [] := by
  unfold bindClass
  split
  · split
    · exact h _ _
    · exact List.cons_ne_nil _ _
  · exact List.cons_ne_nil _ _

/-- Every link that is no inclusion yields an endpoint, as long as function views have fragments. -/
theorem expansion_ne_nil
    (hviews : ∀ i, c.graph.hasKind .viewFunction i = true → c.fragmentsOf i ≠ []) (u : Usage)
    {l : Link} (hb : l.binding ≠ .inclusion) : c.expansion u l ≠ [] := by
  unfold expansion bind
  rcases hl : l.binding with _ | _ | methodMap | _
  · exact absurd hl hb
  · simp only [Walk.endpoints_emit, handlerEndpoints]
    split
    · next i hi =>
      obtain ⟨-, hkind⟩ := Option.filter_eq_some_iff.mp hi
      exact fun h => hviews i hkind (List.map_eq_nil_iff.mp h)
    · exact List.cons_ne_nil _ _
  · exact endpoints_bindClass_ne_nil _ l fun i owner => viewEndpoints_ne_nil _ l methodMap i owner
  · exact endpoints_bindClass_ne_nil _ l fun i owner => memberEndpoints_ne_nil _ l owner _

/-- A link of inclusion is walked into, or it is reported. -/
theorem step_or_mem_diagnostics (hc : c.Closed) {u : Usage} (hu : c.IsUsage u) {k : Nat} {l : Link}
    (hl : u.node.links[k]? = some l) (hb : l.binding = .inclusion) :
    (∃ j n, c.IsUsage (.step u k l j n)) ∨
      ⟨l.location, .unresolvedReference l.target.message⟩ ∈ c.walk.diagnostics ∨
      ⟨l.location, .cyclicInclusion l.target.message⟩ ∈ c.walk.diagnostics := by
  obtain ⟨hcyclic, hunresolved⟩ := mem_diagnostics_walk_of_inclusion hc hu hl hb
  rcases ht : c.graph.lookup? l.target with _ | j
  · exact .inr (.inl (hunresolved ht))
  · by_cases hj : j ∈ u.places
    · exact .inr (.inr (hcyclic j ht hj))
    · obtain ⟨n, hn⟩ : ∃ n, c.graph.nodes[j]? = some n := ⟨_, List.getElem?_eq_getElem (hc _ _ ht)⟩
      exact .inl ⟨j, n, .step hu hl hb ht hj hn⟩

/-! ### Function views -/

/-- Function views are no stand-ins, and they have fragments. -/
def Provided (fragments : List Fragment) (nodes : List Node) : Prop :=
  ∀ n ∈ nodes, n.kind = .viewFunction →
    n.stands = none ∧ ∃ f ∈ fragments, f.key = some (.inUnit n.unit n.module n.name)

theorem provided_reports (units : List SourceUnit) (flag : Bool) :
    let reports := units.map (·.report flag)
    Provided (reports.flatMap UnitReport.fragments) (reports.flatMap UnitReport.nodes) := by
  intro reports n hn hkind
  obtain ⟨report, hreport, hn⟩ := List.mem_flatMap.mp hn
  obtain ⟨u, -, rfl⟩ := List.mem_map.mp hreport
  obtain ⟨hstands, f, hf, hkey⟩ := u.exists_fragment_of_view flag hn hkind
  exact ⟨hstands, f, List.mem_flatMap.mpr ⟨_, hreport, hf⟩, hkey⟩

/-- The fragments of a function view are found at its place. -/
theorem fragmentsOf_view_ne_nil {fragments : List Fragment} {nodes : List Node}
    (h : Provided fragments nodes) (i : Nat)
    (hi : (ofParts fragments nodes).graph.hasKind .viewFunction i = true) :
    (ofParts fragments nodes).fragmentsOf i ≠ [] := by
  obtain ⟨n, hn, hkind⟩ := Graph.hasKind_iff.mp hi
  obtain ⟨m, hm, hbare⟩ := Graph.exists_bare_of_mem_absorbAll hn
  obtain ⟨hstands, f, hf, hkey⟩ := h m hm ((Node.kind_eq_of_bare hbare).trans hkind)
  rw [Node.unit_eq_of_bare hbare, Node.module_eq_of_bare hbare, Node.name_eq_of_bare hbare] at hkey
  have hlookup := Graph.lookup?_inUnit hn ((Node.stands_eq_of_bare hbare).symm.trans hstands)
  have hhome : (ofParts fragments nodes).graph.home? f = some i := by
    rw [Graph.home?, hkey, Option.bind_some, graph_ofParts, hlookup]
  rw [fragmentsOf_ofParts]
  exact List.ne_nil_of_mem (List.mem_filter.mpr ⟨hf, beq_iff_eq.mpr hhome⟩)

end Corpus

namespace Composition

/-! ### Fragments without a node -/

variable {nodes : List Node} {f : Fragment}

/-- A fragment without a node is one endpoint, marked with its key. -/
theorem endpoints_stray {g : Graph} (hf : g.home? f = none) :
    ∃ e, (stray g f).endpoints = [e] ∧ e.method = f.method ∧ e.symbol = f.symbol ∧
      e.location = f.location ∧ e.unresolved = f.key.map Reference.message := by
  rcases hkey : f.key with _ | key
  · exact ⟨({} : Frame).ofFragment f, by simp [stray, hkey], rfl, rfl, rfl, rfl⟩
  · have hlookup : g.lookup? key = none := by simpa [Graph.home?, hkey] using hf
    exact ⟨looseEndpoint f key.message, by simp [stray, hkey, hlookup], rfl, rfl, rfl, rfl⟩

/-- Without such a fragment the corpus is the same. -/
theorem corpus_erase_stray (before after : List Fragment)
    (hf : (Graph.ofNodes nodes).absorbAll.1.home? f = none) :
    Corpus.ofParts (before ++ f :: after) nodes = Corpus.ofParts (before ++ after) nodes := by
  simp [Corpus.ofParts, List.filterMap_append, hf]

/-- A fragment without a node adds one endpoint, and leaves all others as they are. -/
theorem endpoints_erase_stray (before after : List Fragment)
    (hf : (Graph.ofNodes nodes).absorbAll.1.home? f = none) :
    ∃ e es es', (ofParts (before ++ f :: after) nodes).endpoints = es ++ e :: es' ∧
      (ofParts (before ++ after) nodes).endpoints = es ++ es' ∧ e.method = f.method ∧
      e.symbol = f.symbol ∧ e.location = f.location ∧
      e.unresolved = f.key.map Reference.message := by
  obtain ⟨e, he, hfields⟩ := endpoints_stray hf
  let g := (Graph.ofNodes nodes).absorbAll.1
  let c := Corpus.ofParts (before ++ after) nodes
  refine ⟨e, before.flatMap fun x => (stray g x).endpoints,
    (after.flatMap fun x => (stray g x).endpoints) ++ c.walk.endpoints, ?_, ?_, hfields⟩
  · rw [endpoints_ofParts, corpus_erase_stray before after hf, List.flatMap_append,
      List.flatMap_cons]
    simp only [Corpus.graph_ofParts, he, List.append_assoc, List.cons_append]
    rfl
  · rw [endpoints_ofParts, List.flatMap_append, List.append_assoc]
    rfl

/-- A key that leads to no node is reported at its fragment. -/
theorem unresolvedReference_mem_diagnostics {fragments : List Fragment} (hmem : f ∈ fragments)
    {key : Reference} (hkey : f.key = some key)
    (hf : (Corpus.ofParts fragments nodes).graph.home? f = none) :
    ⟨f.location, .unresolvedReference key.message⟩ ∈ (ofParts fragments nodes).diagnostics := by
  have hlookup : (Corpus.ofParts fragments nodes).graph.lookup? key = none := by
    simpa [Graph.home?, hkey] using hf
  refine mem_diagnostics_ofParts.mpr (mem_findings.mpr (.inr (.inl ⟨f, hmem, ?_⟩)))
  simp only [stray, hkey, hlookup]
  exact List.mem_singleton_self _

/-- A fragment of a container is an endpoint, or the container is reported. -/
theorem endpoint_mem_or_reported {fragments : List Fragment} (hmem : f ∈ fragments) {i : Nat}
    {n : Node} (hf : (Corpus.ofParts fragments nodes).graph.home? f = some i)
    (hn : (Corpus.ofParts fragments nodes).graph.nodes[i]? = some n)
    (hk : n.kind.isContainer = true) : (∃ e ∈ (ofParts fragments nodes).endpoints,
        e.method = f.method ∧ e.symbol = f.symbol ∧ e.location = f.location) ∨
      ∃ r, ⟨n.location, .cyclicInclusion r⟩ ∈ (ofParts fragments nodes).diagnostics := by
  have hc := Corpus.closed_ofParts fragments nodes
  have hs := Corpus.settled_ofParts fragments nodes
  have hfree : (Corpus.ofParts fragments nodes).graph.isAbsorbed i = false := by
    obtain ⟨key, -, hlookup⟩ := Option.bind_eq_some_iff.mp hf
    exact hs key i hlookup
  rcases Corpus.exists_usage_or_mem_unreachable hc hs hn hk hfree with ⟨u, hu, rfl⟩ | hreported
  · have hown : f ∈ (Corpus.ofParts fragments nodes).fragmentsOf u.place := by
      rw [Corpus.fragmentsOf_ofParts]
      exact List.mem_filter.mpr ⟨hmem, beq_iff_eq.mpr hf⟩
    refine .inl ⟨u.endpoint f, ?_, rfl, rfl, rfl⟩
    rw [endpoints_ofParts]
    exact List.mem_append_right _ (Corpus.endpoint_mem_walk hc hu hown)
  · exact .inr ⟨_, mem_diagnostics_ofParts.mpr (mem_findings.mpr (.inr (.inr (.inr hreported))))⟩

theorem mem_diagnostics_of_walk {fragments : List Fragment} {d : Diagnostic}
    (h : d ∈ (Corpus.ofParts fragments nodes).walk.diagnostics) :
    d ∈ (ofParts fragments nodes).diagnostics :=
  mem_diagnostics_ofParts.mpr (mem_findings.mpr (.inr (.inr (.inl h))))

/-- No route of a corpus of units is lost without a trace. A fragment whose node is not found, or
that has none, is exactly one endpoint. A fragment of a container is an endpoint, or the
container is reported as part of a cycle. Each time a node is walked, each of its links has
endpoints of its own, is walked into, or is reported: the endpoints of the walk are the shares of
its points, which are all different. -/
theorem no_route_is_lost (units : List SourceUnit) (flag : Bool) :
    let reports := units.map (·.report flag)
    let fragments := reports.flatMap UnitReport.fragments
    let nodes := reports.flatMap UnitReport.nodes
    let c := Corpus.ofParts fragments nodes
    let composed := ofParts fragments nodes
    (∀ before f after, fragments = before ++ f :: after → c.graph.home? f = none →
      (∃ e es es', composed.endpoints = es ++ e :: es' ∧
        (ofParts (before ++ after) nodes).endpoints = es ++ es' ∧ e.method = f.method ∧
        e.symbol = f.symbol ∧ e.location = f.location ∧ e.unresolved = f.key.map Reference.message) ∧
      ∀ key, f.key = some key → ⟨f.location, .unresolvedReference key.message⟩ ∈
        composed.diagnostics) ∧
    (∀ f ∈ fragments, ∀ i n, c.graph.home? f = some i → c.graph.nodes[i]? = some n →
      n.kind.isContainer = true →
      (∃ e ∈ composed.endpoints, e.method = f.method ∧ e.symbol = f.symbol ∧
        e.location = f.location) ∨ ∃ r, ⟨n.location, .cyclicInclusion r⟩ ∈ composed.diagnostics) ∧
    composed.endpoints =
      fragments.flatMap (fun f => (stray c.graph f).endpoints) ++ c.points.flatMap c.share ∧
    c.points.Nodup ∧ c.walk.entered = c.usages.map Usage.place ∧
    ∀ u ∈ c.usages, ∀ (k : Nat) (l : Link), u.node.links[k]? = some l →
      if l.binding = .inclusion then
        (∃ j n, .step u k l j n ∈ c.usages) ∨
          ⟨l.location, .unresolvedReference l.target.message⟩ ∈ composed.diagnostics ∨
          ⟨l.location, .cyclicInclusion l.target.message⟩ ∈ composed.diagnostics
      else .link u k l ∈ c.points ∧ c.share (.link u k l) ≠ [] := by
  intro reports fragments nodes c composed
  have hc : c.Closed := Corpus.closed_ofParts fragments nodes
  have hviews : ∀ i, c.graph.hasKind .viewFunction i = true → c.fragmentsOf i ≠ [] :=
    Corpus.fragmentsOf_view_ne_nil (Corpus.provided_reports units flag)
  refine ⟨?_, ?_, ?_, Corpus.nodup_points, Corpus.entered_walk hc, ?_⟩
  · intro before f after hsplit hf
    have hmem : f ∈ fragments := by simp [hsplit]
    refine ⟨?_, fun key hkey => unresolvedReference_mem_diagnostics hmem hkey hf⟩
    have hone := endpoints_erase_stray before after hf
    rwa [← hsplit] at hone
  · intro f hf i n hhome hn hk
    exact endpoint_mem_or_reported hf hhome hn hk
  · rw [← Corpus.endpoints_walk hc]
    exact endpoints_ofParts fragments nodes
  · intro u hu k l hl
    have hu : c.IsUsage u := Corpus.mem_usages.mp hu
    split
    next hb =>
      rcases Corpus.step_or_mem_diagnostics hc hu hl hb with ⟨j, n, hstep⟩ | h | h
      · exact .inl ⟨j, n, Corpus.mem_usages.mpr hstep⟩
      · exact .inr (.inl (mem_diagnostics_of_walk h))
      · exact .inr (.inr (mem_diagnostics_of_walk h))
    next hb => exact ⟨Corpus.mem_points.mpr ⟨hu, hl, hb⟩, Corpus.expansion_ne_nil hviews u hb⟩

end Composition

end EndpointCensus
