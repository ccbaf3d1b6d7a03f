import EndpointCensus.Proofs.Composition.Usage

/-! The endpoints of a composition, usage path by usage path. Each path has a batch: one endpoint
for every fragment of its last node, and what the links of that node bind. A walk emits exactly the
batches of all usage paths, in depth-first order. -/

namespace EndpointCensus

namespace Usage

/-- The declarations above and with a fragment at the end of the path. -/
def declarationsOf (u : Usage) (x : Fragment) : List Declaration :=
  u.declarations ++ [⟨x.path, x.metadata⟩]

/-- The endpoint of a fragment at the end of the path: the pieces of all declarations joined below a
slash, their parameters in order, and their metadata merged from the outside in. -/
def endpoint (u : Usage) (x : Fragment) : Endpoint where
  method := x.method
  path := String.ofList ('/' :: Path.join ((u.declarationsOf x).map Declaration.piece))
  symbol := x.symbol
  location := x.location
  metadata := ((u.declarationsOf x).map Declaration.metadata).foldl Metadata.merge {}
  params := (u.declarationsOf x).flatMap Declaration.params
  unresolved := none

theorem ofFragment_frame (u : Usage) (x : Fragment) : u.frame.ofFragment x = u.endpoint x := by
  simp only [Frame.ofFragment, Frame.endpoint, frame, Frame.nest_ofDeclarations]
  rfl

end Usage

namespace Stop

def isPoint : Stop → Bool
  | node _ => true
  | link _ _ l => l.binding != .inclusion

/-- The path that ends at the point. -/
def end? : Stop → Option Usage
  | node u => some u
  | link _ _ _ => none

end Stop

namespace Corpus

/-- What a link that is no inclusion adds at the end of a usage path, inside the
frame of the path. -/
def expansion (c : Corpus) (u : Usage) (l : Link) : List Endpoint :=
  (c.bind (u.frame.nest l.path l.metadata) l).endpoints

def batch (c : Corpus) (u : Usage) : List Endpoint :=
  (c.fragmentsOf u.place).map u.endpoint ++
    (u.node.links.filter (·.binding != .inclusion)).flatMap (c.expansion u)

/-- The points of a walk that have endpoints: the ends of usage paths, and their links that are no
inclusions. -/
def IsPoint (c : Corpus) : Stop → Prop
  | .node u => c.IsUsage u
  | .link u k l => c.IsUsage u ∧ u.node.links[k]? = some l ∧ l.binding ≠ .inclusion

/-- The share of a batch at a point. -/
def share (c : Corpus) : Stop → List Endpoint
  | .node u => (c.fragmentsOf u.place).map u.endpoint
  | .link u _ l => c.expansion u l

variable {c : Corpus}

/-! ### What bindings come to -/

@[simp] theorem entered_bindClass (f : Frame) (l : Link) (endpoints : Nat → Node → List Endpoint) :
    (c.bindClass f l endpoints).entered = [] := by
  unfold bindClass
  split
  · split <;> rfl
  · rfl

@[simp] theorem entered_bind (f : Frame) (l : Link) : (c.bind f l).entered = [] := by
  unfold bind
  split <;> simp

/-! ### The points with endpoints -/

/-- The points of the walk that have endpoints, in order. -/
def points (c : Corpus) : List Stop := c.stops.filter Stop.isPoint

theorem isPoint_iff {s : Stop} : c.IsPoint s ↔ c.IsStop s ∧ s.isPoint = true := by
  cases s with
  | node u => simp [IsPoint, IsStop, Stop.isPoint]
  | link u k l =>
    have hnext : l.binding ≠ .inclusion → c.next? u l = none := fun hb => by simp [next?, hb]
    simp only [IsPoint, IsStop, Stop.isPoint, bne_iff_ne, ne_eq]
    constructor
    · rintro ⟨hu, hl, hb⟩
      exact ⟨⟨hu, hl, hnext hb⟩, hb⟩
    · rintro ⟨⟨hu, hl, -⟩, hb⟩
      exact ⟨hu, hl, hb⟩

theorem mem_points {s : Stop} : s ∈ c.points ↔ c.IsPoint s := by
  rw [points, List.mem_filter, mem_stops, isPoint_iff]

theorem pairwise_points : c.points.Pairwise fun s t => s.address < t.address :=
  pairwise_stops.filter _

theorem nodup_points : c.points.Nodup := by
  refine pairwise_points.imp fun {s t} h he => ?_
  subst he
  exact List.lt_irrefl _ h

theorem endpoints_outcome (s : Stop) :
    (c.outcome s).endpoints = if s.isPoint then c.share s else [] := by
  cases s with
  | node u => simp [outcome, share, Stop.isPoint, Usage.ofFragment_frame]
  | link u k l =>
    by_cases hb : l.binding = .inclusion <;> simp [outcome, share, Stop.isPoint, expansion, hb]

theorem flatMap_ite {α β : Type} (p : α → Bool) (f : α → List β) (xs : List α) :
    (xs.flatMap fun x => if p x then f x else []) = (xs.filter p).flatMap f := by
  induction xs with
  | nil => rfl
  | cons x xs ih => by_cases h : p x <;> simp [h, ih]

/-- The walk emits the shares at its points, in depth-first order. -/
theorem endpoints_walk (hc : c.Closed) : c.walk.endpoints = c.points.flatMap c.share := by
  simp only [walk_eq_concat hc, Walk.endpoints_concat, List.flatMap_map, endpoints_outcome]
  exact flatMap_ite _ _ _

/-! ### One batch for each path -/

/-- All usage paths, in depth-first order. -/
def usages (c : Corpus) : List Usage := c.stops.filterMap Stop.end?

theorem mem_usages {u : Usage} : u ∈ c.usages ↔ c.IsUsage u := by
  have hend : ∀ s : Stop, s.end? = some u ↔ s = .node u := by
    rintro (v | ⟨v, k, l⟩) <;> simp [Stop.end?]
  simp only [usages, List.mem_filterMap, hend, exists_eq_right, mem_stops, IsStop]

theorem pairwise_usages : c.usages.Pairwise fun u v => u.address < v.address := by
  refine List.pairwise_filterMap.mpr (pairwise_stops.imp fun {s t} hst u hu v hv => ?_)
  have hend : ∀ {s : Stop} {u : Usage}, s.end? = some u → s.address = u.address := by
    rintro (v | ⟨v, k, l⟩) u h
    · cases h; rfl
    · cases h
  rwa [← hend hu, ← hend hv]

theorem nodup_usages : c.usages.Nodup := by
  refine pairwise_usages.imp fun {u v} h he => ?_
  subst he
  exact List.lt_irrefl _ h

theorem entered_outcome (s : Stop) : (c.outcome s).entered = (s.end?.map Usage.place).toList := by
  cases s with
  | node u => rfl
  | link u k l => by_cases hb : l.binding = .inclusion <;> simp [outcome, Stop.end?, hb]

/-- The walk enters a node once for each usage path that ends there. -/
theorem entered_walk (hc : c.Closed) : c.walk.entered = c.usages.map Usage.place := by
  simp only [walk_eq_concat hc, Walk.entered_concat, List.flatMap_map, entered_outcome, usages,
    List.map_filterMap]
  induction c.stops with
  | nil => rfl
  | cons s ss ih => rcases h : s.end? with _ | u <;> simp [h, ih]

/-- The points of one usage path. -/
def pointsOf (u : Usage) : List Stop :=
  .node u :: ((u.node.links.zipIdx).filter fun p => p.1.binding != .inclusion).map fun p =>
    .link u p.2 p.1

theorem mem_pointsOf {u : Usage} (hu : c.IsUsage u) {s : Stop} :
    s ∈ pointsOf u ↔ c.IsPoint s ∧ s.usage = u := by
  rw [pointsOf, List.mem_cons, List.mem_map]
  constructor
  · rintro (rfl | ⟨⟨l, k⟩, hp, rfl⟩)
    · exact ⟨hu, rfl⟩
    · obtain ⟨hl, hb⟩ := List.mem_filter.mp hp
      exact ⟨⟨hu, List.mem_zipIdx_iff_getElem?.mp hl, by simpa using hb⟩, rfl⟩
  · rintro ⟨hs, rfl⟩
    cases s with
    | node u => exact .inl rfl
    | link u k l =>
      refine .inr ⟨(l, k), List.mem_filter.mpr ⟨List.mem_zipIdx_iff_getElem?.mpr hs.2.1, ?_⟩, rfl⟩
      simpa using hs.2.2

theorem nodup_pointsOf (u : Usage) : (pointsOf u).Nodup := by
  refine List.nodup_cons.mpr ⟨by simp, ?_⟩
  refine List.pairwise_map.mpr (((pairwise_snd_zipIdx _).filter _).imp ?_)
  intro p q hlt heq
  have hposition := (Stop.link.inj heq).2.1
  omega

theorem flatMap_share_pointsOf (u : Usage) : (pointsOf u).flatMap c.share = c.batch u := by
  have hlinks : ∀ (ls : List Link) (k : Nat),
      (((ls.zipIdx k).filter fun p => p.1.binding != .inclusion).map fun p =>
        Stop.link u p.2 p.1).flatMap c.share = (ls.filter (·.binding != .inclusion)).flatMap
          (c.expansion u) := by
    intro ls
    induction ls with
    | nil => intro k; rfl
    | cons l ls ih =>
      intro k
      by_cases hb : l.binding = .inclusion <;> simp [share, hb, ih (k + 1)]
  rw [pointsOf, List.flatMap_cons, hlinks]
  rfl

theorem perm_points : c.points.Perm (c.usages.flatMap pointsOf) := by
  have hbatches : (c.usages.flatMap pointsOf).Nodup := by
    refine List.pairwise_flatMap.mpr ⟨fun u _ => nodup_pointsOf u, ?_⟩
    refine nodup_usages.imp_of_mem fun {u v} hu hv huv s hs t ht hst => huv ?_
    rw [← ((mem_pointsOf (mem_usages.mp hu)).mp hs).2, hst,
      ((mem_pointsOf (mem_usages.mp hv)).mp ht).2]
  refine (List.perm_ext_iff_of_nodup nodup_points hbatches).mpr fun s => ?_
  rw [mem_points, List.mem_flatMap]
  constructor
  · intro hs
    have hu : c.IsUsage s.usage := by
      cases s with
      | node u => exact hs
      | link u k l => exact hs.1
    exact ⟨s.usage, mem_usages.mpr hu, (mem_pointsOf hu).mpr ⟨hs, rfl⟩⟩
  · rintro ⟨u, hu, hs⟩
    exact ((mem_pointsOf (mem_usages.mp hu)).mp hs).1

/-- The endpoints of the walk are the batches of the usage paths, each path once. -/
theorem perm_endpoints_walk (hc : c.Closed) : c.walk.endpoints.Perm (c.usages.flatMap c.batch) := by
  have h := (perm_points (c := c)).flatMap_right c.share
  rw [List.flatMap_assoc] at h
  simpa only [endpoints_walk hc, flatMap_share_pointsOf] using h

/-- The depth of the recursion is never used up. -/
theorem walk_eq_visit_add (hc : c.Closed) (extra : Nat) :
    .concat (c.roots.map fun i => c.visit (c.graph.size + extra) [] i {}) = c.walk := by
  rw [walk]
  congr 1
  refine List.map_congr_left fun i hi => ?_
  obtain ⟨n, hn⟩ := getElem?_of_mem_roots hi
  have hframe := Frame.nest_ofDeclarations [] n.path n.metadata
  have hvisit := fun fuel => visit_eq_concat hc fuel (u := .root i n) rfl hn hframe
  simp only [Usage.place] at hvisit
  have hroot : c.graph.size < c.graph.size + (Usage.root i n).places.length := by simp
  have hfuel := stopsBelow_add (IsUsage.root hi hn) hroot extra
  calc c.visit (c.graph.size + extra) [] i {}
      = .concat ((c.stopsBelow (c.graph.size + extra) (.root i n)).map c.outcome) := hvisit _
    _ = .concat ((c.stopsBelow c.graph.size (.root i n)).map c.outcome) := by rw [hfuel]
    _ = c.visit c.graph.size [] i {} := (hvisit _).symm

end Corpus

namespace Composition

/-- Beside the fragments without a node, a composition has one batch of endpoints for each usage
path. The batches come in depth-first order: their points are sorted by address, and the points
are the ends of usage paths and the links there that are no inclusions. Each path is walked once,
no node is twice on a path, and so no path is longer than the graph and the limit on the depth of
the walk has no effect. -/
theorem endpoints_eq_batches (fragments : List Fragment) (nodes : List Node) :
    let c := Corpus.ofParts fragments nodes
    (ofParts fragments nodes).endpoints =
      fragments.flatMap (fun f => (stray c.graph f).endpoints) ++ c.walk.endpoints ∧
    (∀ u, u ∈ c.usages ↔ c.IsUsage u) ∧ (c.usages.Pairwise fun u v => u.address < v.address) ∧
    c.walk.endpoints.Perm (c.usages.flatMap c.batch) ∧
    (∀ i, c.fragmentsOf i = fragments.filter fun f => c.graph.home? f == some i) ∧
    (∀ s, s ∈ c.points ↔ c.IsPoint s) ∧ (c.points.Pairwise fun s t => s.address < t.address) ∧
    c.walk.endpoints = c.points.flatMap c.share ∧
    c.walk.entered = c.usages.map Usage.place ∧
    (∀ u, c.IsUsage u → u.places.Nodup ∧ u.places.length ≤ c.graph.size) ∧
    ∀ extra, .concat (c.roots.map fun i => c.visit (c.graph.size + extra) [] i {}) = c.walk := by
  intro c
  have hc : c.Closed := Corpus.closed_ofParts fragments nodes
  refine ⟨endpoints_ofParts fragments nodes, fun _ => Corpus.mem_usages, Corpus.pairwise_usages,
    Corpus.perm_endpoints_walk hc, Corpus.fragmentsOf_ofParts fragments nodes, fun _ =>
      Corpus.mem_points,
    Corpus.pairwise_points, Corpus.endpoints_walk hc, Corpus.entered_walk hc, ?_,
    Corpus.walk_eq_visit_add hc⟩
  exact fun u hu => ⟨hu.nodup_places, hu.length_places_le⟩

end Composition

end EndpointCensus
