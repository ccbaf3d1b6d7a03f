import EndpointCensus.Proofs.Composition.Assignment
import EndpointCensus.Proofs.Composition.Settlement

/-! Usage paths, and the walk over a corpus as their enumeration. A usage path starts at a root and
takes links of inclusion, each to a node that is not on the path yet. A walk stops at the end of
every usage path and at every link of such an end that is not walked into. The stops have
addresses, the positions of the links taken on the way, and the walk comes to all of them once, in
the order of their addresses. -/

namespace EndpointCensus

/-- What a router or a link adds to the routes beneath it. -/
structure Declaration where
  route : String
  metadata : Metadata

namespace Declaration

/-- The route in normal form. -/
def piece (d : Declaration) : List Char := (Pattern.normalize d.route.toList).1

def params (d : Declaration) : List Param := (Pattern.normalize d.route.toList).2

end Declaration

namespace Frame

/-- The frame of nested declarations, the outermost first. -/
def ofDeclarations (ds : List Declaration) : Frame where
  pieces := ds.map Declaration.piece
  params := ds.flatMap Declaration.params
  metadata := (ds.map Declaration.metadata).foldl Metadata.merge {}

theorem nest_ofDeclarations (ds : List Declaration) (route : String) (metadata : Metadata) :
    (ofDeclarations ds).nest route metadata = ofDeclarations (ds ++ [⟨route, metadata⟩]) := by
  simp [ofDeclarations, nest, Declaration.piece, Declaration.params]

end Frame

/-- A path to a node: a root, or a path with one more link, which has a position among the links of
its node and leads to another node. -/
inductive Usage where
  | root (place : Nat) (node : Node)
  | step (above : Usage) (position : Nat) (link : Link) (place : Nat) (node : Node)

namespace Usage

def place : Usage → Nat
  | root i _ => i
  | step _ _ _ i _ => i

def node : Usage → Node
  | root _ n => n
  | step _ _ _ _ n => n

/-- The places of all nodes, the last one first. -/
def places : Usage → List Nat
  | root i _ => [i]
  | step u _ _ i _ => i :: u.places

/-- The place of the root and the positions of the links taken from it. -/
def address : Usage → List Nat
  | root i _ => [i]
  | step u k _ _ _ => u.address ++ [k]

/-- The declarations along the path: the root, a link, a node, and so on to the last node. -/
def declarations : Usage → List Declaration
  | root _ n => [⟨n.path, n.metadata⟩]
  | step u _ l _ n => u.declarations ++ [⟨l.path, l.metadata⟩, ⟨n.path, n.metadata⟩]

def frame (u : Usage) : Frame := .ofDeclarations u.declarations

section Constructors
variable (u : Usage) (k : Nat) (l : Link) (i : Nat) (n : Node)

@[simp] theorem place_root : (root i n).place = i := rfl

@[simp] theorem place_step : (step u k l i n).place = i := rfl

@[simp] theorem node_root : (root i n).node = n := rfl

@[simp] theorem node_step : (step u k l i n).node = n := rfl

@[simp] theorem places_root : (root i n).places = [i] := rfl

@[simp] theorem places_step : (step u k l i n).places = i :: u.places := rfl

@[simp] theorem address_step : (step u k l i n).address = u.address ++ [k] := rfl

end Constructors

theorem places_eq_cons (u : Usage) : ∃ above, u.places = u.place :: above := by
  cases u <;> exact ⟨_, rfl⟩

theorem place_mem_places (u : Usage) : u.place ∈ u.places := by
  obtain ⟨above, h⟩ := u.places_eq_cons
  simp [h]

theorem frame_step (u : Usage) (k : Nat) (l : Link) (i : Nat) (n : Node) :
    (step u k l i n).frame = (u.frame.nest l.path l.metadata).nest n.path n.metadata := by
  simp [frame, declarations, Frame.nest_ofDeclarations]

end Usage

/-- A point of a walk: the end of a usage path, or a link of that end which is not walked into. -/
inductive Stop where
  | node (usage : Usage)
  | link (usage : Usage) (position : Nat) (link : Link)

namespace Stop

def usage : Stop → Usage
  | node u => u
  | link u _ _ => u

def address : Stop → List Nat
  | node u => u.address
  | link u k _ => u.address ++ [k]

end Stop

namespace Corpus

/-- The node that a link below a usage path is walked into. -/
def next? (c : Corpus) (u : Usage) (l : Link) : Option (Nat × Node) :=
  if l.binding = .inclusion then
    ((c.graph.lookup? l.target).filter fun j => !u.places.contains j).bind fun j =>
      (c.graph.nodes[j]?).map fun n => (j, n)
  else none

theorem next?_eq_some_iff {c : Corpus} {u : Usage} {l : Link} {j : Nat} {n : Node} :
    c.next? u l = some (j, n) ↔ l.binding = .inclusion ∧ c.graph.lookup? l.target = some j ∧
      j ∉ u.places ∧ c.graph.nodes[j]? = some n := by
  unfold next?
  split
  case isFalse h => simp [h]
  case isTrue h =>
    simp only [h, true_and, Option.bind_eq_some_iff, Option.filter_eq_some_iff,
      Option.map_eq_some_iff, Prod.mk.injEq, Bool.not_eq_true', List.contains_eq_mem,
      decide_eq_false_iff_not]
    constructor
    · rintro ⟨_, ⟨hj, hp⟩, n, hn, rfl, rfl⟩
      exact ⟨hj, hp, hn⟩
    · rintro ⟨hj, hp, hn⟩
      exact ⟨j, ⟨hj, hp⟩, n, hn, rfl, rfl⟩

/-- The usage paths of a corpus: from a root on, every link of inclusion resolves to the next
node, and no node repeats. -/
inductive IsUsage (c : Corpus) : Usage → Prop
  | root {i : Nat} {n : Node} (hi : i ∈ c.roots) (hn : c.graph.nodes[i]? = some n) :
    IsUsage c (.root i n)
  | step {u : Usage} {k : Nat} {l : Link} {j : Nat} {n : Node} (hu : IsUsage c u)
      (hl : u.node.links[k]? = some l) (hb : l.binding = .inclusion)
      (ht : c.graph.lookup? l.target = some j) (hj : j ∉ u.places)
      (hn : c.graph.nodes[j]? = some n) : IsUsage c (.step u k l j n)

/-- The points that a walk comes to. -/
def IsStop (c : Corpus) : Stop → Prop
  | .node u => c.IsUsage u
  | .link u k l => c.IsUsage u ∧ u.node.links[k]? = some l ∧ c.next? u l = none

def outcome (c : Corpus) : Stop → Walk
  | .node u => { endpoints := (c.fragmentsOf u.place).map u.frame.ofFragment, entered := [u.place] }
  | .link u _ l =>
    if l.binding = .inclusion then
      .report l.location <| match c.graph.lookup? l.target with
        | none => .unresolvedReference l.target.message
        | some _ => .cyclicInclusion l.target.message
    else c.bind (u.frame.nest l.path l.metadata) l

/-- The points below a usage path, at most `fuel` nodes deep. -/
def stopsBelow (c : Corpus) : Nat → Usage → List Stop
  | 0, _ => []
  | fuel + 1, u => .node u :: u.node.links.zipIdx.flatMap fun (l, k) =>
    match c.next? u l with
    | some (j, n) => c.stopsBelow fuel (.step u k l j n)
    | none => [.link u k l]

def stops (c : Corpus) : List Stop :=
  c.roots.flatMap fun i => ((c.graph.nodes[i]?).map fun n => c.stopsBelow c.graph.size
    (.root i n)).getD []

/-- Every reference leads to a node of the graph. -/
def Closed (c : Corpus) : Prop := ∀ r i, c.graph.lookup? r = some i → i < c.graph.size

theorem closed_ofParts (fragments : List Fragment) (nodes : List Node) :
    (ofParts fragments nodes).Closed := fun _ _ h => Graph.lookup?_absorbAll_lt h

variable {c : Corpus}

/-! ### The walk as an enumeration -/

theorem next?_eq_none (hc : c.Closed) {u : Usage} {l : Link} (h : c.next? u l = none)
    (hb : l.binding = .inclusion) {j : Nat} (hj : c.graph.lookup? l.target = some j) :
    j ∈ u.places := by
  refine Decidable.byContradiction fun hp => ?_
  obtain ⟨n, hn⟩ : ∃ n, c.graph.nodes[j]? = some n := ⟨_, List.getElem?_eq_getElem (hc _ _ hj)⟩
  have hnext := next?_eq_some_iff.mpr ⟨hb, hj, hp, hn⟩
  rw [h] at hnext
  contradiction

/-- What the walk does with one link of a node, the walk below `u` being given. -/
theorem visit_link (hc : c.Closed) (fuel : Nat) (u : Usage) (k : Nat) (l : Link)
    (ih : ∀ j n, c.next? u l = some (j, n) →
      c.visit fuel u.places j (u.frame.nest l.path l.metadata) =
        .concat ((c.stopsBelow fuel (.step u k l j n)).map c.outcome)) :
    (match l.binding with
      | .inclusion =>
        match c.graph.lookup? l.target with
        | none => Walk.report l.location (.unresolvedReference l.target.message)
        | some j =>
          if u.places.contains j then .report l.location (.cyclicInclusion l.target.message)
          else c.visit fuel u.places j (u.frame.nest l.path l.metadata)
      | _ => c.bind (u.frame.nest l.path l.metadata) l) =
    .concat ((match c.next? u l with
      | some (j, n) => c.stopsBelow fuel (.step u k l j n)
      | none => [.link u k l]).map c.outcome) := by
  rcases hnext : c.next? u l with _ | ⟨j, n⟩
  · by_cases hb : l.binding = .inclusion
    · rcases ht : c.graph.lookup? l.target with _ | j
      · simp [outcome, hb, ht]
      · have hj := next?_eq_none hc hnext hb ht
        simp [outcome, hb, ht, hj]
    · simp [outcome, hb]
  · obtain ⟨hb, ht, hp, hn⟩ := next?_eq_some_iff.mp hnext
    simp only [hb, ht, List.contains_eq_mem, hp, decide_false, Bool.false_eq_true, if_false]
    exact ih j n hnext

/-- The walk below the nodes of a usage path does what its points say, one after the other. -/
theorem visit_eq_concat (hc : c.Closed) (fuel : Nat) {u : Usage} {above : List Nat} {f : Frame}
    (hp : u.places = u.place :: above) (hn : c.graph.nodes[u.place]? = some u.node)
    (hf : f.nest u.node.path u.node.metadata = u.frame) :
    c.visit fuel above u.place f = .concat ((c.stopsBelow fuel u).map c.outcome) := by
  induction fuel generalizing u above f with
  | zero => rfl
  | succ fuel ih =>
    have hlinks := fun l k => visit_link hc fuel u k l fun j n hnext => by
      have hstep := (next?_eq_some_iff.mp hnext).2.2.2
      exact ih (u := .step u k l j n) rfl hstep (u.frame_step k l j n).symm
    rw [visit, stopsBelow, List.map_cons, Walk.concat_cons, List.map_flatMap,
      ← Walk.concat_map_concat]
    simp only [hn, hf, ← hp, ← hlinks]
    rw [← List.zipIdx_map_fst 0 u.node.links, List.map_map]
    simp only [List.zipIdx_map_fst]
    rfl

theorem walk_eq_concat (hc : c.Closed) : c.walk = .concat (c.stops.map c.outcome) := by
  rw [walk, stops, List.map_flatMap, ← Walk.concat_map_concat]
  congr 1
  refine List.map_congr_left fun i _ => ?_
  rcases hn : c.graph.nodes[i]? with _ | n
  · cases hs : c.graph.size <;> simp [visit, hn]
  · exact visit_eq_concat hc _ (u := .root i n) rfl hn
      (Frame.nest_ofDeclarations [] n.path n.metadata)

/-! ### Usage paths -/

theorem getElem?_of_mem_roots {i : Nat} (h : i ∈ c.roots) : ∃ n, c.graph.nodes[i]? = some n := by
  obtain ⟨p, hp, rfl⟩ := List.mem_map.mp (List.mem_filter.mp h).1
  exact ⟨p.1, Graph.mem_places.mp (List.mem_filter.mp hp).1⟩

namespace IsUsage

variable {u : Usage}

theorem getElem?_place (h : c.IsUsage u) : c.graph.nodes[u.place]? = some u.node := by
  cases h with
  | root _ hn => exact hn
  | step _ _ _ _ _ hn => exact hn

theorem nodup_places (h : c.IsUsage u) : u.places.Nodup := by
  induction h with
  | root => simp
  | step _ _ _ _ hj _ ih => exact List.nodup_cons.mpr ⟨hj, ih⟩

theorem lt_size_of_mem_places (h : c.IsUsage u) {j : Nat} (hj : j ∈ u.places) :
    j < c.graph.size := by
  have hlt : ∀ {i n}, c.graph.nodes[i]? = some n → i < c.graph.size := fun hn =>
    (List.getElem?_eq_some_iff.mp hn).1
  induction h with
  | root _ hn =>
    rw [List.mem_singleton.mp hj]
    exact hlt hn
  | step _ _ _ _ _ hn ih =>
    rcases List.mem_cons.mp hj with rfl | hj
    · exact hlt hn
    · exact ih hj

/-- A usage path is no longer than the graph, since its nodes differ. -/
theorem length_places_le (h : c.IsUsage u) : u.places.length ≤ c.graph.size := by
  have hsub : u.places ⊆ List.range c.graph.size := fun j hj =>
    List.mem_range.mpr (h.lt_size_of_mem_places hj)
  simpa using h.nodup_places.length_le_of_subset hsub

theorem step_next? (h : c.IsUsage u) {k : Nat} {l : Link} {j : Nat} {n : Node}
    (hl : u.node.links[k]? = some l) (hnext : c.next? u l = some (j, n)) :
    c.IsUsage (.step u k l j n) := by
  obtain ⟨hb, ht, hj, hn⟩ := next?_eq_some_iff.mp hnext
  exact .step h hl hb ht hj hn

end IsUsage

/-! ### The points of a walk -/

theorem mem_stopsBelow_succ {fuel : Nat} {u : Usage} {s : Stop} :
    s ∈ c.stopsBelow (fuel + 1) u ↔ s = .node u ∨
      (∃ k l, u.node.links[k]? = some l ∧ c.next? u l = none ∧ s = .link u k l) ∨
      ∃ k l j n, u.node.links[k]? = some l ∧ c.next? u l = some (j, n) ∧
        s ∈ c.stopsBelow fuel (.step u k l j n) := by
  rw [stopsBelow, List.mem_cons, List.mem_flatMap]
  refine or_congr Iff.rfl ?_
  constructor
  · rintro ⟨⟨l, k⟩, hl, hs⟩
    have hl := List.mem_zipIdx_iff_getElem?.mp hl
    rcases hnext : c.next? u l with _ | ⟨j, n⟩
    · simp only [hnext, List.mem_singleton] at hs
      exact .inl ⟨k, l, hl, hnext, hs⟩
    · simp only [hnext] at hs
      exact .inr ⟨k, l, j, n, hl, hnext, hs⟩
  · rintro (⟨k, l, hl, hnext, rfl⟩ | ⟨k, l, j, n, hl, hnext, hs⟩)
    · exact ⟨(l, k), List.mem_zipIdx_iff_getElem?.mpr hl, by simp [hnext]⟩
    · exact ⟨(l, k), List.mem_zipIdx_iff_getElem?.mpr hl, by simpa [hnext] using hs⟩

theorem isStop_of_mem_stopsBelow {fuel : Nat} {u : Usage} {s : Stop} (hu : c.IsUsage u)
    (hs : s ∈ c.stopsBelow fuel u) : c.IsStop s := by
  induction fuel generalizing u with
  | zero => exact absurd hs List.not_mem_nil
  | succ fuel ih =>
    rcases mem_stopsBelow_succ.mp hs with rfl | ⟨k, l, hl, hnext, rfl⟩ | ⟨k, l, j, n, hl, hnext, hs⟩
    · exact hu
    · exact ⟨hu, hl, hnext⟩
    · exact ih (hu.step_next? hl hnext) hs

theorem node_mem_stopsBelow {fuel : Nat} (hf : fuel ≠ 0) (u : Usage) :
    .node u ∈ c.stopsBelow fuel u := by
  obtain ⟨n, rfl⟩ := Nat.exists_eq_succ_of_ne_zero hf
  exact mem_stopsBelow_succ.mpr (.inl rfl)

/-- Below a path that ends in a point, each link of its end is a point or is walked into: the depth
of the walk is never used up, because a path is no longer than the graph. -/
theorem link_mem_stopsBelow {fuel : Nat} {u v : Usage} (hu : c.IsUsage u)
    (hf : c.graph.size < fuel + u.places.length) (hv : .node v ∈ c.stopsBelow fuel u) {k : Nat}
    {l : Link} (hl : v.node.links[k]? = some l) :
    (c.next? v l = none → .link v k l ∈ c.stopsBelow fuel u) ∧
      ∀ j n, c.next? v l = some (j, n) → .node (.step v k l j n) ∈ c.stopsBelow fuel u := by
  induction fuel generalizing u with
  | zero => exact absurd hv List.not_mem_nil
  | succ fuel ih =>
    rcases mem_stopsBelow_succ.mp hv with h | ⟨_, _, _, _, h⟩ | ⟨k', l', j', n', hl', hnext', hv⟩
    · cases h
      refine ⟨fun hnext => mem_stopsBelow_succ.mpr (.inr (.inl ⟨k, l, hl, hnext, rfl⟩)), ?_⟩
      intro j n hnext
      have hlen := (hu.step_next? hl hnext).length_places_le
      have hfuel : fuel ≠ 0 := by
        simp only [Usage.places_step, List.length_cons] at hlen
        omega
      exact mem_stopsBelow_succ.mpr (.inr (.inr ⟨k, l, j, n, hl, hnext, node_mem_stopsBelow hfuel _⟩))
    · cases h
    · have hf' : c.graph.size < fuel + (Usage.step u k' l' j' n').places.length := by
        simp only [Usage.places_step, List.length_cons]
        omega
      obtain ⟨hlink, hnode⟩ := ih (hu.step_next? hl' hnext') hf' hv
      refine ⟨fun hnext => ?_, fun j n hnext => ?_⟩
      · exact mem_stopsBelow_succ.mpr (.inr (.inr ⟨k', l', j', n', hl', hnext', hlink hnext⟩))
      · exact mem_stopsBelow_succ.mpr (.inr (.inr ⟨k', l', j', n', hl', hnext', hnode j n hnext⟩))

theorem mem_stops_iff {s : Stop} :
    s ∈ c.stops ↔ ∃ i n, i ∈ c.roots ∧ c.graph.nodes[i]? = some n ∧
      s ∈ c.stopsBelow c.graph.size (.root i n) := by
  rw [stops, List.mem_flatMap]
  constructor
  · rintro ⟨i, hi, hs⟩
    obtain ⟨n, hn⟩ := getElem?_of_mem_roots hi
    exact ⟨i, n, hi, hn, by simpa [hn] using hs⟩
  · rintro ⟨i, n, hi, hn, hs⟩
    exact ⟨i, hi, by simpa [hn] using hs⟩

theorem link_mem_stops {v : Usage} (hv : .node v ∈ c.stops) {k : Nat} {l : Link}
    (hl : v.node.links[k]? = some l) :
    (c.next? v l = none → .link v k l ∈ c.stops) ∧
      ∀ j n, c.next? v l = some (j, n) → .node (.step v k l j n) ∈ c.stops := by
  obtain ⟨i, m, hi, hm, hv⟩ := mem_stops_iff.mp hv
  obtain ⟨hlink, hnode⟩ := link_mem_stopsBelow (.root hi hm) (by simp) hv hl
  exact ⟨fun hnext => mem_stops_iff.mpr ⟨i, m, hi, hm, hlink hnext⟩,
    fun j n hnext => mem_stops_iff.mpr ⟨i, m, hi, hm, hnode j n hnext⟩⟩

theorem node_mem_stops {u : Usage} (hu : c.IsUsage u) : .node u ∈ c.stops := by
  induction hu with
  | root hi hn =>
    have hsize : c.graph.size ≠ 0 := by
      have := (List.getElem?_eq_some_iff.mp hn).1
      exact Nat.ne_of_gt (Nat.zero_lt_of_lt this)
    exact mem_stops_iff.mpr ⟨_, _, hi, hn, node_mem_stopsBelow hsize _⟩
  | step _ hl hb ht hj hn ih =>
    exact (link_mem_stops ih hl).2 _ _ (next?_eq_some_iff.mpr ⟨hb, ht, hj, hn⟩)

/-- The walk comes to the ends of all usage paths and to their links that are not walked into. -/
theorem mem_stops {s : Stop} : s ∈ c.stops ↔ c.IsStop s := by
  constructor
  · intro hs
    obtain ⟨i, n, hi, hn, hs⟩ := mem_stops_iff.mp hs
    exact isStop_of_mem_stopsBelow (.root hi hn) hs
  · intro hs
    cases s with
    | node u => exact node_mem_stops hs
    | link u k l => exact (link_mem_stops (node_mem_stops hs.1) hs.2.1).1 hs.2.2

/-- Deeper walks find nothing more. -/
theorem stopsBelow_add {fuel : Nat} {u : Usage} (hu : c.IsUsage u)
    (hf : c.graph.size < fuel + u.places.length) (extra : Nat) :
    c.stopsBelow (fuel + extra) u = c.stopsBelow fuel u := by
  induction fuel generalizing u with
  | zero =>
    have := hu.length_places_le
    omega
  | succ fuel ih =>
    rw [Nat.succ_add, stopsBelow, stopsBelow]
    congr 1
    refine congrArg List.flatten (List.map_congr_left ?_)
    rintro ⟨l, k⟩ hp
    have hl := List.mem_zipIdx_iff_getElem?.mp hp
    rcases hnext : c.next? u l with _ | ⟨j, n⟩
    · simp [hnext]
    · have hstep : c.graph.size < fuel + (Usage.step u k l j n).places.length := by
        simp only [Usage.places_step, List.length_cons]
        omega
      simpa [hnext] using ih (hu.step_next? hl hnext) hstep

/-! ### Depth-first order -/

theorem prefix_address_of_mem {fuel : Nat} {u : Usage} {s : Stop} (hs : s ∈ c.stopsBelow fuel u) :
    ∃ rest, s.address = u.address ++ rest := by
  induction fuel generalizing u with
  | zero => exact absurd hs List.not_mem_nil
  | succ fuel ih =>
    rcases mem_stopsBelow_succ.mp hs with rfl | ⟨k, l, _, _, rfl⟩ | ⟨k, l, j, n, _, _, hs⟩
    · exact ⟨[], (List.append_nil _).symm⟩
    · exact ⟨[k], rfl⟩
    · obtain ⟨rest, hrest⟩ := ih hs
      exact ⟨k :: rest, by simp [hrest]⟩

theorem pairwise_snd_zipIdx {α : Type} (xs : List α) : xs.zipIdx.Pairwise fun a b => a.2 < b.2 := by
  have h : (xs.zipIdx.map Prod.snd).Pairwise (· < ·) := by
    rw [List.zipIdx_map_snd]
    exact List.pairwise_lt_range'
  exact List.pairwise_map.mp h

/-- The points below a link have addresses that continue with its position. -/
theorem address_of_mem_link {fuel : Nat} {u : Usage} {l : Link} {k : Nat} {s : Stop}
    (hs : s ∈ match c.next? u l with
      | some (j, n) => c.stopsBelow fuel (.step u k l j n)
      | none => [.link u k l]) : ∃ rest, s.address = u.address ++ k :: rest := by
  split at hs
  · obtain ⟨rest, hrest⟩ := prefix_address_of_mem hs
    exact ⟨rest, by simp [hrest]⟩
  · rw [List.mem_singleton.mp hs]
    exact ⟨[], rfl⟩

theorem pairwise_stopsBelow (fuel : Nat) (u : Usage) :
    (c.stopsBelow fuel u).Pairwise fun s t => s.address < t.address := by
  induction fuel generalizing u with
  | zero => exact .nil
  | succ fuel ih =>
    rw [stopsBelow, List.pairwise_cons, List.pairwise_flatMap]
    refine ⟨?_, ?_, ?_⟩
    · intro s hs
      obtain ⟨⟨l, k⟩, -, hs⟩ := List.mem_flatMap.mp hs
      obtain ⟨rest, hrest⟩ := address_of_mem_link hs
      have hlt : u.address ++ [] < u.address ++ k :: rest :=
        List.append_left_lt (List.nil_lt_cons k rest)
      rwa [List.append_nil, ← hrest] at hlt
    · rintro ⟨l, k⟩ -
      dsimp only
      split
      · exact ih _
      · exact List.pairwise_singleton _ _
    · refine (pairwise_snd_zipIdx _).imp fun {a b} hab s hs t ht => ?_
      obtain ⟨rest, hrest⟩ := address_of_mem_link hs
      obtain ⟨rest', hrest'⟩ := address_of_mem_link ht
      rw [hrest, hrest']
      exact List.append_left_lt (List.cons_lt_cons_iff.mpr (.inl hab))

/-- The walk comes to its points in the order of their addresses. -/
theorem pairwise_stops : c.stops.Pairwise fun s t => s.address < t.address := by
  have hroot : ∀ i : Nat, ∀ s ∈ ((c.graph.nodes[i]?).map fun n =>
      c.stopsBelow c.graph.size (.root i n)).getD [], ∃ rest, s.address = i :: rest := by
    intro i s hs
    rcases hn : c.graph.nodes[i]? with _ | n
    · simp [hn] at hs
    · rw [hn] at hs
      exact prefix_address_of_mem hs
  have hsorted : c.roots.Pairwise (· < ·) := by
    refine List.Pairwise.filter _ (List.pairwise_map.mpr (List.Pairwise.filter _ ?_))
    exact pairwise_snd_zipIdx c.graph.nodes
  rw [stops, List.pairwise_flatMap]
  refine ⟨fun i _ => ?_, hsorted.imp fun {i j} hij s hs t ht => ?_⟩
  · rcases c.graph.nodes[i]? with _ | n
    · exact .nil
    · exact pairwise_stopsBelow _ _
  · obtain ⟨rest, hrest⟩ := hroot i s hs
    obtain ⟨rest', hrest'⟩ := hroot j t ht
    rw [hrest, hrest']
    exact List.cons_lt_cons_iff.mpr (.inl hij)

end Corpus

end EndpointCensus
