import EndpointCensus.Proofs.Composition.Settlement
import EndpointCensus.Proofs.Node
import Mathlib.Data.List.Nodup

/-! The nodes of a graph and the nodes it was made of. Nodes of one unit and name are
merged into the first of them, so a unit and a name belong to one place, and a reference
within the unit leads there. -/

namespace EndpointCensus

/-- What tells the nodes of a graph apart. -/
def Node.key (n : Node) : String × String := (n.unit, n.name)

namespace Graph

/-! ### Merging -/

/-- Inserting a node changes no bare node, and adds one only under a key that is free. -/
theorem bare_insert (nodes : List Node) (m : Node) :
    (insert nodes m).map Node.bare = nodes.map Node.bare ∨
      ((∀ n ∈ nodes, n.key ≠ m.key) ∧ (insert nodes m).map Node.bare =
        nodes.map Node.bare ++ [m.bare]) := by
  unfold insert
  dsimp only
  split
  · refine .inl ?_
    rw [List.map_map]
    refine List.map_congr_left fun n _ => ?_
    simp only [Function.comp_apply]
    split
    · exact bare_mergeNode n m
    · rfl
  · next hnone =>
    refine .inr ⟨fun n hn hkey => hnone ?_, List.map_append⟩
    obtain ⟨hunit, hname⟩ := Prod.mk.inj hkey
    exact List.any_eq_true.mpr ⟨n, hn, by simp [hunit, hname]⟩

theorem map_key_eq {nodes nodes' : List Node} (h : nodes'.map Node.bare = nodes.map Node.bare) :
    nodes'.map Node.key = nodes.map Node.key := by
  have hbare : ∀ ns : List Node, ns.map Node.key = (ns.map Node.bare).map Node.key := by
    intro ns
    rw [List.map_map]
    rfl
  rw [hbare, h, ← hbare]

theorem nodup_insert {nodes : List Node} (h : (nodes.map Node.key).Nodup) (m : Node) :
    ((insert nodes m).map Node.key).Nodup := by
  rcases bare_insert nodes m with heq | ⟨hfree, heq⟩
  · rw [map_key_eq heq]
    exact h
  · have heq' : (insert nodes m).map Node.bare = (nodes ++ [m]).map Node.bare := by
      rw [heq, List.map_append, List.map_singleton]
    rw [map_key_eq heq', List.map_append, List.nodup_append]
    refine ⟨h, List.nodup_singleton _, fun a ha b hb hab => ?_⟩
    obtain ⟨n, hn, rfl⟩ := List.mem_map.mp ha
    rw [List.map_singleton, List.mem_singleton] at hb
    exact hfree n hn (hab.trans hb)

theorem nodup_foldl_insert {acc : List Node} (hacc : (acc.map Node.key).Nodup) (nodes : List Node) :
    ((nodes.foldl insert acc).map Node.key).Nodup := by
  induction nodes generalizing acc with
  | nil => exact hacc
  | cons m nodes ih => exact ih (nodup_insert hacc m)

theorem forall_mem_insert {P : Node → Prop}
    (hmerge : ∀ n m, n.unit = m.unit → P n → P m → P (mergeNode n m)) {nodes : List Node}
    (h : ∀ n ∈ nodes, P n) {m : Node} (hm : P m) : ∀ n ∈ insert nodes m, P n := by
  intro n hn
  unfold insert at hn
  dsimp only at hn
  split at hn
  · obtain ⟨k, hk, rfl⟩ := List.mem_map.mp hn
    split
    next hsame => exact hmerge k m (beq_iff_eq.mp (Bool.and_eq_true_iff.mp hsame).1) (h k hk) hm
    next => exact h k hk
  · rcases List.mem_append.mp hn with hn | hn
    · exact h n hn
    · exact List.mem_singleton.mp hn ▸ hm

theorem forall_mem_foldl_insert {P : Node → Prop}
    (hmerge : ∀ n m, n.unit = m.unit → P n → P m → P (mergeNode n m)) {acc nodes : List Node}
    (hacc : ∀ n ∈ acc, P n) (h : ∀ n ∈ nodes, P n) : ∀ n ∈ nodes.foldl insert acc, P n := by
  induction nodes generalizing acc with
  | nil => exact hacc
  | cons m nodes ih =>
    obtain ⟨hm, hnodes⟩ := List.forall_mem_cons.mp h
    exact ih (forall_mem_insert hmerge hacc hm) hnodes

/-! ### Resolved graphs -/

variable {nodes : List Node} {i : Nat} {n : Node}

/-- The resolution of stand-ins leaves the bare nodes as they are. -/
theorem bare_absorbAll (nodes : List Node) :
    (ofNodes nodes).absorbAll.1.nodes.map Node.bare = (ofNodes nodes).nodes.map Node.bare := by
  refine List.ext_getElem? fun i => ?_
  obtain ⟨links, h⟩ := (progress_absorbAll nodes).heads i
  rw [List.getElem?_map, List.getElem?_map, h, Option.map_map]
  rfl

/-- What holds of all nodes and is kept by merging holds of those of the graph,
whatever their links are. -/
theorem forall_mem_absorbAll {P : Node → Prop}
    (hmerge : ∀ n m, n.unit = m.unit → P n → P m → P (mergeNode n m))
    (hlinks : ∀ n links, P n → P { n with links }) (h : ∀ n ∈ nodes, P n) :
    ∀ n ∈ (ofNodes nodes).absorbAll.1.nodes, P n := by
  intro n hn
  obtain ⟨i, hi⟩ := List.getElem?_of_mem hn
  obtain ⟨links, hheads⟩ := (progress_absorbAll nodes).heads i
  rw [hi] at hheads
  obtain ⟨m, hm, rfl⟩ := Option.map_eq_some_iff.mp hheads.symm
  have hnone : ∀ n ∈ ([] : List Node), P n := fun _ h => absurd h List.not_mem_nil
  exact hlinks m links (forall_mem_foldl_insert hmerge hnone h m (List.mem_of_getElem? hm))

/-- Every node of the graph is one that it was made of, but for what was added. -/
theorem exists_bare_of_mem_absorbAll (h : (ofNodes nodes).absorbAll.1.nodes[i]? = some n) :
    ∃ m ∈ nodes, m.bare = n.bare := by
  refine forall_mem_absorbAll (P := fun n => ∃ m ∈ nodes, m.bare = n.bare) ?_ (fun _ _ h => h)
    (fun m hm => ⟨m, hm, rfl⟩) n (List.mem_of_getElem? h)
  rintro n m - ⟨k, hk, hbare⟩ -
  exact ⟨k, hk, hbare.trans (bare_mergeNode n m).symm⟩

theorem nodup_absorbAll (nodes : List Node) :
    ((ofNodes nodes).absorbAll.1.nodes.map Node.key).Nodup := by
  have hnone : (([] : List Node).map Node.key).Nodup := List.nodup_nil
  rw [map_key_eq (bare_absorbAll nodes)]
  exact nodup_foldl_insert hnone nodes

/-- Only stand-ins are absorbed. -/
theorem lookup_absorbed_eq_none (h : (ofNodes nodes).absorbAll.1.nodes[i]? = some n)
    (hn : n.stands = none) : (ofNodes nodes).absorbAll.1.absorbed.lookup i = none := by
  have hprogress := progress_absorbAll nodes
  refine lookup_eq_none_of_forall_ne fun p hp hpi => ?_
  obtain ⟨m, hm, hstands⟩ := hprogress.stands p hp
  obtain ⟨links, hlinks⟩ := hprogress.heads i
  rw [hpi] at hm
  rw [h, hm, Option.map_some, Option.some.injEq] at hlinks
  rw [hlinks] at hn
  rw [show m.stands = none from hn] at hstands
  contradiction

/-- A reference within a unit leads to the node of the unit that has the name, if it
is no stand-in. -/
theorem lookup?_inUnit (h : (ofNodes nodes).absorbAll.1.nodes[i]? = some n) (hn : n.stands = none) :
    (ofNodes nodes).absorbAll.1.lookup? (.inUnit n.unit n.module n.name) = some i := by
  have hfree := lookup_absorbed_eq_none h hn
  have hnodup := nodup_absorbAll nodes
  generalize (ofNodes nodes).absorbAll.1 = g at h hfree hnodup
  have hfind : ∃ c, (g.places.filter fun c => c.1.unit == n.unit).find?
      (fun c => c.1.name == n.name) = some c := by
    rw [← Option.isSome_iff_exists, List.find?_isSome]
    exact ⟨(n, i), List.mem_filter.mpr ⟨mem_places.mpr h, beq_self_eq_true _⟩, beq_self_eq_true _⟩
  obtain ⟨⟨m, j⟩, hm⟩ := hfind
  have hname := List.find?_some hm
  obtain ⟨hplace, hunit⟩ := List.mem_filter.mp (List.mem_of_find?_eq_some hm)
  have hj := mem_places.mp hplace
  have hkey : m.key = n.key := Prod.ext (beq_iff_eq.mp hunit) (beq_iff_eq.mp hname)
  -- The key is unique, so the first node that is found is the one that was asked for.
  have hij : j = i := by
    have hkeys : (g.nodes.map Node.key)[j]? = (g.nodes.map Node.key)[i]? := by
      rw [List.getElem?_map, List.getElem?_map, hj, h, Option.map_some, Option.map_some, hkey]
    have hlt : j < (g.nodes.map Node.key).length := by
      rw [List.length_map]
      exact (List.getElem?_eq_some_iff.mp hj).1
    exact (List.getElem?_inj hlt hnodup).mp hkeys
  have hnamed : g.named? (.inUnit n.unit n.module n.name) = some i := by
    have hunit? : g.inUnit? (.inUnit n.unit n.module n.name) n.unit = some i := by
      simp only [inUnit?, Reference.inUnit, Bool.false_eq_true, if_false, hm, Option.map_some, hij]
    exact Option.or_eq_some_iff.mpr (.inl hunit?)
  rw [lookup?, hnamed, Option.map_some, settle, settleFrom_of_free hfree]

end Graph

end EndpointCensus
