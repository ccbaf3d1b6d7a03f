import EndpointCensus.Composition.Graph

/-! Nodes by what is fixed at their declaration. Lowering, merging and the resolution of stand-ins
add to a node, but they leave its unit, its name, its kind and what it stands for as they are. -/

namespace EndpointCensus

namespace Node

def bare (n : Node) : Node :=
  { n with path := "", metadata := {}, bases := [], aliases := [], links := [] }

variable {n m : Node}

theorem unit_eq_of_bare (h : n.bare = m.bare) : n.unit = m.unit := (congrArg Node.unit h :)

theorem module_eq_of_bare (h : n.bare = m.bare) : n.module = m.module := (congrArg Node.module h :)

theorem name_eq_of_bare (h : n.bare = m.bare) : n.name = m.name := (congrArg Node.name h :)

theorem kind_eq_of_bare (h : n.bare = m.bare) : n.kind = m.kind := (congrArg Node.kind h :)

theorem stands_eq_of_bare (h : n.bare = m.bare) : n.stands = m.stands := (congrArg Node.stands h :)

end Node

namespace Graph

/-- Merging adds the links, bases and aliases of a node. -/
theorem exists_mergeNode_eq (n m : Node) : ∃ aliases,
    mergeNode n m = { n with links := n.links ++ m.links, bases := n.bases ++ m.bases, aliases } := by
  have hfold : ∀ (names : List String) (k : Node), ∃ aliases, names.foldl addAlias k =
      { k with aliases } := by
    intro names
    induction names with
    | nil => exact fun k => ⟨k.aliases, rfl⟩
    | cons as names ih =>
      intro k
      obtain ⟨aliases, hrest⟩ := ih (addAlias k as)
      refine ⟨aliases, hrest.trans ?_⟩
      unfold addAlias
      split <;> rfl
  exact hfold m.aliases _

theorem bare_mergeNode (n m : Node) : (mergeNode n m).bare = n.bare := by
  obtain ⟨_, h⟩ := exists_mergeNode_eq n m
  rw [h]
  rfl

theorem bases_mergeNode (n m : Node) : (mergeNode n m).bases = n.bases ++ m.bases := by
  obtain ⟨_, h⟩ := exists_mergeNode_eq n m
  rw [h]

end Graph

end EndpointCensus
