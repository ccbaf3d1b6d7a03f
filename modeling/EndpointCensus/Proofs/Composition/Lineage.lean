import EndpointCensus.Composition.Member
import EndpointCensus.Proofs.Composition.Usage

/-! Where the members of a class can come from. A base is a class of the corpus, with sources
of its own, or it is none, and then it is a source itself. A way up to a source has an
address, the positions of the bases that it takes; in depth-first order the sources are
sorted by their addresses. -/

namespace EndpointCensus

/-- What members come from: a class that declares them, or a base that is no class of the corpus, at
its position among the bases of a class. -/
inductive MemberSource where
  | own (place : Nat)
  | implied (place position : Nat) (base : Reference)

namespace Corpus

def basesOf (c : Corpus) (i : Nat) : List Reference := ((c.graph.nodes[i]?).map Node.bases).getD []

/-- The class of the corpus that a base means. -/
def parent? (c : Corpus) (base : Reference) : Option Nat :=
  (c.graph.lookupView? base).filter (c.graph.hasKind .viewClass)

def Extends (c : Corpus) (i j : Nat) : Prop := ∃ base ∈ c.basesOf i, c.parent? base = some j

/-- The bases at the positions of the address lead from a class up to a source, over no class twice
and over none of those below. -/
inductive LeadsUp (c : Corpus) : List Nat → Nat → List Nat → MemberSource → Prop
  | own {below : List Nat} {i : Nat} : LeadsUp c below i [] (.own i)
  | implied {below : List Nat} {i k : Nat} {base : Reference}
      (hbase : (c.basesOf i)[k]? = some base) (hnone : c.parent? base = none) :
      LeadsUp c below i [k] (.implied i k base)
  | parent {below : List Nat} {i k j : Nat} {base : Reference} {address : List Nat}
      {s : MemberSource} (hbase : (c.basesOf i)[k]? = some base) (hparent : c.parent? base = some j)
      (hnew : j ∉ i :: below) (hrest : LeadsUp c (i :: below) j address s) :
      LeadsUp c below i (k :: address) s

/-- The sources that a base of the class at `i` leads to, given those above each class. -/
def sourcesOfBase (c : Corpus) (below : List Nat) (i : Nat)
    (above : Nat → List (List Nat × MemberSource)) (base : Reference) (k : Nat) :
    List (List Nat × MemberSource) :=
  match c.parent? base with
  | some j => if j ∈ i :: below then [] else (above j).map fun p => (k :: p.1, p.2)
  | none => [([k], .implied i k base)]

/-- The sources above a class with their addresses, in depth-first order; bases are
followed at most `fuel` deep. -/
def sourcesAbove (c : Corpus) : Nat → List Nat → Nat → List (List Nat × MemberSource)
  | 0, _, _ => []
  | fuel + 1, below, i => ([], .own i) :: (c.basesOf i).zipIdx.flatMap fun (base, k) =>
    c.sourcesOfBase below i (c.sourcesAbove fuel (i :: below)) base k

variable {c : Corpus} {below : List Nat} {i k : Nat} {base : Reference} {address : List Nat}
  {s : MemberSource}

theorem lt_size_of_parent? {j : Nat} (h : c.parent? base = some j) : j < c.graph.size := by
  obtain ⟨n, hn, -⟩ := Graph.hasKind_iff.mp (Option.filter_eq_some_iff.mp h).2
  exact (List.getElem?_eq_some_iff.mp hn).1

theorem mem_sourcesOfBase {above : Nat → List (List Nat × MemberSource)} :
    (address, s) ∈ c.sourcesOfBase below i above base k ↔
      (c.parent? base = none ∧ address = [k] ∧ s = .implied i k base) ∨
        ∃ j rest, c.parent? base = some j ∧ j ∉ i :: below ∧ address = k :: rest ∧
        (rest, s) ∈ above j := by
  unfold sourcesOfBase
  rcases hparent : c.parent? base with _ | j
  · simp
  · by_cases hnew : j ∈ i :: below
    · simp only [if_pos hnew, List.not_mem_nil, reduceCtorEq, false_and, false_or,
        Option.some.injEq, false_iff]
      rintro ⟨_, _, rfl, hnot, -⟩
      exact hnot hnew
    · simp only [if_neg hnew, List.mem_map, Prod.exists, Prod.mk.injEq, reduceCtorEq, false_and,
        false_or, Option.some.injEq]
      constructor
      · rintro ⟨rest, t, ht, rfl, rfl⟩
        exact ⟨j, rest, rfl, hnew, rfl, ht⟩
      · rintro ⟨_, rest, rfl, -, rfl, ht⟩
        exact ⟨rest, s, ht, rfl, rfl⟩

theorem mem_sourcesAbove_succ {fuel : Nat} : (address, s) ∈ c.sourcesAbove (fuel + 1) below i ↔
    (address = [] ∧ s = .own i) ∨ ∃ base k, (c.basesOf i)[k]? = some base ∧
      (address, s) ∈ c.sourcesOfBase below i (c.sourcesAbove fuel (i :: below)) base k := by
  rw [sourcesAbove, List.mem_cons, Prod.mk.injEq, List.mem_flatMap]
  simp only [Prod.exists, List.mem_zipIdx_iff_getElem?]

/-- What is enumerated is led up to. -/
theorem leadsUp_of_mem_sourcesAbove {fuel : Nat} (h : (address, s) ∈ c.sourcesAbove fuel below i) :
    c.LeadsUp below i address s := by
  induction fuel generalizing below i address with
  | zero => exact absurd h List.not_mem_nil
  | succ fuel ih =>
    rcases mem_sourcesAbove_succ.mp h with ⟨rfl, rfl⟩ | ⟨base, k, hbase, h⟩
    · exact .own
    · rcases mem_sourcesOfBase.mp h with ⟨hnone, rfl, rfl⟩ | ⟨j, rest, hparent, hnew, rfl, hrest⟩
      · exact .implied hbase hnone
      · exact .parent hbase hparent hnew (ih hrest)

/-- Classes that are all different, as on a way up, leave a step of the depth as long as they are
fewer than the nodes of the graph. -/
theorem exists_fuel_eq_succ (hnodup : (i :: below).Nodup) (hlt : ∀ x ∈ i :: below, x < c.graph.size)
    {fuel : Nat} (hfuel : c.graph.size ≤ fuel + below.length) : ∃ n, fuel = n + 1 := by
  have hsub : i :: below ⊆ List.range c.graph.size := fun x hx => List.mem_range.mpr (hlt x hx)
  have hlength := hnodup.length_le_of_subset hsub
  rw [List.length_cons, List.length_range] at hlength
  exact Nat.exists_eq_succ_of_ne_zero (by omega)

/-- What is led up to is enumerated: the depth is never used up, since no class is
on a way twice. -/
theorem mem_sourcesAbove (h : c.LeadsUp below i address s) {fuel : Nat}
    (hnodup : (i :: below).Nodup) (hlt : ∀ x ∈ i :: below, x < c.graph.size)
    (hfuel : c.graph.size ≤ fuel + below.length) : (address, s) ∈ c.sourcesAbove fuel below i := by
  induction h generalizing fuel with
  | own =>
    obtain ⟨n, rfl⟩ := exists_fuel_eq_succ hnodup hlt hfuel
    exact mem_sourcesAbove_succ.mpr (.inl ⟨rfl, rfl⟩)
  | implied hbase hnone =>
    obtain ⟨n, rfl⟩ := exists_fuel_eq_succ hnodup hlt hfuel
    exact mem_sourcesAbove_succ.mpr
      (.inr ⟨_, _, hbase, mem_sourcesOfBase.mpr (.inl ⟨hnone, rfl, rfl⟩)⟩)
  | @parent below i _ _ _ _ _ hbase hparent hnew _ ih =>
    obtain ⟨n, rfl⟩ := exists_fuel_eq_succ hnodup hlt hfuel
    have hfuel' : c.graph.size ≤ n + (i :: below).length := by
      rw [List.length_cons]
      omega
    have hrest := ih (List.nodup_cons.mpr ⟨hnew, hnodup⟩)
      (List.forall_mem_cons.mpr ⟨lt_size_of_parent? hparent, hlt⟩) hfuel'
    exact mem_sourcesAbove_succ.mpr
      (.inr ⟨_, _, hbase, mem_sourcesOfBase.mpr (.inr ⟨_, _, hparent, hnew, rfl, hrest⟩)⟩)

/-- Whatever comes from one base has an address that begins with its position. -/
theorem exists_address_eq_cons {above : Nat → List (List Nat × MemberSource)}
    {p : List Nat × MemberSource} (hp : p ∈ c.sourcesOfBase below i above base k) :
    ∃ rest, p.1 = k :: rest := by
  obtain ⟨address, s⟩ := p
  rcases mem_sourcesOfBase.mp hp with ⟨-, rfl, -⟩ | ⟨_, rest, -, -, rfl, -⟩ <;> exact ⟨_, rfl⟩

/-- The sources above a class come in the order of their addresses. -/
theorem pairwise_sourcesAbove (fuel : Nat) (below : List Nat) (i : Nat) :
    (c.sourcesAbove fuel below i).Pairwise fun p q => p.1 < q.1 := by
  induction fuel generalizing below i with
  | zero => exact .nil
  | succ fuel ih =>
    rw [sourcesAbove, List.pairwise_cons, List.pairwise_flatMap]
    refine ⟨?_, ?_, ?_⟩
    · intro p hp
      obtain ⟨⟨base, k⟩, -, hp⟩ := List.mem_flatMap.mp hp
      obtain ⟨rest, hrest⟩ := exists_address_eq_cons hp
      rw [hrest]
      exact List.nil_lt_cons k rest
    · rintro ⟨base, k⟩ -
      dsimp only [sourcesOfBase]
      rcases c.parent? base with _ | j
      · exact List.pairwise_singleton _ _
      · dsimp only
        split
        · exact .nil
        · exact List.pairwise_map.mpr ((ih (i :: below) j).imp fun h =>
            List.cons_lt_cons_iff.mpr (.inr ⟨rfl, h⟩))
    · refine (pairwise_snd_zipIdx (c.basesOf i)).imp fun {a b} hab p hp q hq => ?_
      obtain ⟨rest, hrest⟩ := exists_address_eq_cons hp
      obtain ⟨rest', hrest'⟩ := exists_address_eq_cons hq
      rw [hrest, hrest']
      exact List.cons_lt_cons_iff.mpr (.inl hab)

end Corpus

end EndpointCensus
