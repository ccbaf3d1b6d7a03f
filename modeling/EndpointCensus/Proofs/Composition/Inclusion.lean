import EndpointCensus.Proofs.Composition.Findings
import Mathlib.Data.Fintype.EquivFin
import Mathlib.Logic.Relation

/-! Which nodes include which, and what a walk says about it. A node is entered exactly if
inclusions lead to it from a root. A cycle that can be reached from a root is noticed where the
walk comes back onto its path. A cycle that cannot keeps its containers from being entered, and
they are reported for that. -/

namespace EndpointCensus

open Relation

namespace Corpus

/-- The node at `i` is no absorbed stand-in and has a link of inclusion that leads to `j`. -/
def Includes (c : Corpus) (i j : Nat) : Prop :=
  c.graph.isAbsorbed i = false ∧ ∃ n, c.graph.nodes[i]? = some n ∧
    ∃ l ∈ n.links, l.binding = .inclusion ∧ c.graph.lookup? l.target = some j

def IsContainer (c : Corpus) (i : Nat) : Prop :=
  ∃ n, c.graph.nodes[i]? = some n ∧ n.kind.isContainer = true

/-- Inclusions lead to the node from a root. -/
def Reachable (c : Corpus) (i : Nat) : Prop := ∃ r ∈ c.roots, ReflTransGen c.Includes r i

/-- References never lead to a stand-in that was absorbed. -/
def Settled (c : Corpus) : Prop := ∀ r i, c.graph.lookup? r = some i → c.graph.isAbsorbed i = false

theorem settled_ofParts (fragments : List Fragment) (nodes : List Node) :
    (ofParts fragments nodes).Settled := fun _ _ h => Graph.not_isAbsorbed_lookup? h

variable {c : Corpus}

/-! ### Roots -/

theorem mem_included {j : Nat} : j ∈ c.included ↔ ∃ i, i ≠ j ∧ c.Includes i j := by
  simp only [included, inclusionsOf, List.mem_flatMap, List.mem_filter, List.mem_filterMap,
    Prod.exists, Graph.mem_places, Bool.not_eq_true', beq_iff_eq, bne_iff_ne, ne_eq]
  constructor
  · rintro ⟨n, i, ⟨hn, ha⟩, ⟨l, ⟨hl, hb⟩, ht⟩, hij⟩
    exact ⟨i, fun h => hij h.symm, ha, n, hn, l, hl, hb, ht⟩
  · rintro ⟨i, hij, ha, n, hn, l, hl, hb, ht⟩
    exact ⟨n, i, ⟨hn, ha⟩, ⟨l, ⟨hl, hb⟩, ht⟩, fun h => hij h.symm⟩

/-- A container is a root unless it was absorbed or another node includes it. -/
theorem mem_roots {i : Nat} : i ∈ c.roots ↔ c.IsContainer i ∧ c.graph.isAbsorbed i = false ∧
    ∀ k, c.Includes k i → k = i := by
  have hin : i ∈ c.included ↔ ¬ ∀ k, c.Includes k i → k = i := by
    rw [mem_included]
    constructor
    · rintro ⟨k, hk, hki⟩ h
      exact hk (h k hki)
    · intro h
      by_contra hno
      exact h fun k hki => by_contra fun hk => hno ⟨k, hk, hki⟩
  simp only [roots, List.mem_filter, List.mem_map, Prod.exists, mem_containers, Bool.not_eq_true',
    List.contains_eq_mem, decide_eq_false_iff_not, hin, not_not]
  constructor
  · rintro ⟨⟨n, _, ⟨hn, hk, ha⟩, rfl⟩, hroot⟩
    exact ⟨⟨n, hn, hk⟩, ha, hroot⟩
  · rintro ⟨⟨n, hn, hk⟩, ha, hroot⟩
    exact ⟨⟨n, i, ⟨hn, hk, ha⟩, rfl⟩, hroot⟩

/-- A container that is no root and was not absorbed is included by another node. -/
theorem exists_includes_of_not_mem_roots {i : Nat} (hi : c.IsContainer i)
    (hfree : c.graph.isAbsorbed i = false) (hroot : i ∉ c.roots) : ∃ k, k ≠ i ∧ c.Includes k i := by
  by_contra hno
  have honly : ∀ k, c.Includes k i → k = i := fun k hk => by_contra fun hne => hno ⟨k, hne, hk⟩
  exact hroot (mem_roots.mpr ⟨hi, hfree, honly⟩)

theorem Includes.lt_size (hc : c.Closed) {i j : Nat} (h : c.Includes i j) :
    i < c.graph.size ∧ j < c.graph.size := by
  obtain ⟨-, n, hn, l, -, -, ht⟩ := h
  exact ⟨(List.getElem?_eq_some_iff.mp hn).1, hc _ _ ht⟩

theorem Includes.free (hs : c.Settled) {i j : Nat} (h : c.Includes i j) :
    c.graph.isAbsorbed j = false := by
  obtain ⟨-, n, -, l, -, -, ht⟩ := h
  exact hs _ _ ht

/-! ### Entered nodes -/

namespace IsUsage

variable {u : Usage}

theorem free (hs : c.Settled) (hu : c.IsUsage u) : c.graph.isAbsorbed u.place = false := by
  cases hu with
  | root hi _ => exact (mem_roots.mp hi).2.1
  | step _ _ _ ht _ _ => exact hs _ _ ht

theorem includes (hs : c.Settled) (hu : c.IsUsage u) {k : Nat} {l : Link} {j : Nat}
    (hl : u.node.links[k]? = some l) (hb : l.binding = .inclusion)
    (ht : c.graph.lookup? l.target = some j) : c.Includes u.place j :=
  ⟨hu.free hs, u.node, hu.getElem?_place, l, List.mem_of_getElem? hl, hb, ht⟩

/-- A link of inclusion at the end of a path belongs to each node that the end includes. -/
theorem exists_link (hu : c.IsUsage u) {j : Nat} (h : c.Includes u.place j) :
    ∃ (k : Nat) (l : Link), u.node.links[k]? = some l ∧ l.binding = .inclusion ∧
      c.graph.lookup? l.target = some j := by
  obtain ⟨-, n, hn, l, hl, hb, ht⟩ := h
  rw [hu.getElem?_place, Option.some.injEq] at hn
  subst hn
  obtain ⟨k, hk⟩ := List.getElem?_of_mem hl
  exact ⟨k, l, hk, hb, ht⟩

/-- The path leads on from each of its nodes to its end. -/
theorem reaches (hs : c.Settled) (hu : c.IsUsage u) {j : Nat} (hj : j ∈ u.places) :
    ReflTransGen c.Includes j u.place := by
  induction hu with
  | root =>
    rw [List.mem_singleton.mp hj]
    exact .refl
  | step hu hl hb ht _ _ ih =>
    rcases List.mem_cons.mp hj with rfl | hj
    · exact .refl
    · exact (ih hj).tail (hu.includes hs hl hb ht)

theorem reachable (hs : c.Settled) (hu : c.IsUsage u) : c.Reachable u.place := by
  induction hu with
  | root hi _ => exact ⟨_, hi, .refl⟩
  | step hu hl hb ht _ _ ih =>
    obtain ⟨r, hr, hpath⟩ := ih
    exact ⟨r, hr, hpath.tail (hu.includes hs hl hb ht)⟩

/-- A usage path can be cut off at each of its nodes. -/
theorem exists_of_mem_places (hu : c.IsUsage u) {j : Nat} (hj : j ∈ u.places) :
    ∃ v, c.IsUsage v ∧ v.place = j := by
  induction hu with
  | root hi hn =>
    rw [List.mem_singleton.mp hj]
    exact ⟨_, .root hi hn, rfl⟩
  | step hu hl hb ht hp hn ih =>
    rcases List.mem_cons.mp hj with rfl | hj
    · exact ⟨_, .step hu hl hb ht hp hn, rfl⟩
    · exact ih hj

/-- The end of a path and one more inclusion: a longer path, or a link back onto the path. -/
theorem step_or_back (hc : c.Closed) (hu : c.IsUsage u) {j : Nat} (h : c.Includes u.place j) :
    (∃ v, c.IsUsage v ∧ v.place = j ∧ v.places = j :: u.places) ∨
      ∃ (k : Nat) (l : Link), u.node.links[k]? = some l ∧ l.binding = .inclusion ∧
        c.graph.lookup? l.target = some j ∧ j ∈ u.places := by
  obtain ⟨k, l, hl, hb, ht⟩ := hu.exists_link h
  by_cases hj : j ∈ u.places
  · exact .inr ⟨k, l, hl, hb, ht, hj⟩
  · obtain ⟨n, hn⟩ : ∃ n, c.graph.nodes[j]? = some n := ⟨_, List.getElem?_eq_getElem (hc _ _ ht)⟩
    exact .inl ⟨_, .step hu hl hb ht hj hn, rfl, rfl⟩

end IsUsage

/-- Inclusions lead from a root to the nodes at which usage paths end, and to no other ones. -/
theorem reachable_iff (hc : c.Closed) (hs : c.Settled) {i : Nat} :
    c.Reachable i ↔ ∃ u, c.IsUsage u ∧ u.place = i := by
  constructor
  · rintro ⟨r, hr, hpath⟩
    induction hpath with
    | refl =>
      obtain ⟨n, hn⟩ := getElem?_of_mem_roots hr
      exact ⟨_, .root hr hn, rfl⟩
    | tail _ hinc ih =>
      obtain ⟨u, hu, rfl⟩ := ih
      -- A node that is on the path already has a shorter path.
      rcases hu.step_or_back hc hinc with ⟨v, hv, hplace, -⟩ | ⟨_, _, _, _, _, hj⟩
      · exact ⟨v, hv, hplace⟩
      · exact hu.exists_of_mem_places hj
  · rintro ⟨u, hu, rfl⟩
    exact hu.reachable hs

theorem mem_entered (hc : c.Closed) (hs : c.Settled) {i : Nat} :
    i ∈ c.walk.entered ↔ c.Reachable i := by
  simp only [entered_walk hc, List.mem_map, mem_usages, reachable_iff hc hs]

/-! ### Cycles -/

/-- Inclusions that lead back onto a usage path have a link that does so. The induction follows them
from the end of the path, which grows with every node that is not on it yet. -/
theorem exists_back_link (hc : c.Closed) {i j : Nat} (h : TransGen c.Includes i j) {u : Usage}
    (hu : c.IsUsage u) (hi : u.place = i) (hj : j ∈ u.places) :
    ∃ (v : Usage) (k : Nat) (l : Link) (m : Nat), c.IsUsage v ∧ v.node.links[k]? = some l ∧
      l.binding = .inclusion ∧ c.graph.lookup? l.target = some m ∧ m ∈ v.places := by
  induction h using TransGen.head_induction_on generalizing u with
  | single hinc =>
    subst hi
    obtain ⟨k, l, hl, hb, ht⟩ := hu.exists_link hinc
    exact ⟨u, k, l, j, hu, hl, hb, ht, hj⟩
  | head hinc _ ih =>
    subst hi
    rcases hu.step_or_back hc hinc with ⟨v, hv, hplace, hplaces⟩ | ⟨k, l, hl, hb, ht, hm⟩
    · refine ih hv hplace ?_
      rw [hplaces]
      exact List.mem_cons_of_mem _ hj
    · exact ⟨u, k, l, _, hu, hl, hb, ht, hm⟩

/-- The walk reports a cycle exactly if one can be reached from a root. -/
theorem cyclicInclusion_mem_walk (hc : c.Closed) (hs : c.Settled) :
    (∃ d ∈ c.walk.diagnostics, ∃ r, d.issue = .cyclicInclusion r) ↔
      ∃ x, c.Reachable x ∧ TransGen c.Includes x x := by
  rw [cyclicInclusion_mem_walk_iff hc]
  constructor
  · rintro ⟨u, k, l, j, hu, hl, hb, ht, hj⟩
    obtain ⟨v, hv, rfl⟩ := hu.exists_of_mem_places hj
    exact ⟨v.place, hv.reachable hs, TransGen.tail' (hu.reaches hs hj) (hu.includes hs hl hb ht)⟩
  · rintro ⟨x, hx, hcycle⟩
    obtain ⟨u, hu, rfl⟩ := (reachable_iff hc hs).mp hx
    exact exists_back_link hc hcycle hu rfl u.place_mem_places

/-- A container that another node includes is reported exactly if no root leads to it. -/
theorem cyclicInclusion_mem_unreachable (hc : c.Closed) (hs : c.Settled) :
    (∃ d ∈ c.unreachable c.walk.entered, ∃ r, d.issue = .cyclicInclusion r) ↔
      ∃ i, c.IsContainer i ∧ (∃ k, k ≠ i ∧ c.Includes k i) ∧ ¬ c.Reachable i := by
  constructor
  · rintro ⟨d, hd, -⟩
    obtain ⟨n, i, hp, hin, hout, -⟩ := mem_unreachable.mp hd
    obtain ⟨hn, hk, -⟩ := mem_containers.mp hp
    exact ⟨i, ⟨n, hn, hk⟩, mem_included.mp hin, fun h => hout ((mem_entered hc hs).mpr h)⟩
  · rintro ⟨i, ⟨n, hn, hk⟩, hin, hout⟩
    obtain ⟨k, hki, hinc⟩ := hin
    have hp := mem_containers.mpr ⟨hn, hk, hinc.free hs⟩
    exact ⟨_, mem_unreachable.mpr ⟨n, i, hp, mem_included.mpr ⟨k, hki, hinc⟩,
      fun h => hout ((mem_entered hc hs).mp h), rfl⟩, _, rfl⟩

/-- Without cycles, going back along inclusions ends, and it ends at a root if
only containers include. -/
theorem reachable_of_acyclic (hc : c.Closed)
    (honly : ∀ i j, c.Includes i j → c.IsContainer i) (hacyclic : ∀ x, ¬ TransGen c.Includes x x)
    {i : Nat} (hi : c.IsContainer i) (hfree : c.graph.isAbsorbed i = false) : c.Reachable i := by
  have hwf : WellFounded fun a b : Fin c.graph.size => TransGen c.Includes a b := by
    have : IsTrans (Fin c.graph.size) fun a b => TransGen c.Includes a b :=
      ⟨fun _ _ _ h h' => h.trans h'⟩
    have : Std.Irrefl fun a b : Fin c.graph.size => TransGen c.Includes a b := ⟨fun a => hacyclic a⟩
    exact Finite.wellFounded_of_trans_of_irrefl _
  have hlt : i < c.graph.size := by
    obtain ⟨n, hn, -⟩ := hi
    exact (List.getElem?_eq_some_iff.mp hn).1
  -- The induction goes back from a container to one that includes it.
  suffices ∀ a : Fin c.graph.size, c.IsContainer a → c.graph.isAbsorbed a = false →
    c.Reachable a from
    this ⟨i, hlt⟩ hi hfree
  intro a
  induction a using hwf.induction with
  | _ a ih =>
    intro ha hfree
    by_cases hroot : (a : Nat) ∈ c.roots
    · exact ⟨a, hroot, .refl⟩
    · obtain ⟨k, -, hk⟩ := exists_includes_of_not_mem_roots ha hfree hroot
      obtain ⟨r, hr, hpath⟩ := ih ⟨k, (hk.lt_size hc).1⟩ (.single hk) (honly k a hk) hk.1
      exact ⟨r, hr, hpath.tail hk⟩

/-- If only containers include others, every cycle is reached from a root or
keeps a container from it. -/
theorem exists_cycle_iff (hc : c.Closed) (hs : c.Settled)
    (honly : ∀ i j, c.Includes i j → c.IsContainer i) :
    ((∃ x, c.Reachable x ∧ TransGen c.Includes x x) ∨
      ∃ i, c.IsContainer i ∧ (∃ k, k ≠ i ∧ c.Includes k i) ∧ ¬ c.Reachable i) ↔
      ∃ x, TransGen c.Includes x x := by
  constructor
  · rintro (⟨x, -, hx⟩ | ⟨i, hi, ⟨k, -, hk⟩, hout⟩)
    · exact ⟨x, hx⟩
    · by_contra hno
      refine hout ?_
      exact reachable_of_acyclic hc honly (fun x hx => hno ⟨x, hx⟩) hi (hk.free hs)
  · rintro ⟨x, hx⟩
    by_cases hreach : c.Reachable x
    · exact .inl ⟨x, hreach, hx⟩
    · obtain ⟨j, hxj, -⟩ := TransGen.head'_iff.mp hx
      have hcontainer : c.IsContainer x := honly x j hxj
      have hroot : x ∉ c.roots := fun h => hreach ⟨x, h, .refl⟩
      exact .inr ⟨x, hcontainer, exists_includes_of_not_mem_roots hcontainer hxj.1 hroot, hreach⟩

end Corpus

namespace Composition

/-- A cyclic inclusion is reported exactly if a cycle of inclusions can be reached from a root, or
if a container that another node includes cannot. Where only containers include others, that is to
say that there is a cycle. -/
theorem cyclicInclusion_reported_iff (fragments : List Fragment) (nodes : List Node) :
    let c := Corpus.ofParts fragments nodes
    let reported := ∃ d ∈ (ofParts fragments nodes).diagnostics, ∃ r, d.issue = .cyclicInclusion r
    (reported ↔ (∃ x, c.Reachable x ∧ TransGen c.Includes x x) ∨
      ∃ i, c.IsContainer i ∧ (∃ k, k ≠ i ∧ c.Includes k i) ∧ ¬ c.Reachable i) ∧
    ((∀ i j, c.Includes i j → c.IsContainer i) → (reported ↔ ∃ x, TransGen c.Includes x x)) := by
  intro c reported
  have hc : c.Closed := Corpus.closed_ofParts fragments nodes
  have hs : c.Settled := Corpus.settled_ofParts fragments nodes
  have hiff : reported ↔ (∃ d ∈ c.walk.diagnostics, ∃ r, d.issue = .cyclicInclusion r) ∨
      ∃ d ∈ c.unreachable c.walk.entered, ∃ r, d.issue = .cyclicInclusion r := by
    constructor
    · rintro ⟨d, hd, r, hr⟩
      rcases mem_findings.mp (mem_diagnostics_ofParts.mp hd) with hd | ⟨f, -, hd⟩ | hd | hd
      · obtain ⟨_, h⟩ := (Graph.progress_absorbAll nodes).found d hd
        rw [hr] at h
        cases h
      · obtain ⟨_, h⟩ := issue_of_mem_stray hd
        rw [hr] at h
        cases h
      · exact .inl ⟨d, hd, r, hr⟩
      · exact .inr ⟨d, hd, r, hr⟩
    · rintro (⟨d, hd, hr⟩ | ⟨d, hd, hr⟩)
      · exact ⟨d, mem_diagnostics_ofParts.mpr (mem_findings.mpr (.inr (.inr (.inl hd)))), hr⟩
      · exact ⟨d, mem_diagnostics_ofParts.mpr (mem_findings.mpr (.inr (.inr (.inr hd)))), hr⟩
  rw [Corpus.cyclicInclusion_mem_walk hc hs, Corpus.cyclicInclusion_mem_unreachable hc hs] at hiff
  exact ⟨hiff, fun honly => hiff.trans (Corpus.exists_cycle_iff hc hs honly)⟩

/-- Two routers that include each other have no root above them. -/
theorem cyclicInclusion_reported_pair :
    let router (name other : String) : Node := {
      unit := "a.py", module := "a", name, kind := .router, location := ⟨"a.py", 1⟩
      links := [⟨.inUnit "a.py" "a" other, other, .inclusion, "", {}, ⟨"a.py", 2⟩⟩] }
    let nodes := [router "v" "w", router "w" "v"]
    let c := Corpus.ofParts [] nodes
    (∀ i j, c.Includes i j → c.IsContainer i) ∧
      ∃ d ∈ (ofParts [] nodes).diagnostics, ∃ r, d.issue = .cyclicInclusion r := by
  intro router nodes c
  have hkind : ∀ n ∈ c.graph.nodes, n.kind.isContainer = true := by decide +kernel
  have honly : ∀ i j, c.Includes i j → c.IsContainer i := by
    rintro i j ⟨-, n, hn, -⟩
    exact ⟨n, hn, hkind n (List.mem_of_getElem? hn)⟩
  have hfirst : c.Includes 0 1 :=
    ⟨rfl, router "v" "w", rfl, _, List.mem_singleton_self _, rfl, by decide +kernel⟩
  have hsecond : c.Includes 1 0 :=
    ⟨rfl, router "w" "v", rfl, _, List.mem_singleton_self _, rfl, by decide +kernel⟩
  exact ⟨honly, ((cyclicInclusion_reported_iff [] nodes).2 honly).mpr
    ⟨0, .head hfirst (.single hsecond)⟩⟩

end Composition

end EndpointCensus
