import EndpointCensus.Proofs.Composition.Findings
import EndpointCensus.Proofs.Composition.Merging
import Mathlib.Logic.Relation

/-! What becomes of links when stand-ins are resolved. An absorption moves the links of a node to
another one, and those of a chain of stand-ins move several times, in whatever order the nodes come.
No link is lost or doubled on the way, absorbed nodes are left without links, and following
stand-ins never comes back. -/

namespace EndpointCensus.Graph

open Relation

/-! ### Links that move -/

/-- Changing one entry of a list exchanges what that entry gives. -/
theorem perm_flatMap_modify {α β : Type} (give : α → List β) (f : α → α) {xs : List α} {i : Nat}
    {x : α} (h : xs[i]? = some x) :
    ((xs.modify i f).flatMap give ++ give x).Perm (xs.flatMap give ++ give (f x)) := by
  induction xs generalizing i with
  | nil => contradiction
  | cons y ys ih =>
    cases i with
    | zero =>
      obtain rfl : y = x := Option.some.inj h
      rw [List.modify_zero_cons, List.flatMap_cons, List.flatMap_cons, List.append_assoc (give y)]
      exact List.perm_append_comm.trans (List.perm_append_comm.append_left (give y))
    | succ i =>
      rw [List.modify_succ_cons, List.flatMap_cons, List.flatMap_cons, List.append_assoc,
        List.append_assoc]
      exact (ih h).append_left (give y)

/-- An absorption keeps all links. -/
theorem perm_links_absorb {g : Graph} {i j : Nat} {n m : Node} (hi : g.nodes[i]? = some n)
    (hj : g.nodes[j]? = some m) (hij : j ≠ i) :
    ((g.absorb i j).nodes.flatMap Node.links).Perm (g.nodes.flatMap Node.links) := by
  have hmoved : (g.nodes.modify j fun k => { k with links := k.links ++ n.links })[i]? =
      some n := by
    simp [hij, hi]
  have hto := perm_flatMap_modify Node.links (fun k => { k with links := k.links ++ n.links }) hj
  have hfrom := perm_flatMap_modify Node.links (fun k => { k with links := [] }) hmoved
  simp only [absorb, hi, Option.map_some, Option.getD_some]
  rw [List.append_nil] at hfrom
  rw [← List.perm_append_right_iff (n.links ++ m.links), ← List.append_assoc]
  exact (hfrom.append_right m.links).trans (hto.trans (List.perm_append_comm.append_left _))

/-- Of the nodes that were absorbed before, an absorption by a free node changes none. -/
theorem nodes_absorb_of_ne (g : Graph) {i j k : Nat} (hi : k ≠ i) (hj : k ≠ j) :
    (g.absorb i j).nodes[k]? = g.nodes[k]? := by
  simp [absorb, hi.symm, hj.symm]

/-- The stand-ins of `g₀` before place `k` are absorbed, without links, or
reported, and no link got lost. -/
structure Settling (g₀ : Graph) (k : Nat) (acc : Graph × List Diagnostic) : Prop where
  links : (acc.1.nodes.flatMap Node.links).Perm (g₀.nodes.flatMap Node.links)
  emptied : ∀ i n, (acc.1.absorbed.lookup i).isSome → acc.1.nodes[i]? = some n → n.links = []
  answered : ∀ i < k, ∀ n r, g₀.nodes[i]? = some n → n.stands = some r →
    (acc.1.absorbed.lookup i).isSome ∨ ⟨n.location, .unresolvedReference r.message⟩ ∈ acc.2

theorem Settling.step {g₀ : Graph} {k : Nat} {acc : Graph × List Diagnostic} (hk : k < g₀.size)
    (hprogress : Progress g₀ k acc) (h : Settling g₀ k acc) :
    Settling g₀ (k + 1) (absorbAt acc k) := by
  obtain ⟨g, found⟩ := acc
  obtain ⟨links, hheads⟩ := hprogress.heads k
  obtain ⟨ds, -, hds, heq⟩ | ⟨n, r, j, hn, hr, hj, hjk, heq⟩ := absorbAt_cases g found k
  · rw [heq]
    refine ⟨h.links, h.emptied, fun i hi m r hm hr => ?_⟩
    rcases Nat.lt_succ_iff_lt_or_eq.mp hi with hi | rfl
    · exact (h.answered i hi m r hm hr).imp_right (List.mem_append_left ds)
    · have hkept : g.nodes[i]? = some { m with links := links } := hheads.trans (by rw [hm]; rfl)
      exact .inr (List.mem_append_right found (hds { m with links := links } r hkept hr))
  · have hsize : g.size = g₀.size := hprogress.size_eq
    obtain ⟨hlt, hfree⟩ := hprogress.resolved.lookup?_spec (hsize ▸ Nat.le_of_lt hk) hj
    obtain ⟨m, hm⟩ : ∃ m, g.nodes[j]? = some m := ⟨g.nodes[j], List.getElem?_eq_getElem hlt⟩
    rw [heq]
    refine ⟨(perm_links_absorb hn hm hjk).trans h.links, fun i m' hi hm' => ?_,
      fun i hi m' r' hm' hr' => ?_⟩
    · by_cases hik : i = k
      · subst hik
        have hleft : (g.absorb i j).nodes[i]? = some { n with links := [] } := by
          simp [absorb, hn, hjk]
        rw [hleft] at hm'
        exact (Option.some.inj hm') ▸ rfl
      · rw [absorbed_absorb, lookup_cons_of_ne hik] at hi
        have hij : i ≠ j := fun hij => by simp [hij, hfree] at hi
        rw [nodes_absorb_of_ne g hik hij] at hm'
        exact h.emptied i m' hi hm'
    · rcases Nat.lt_succ_iff_lt_or_eq.mp hi with hi | rfl
      · rw [absorbed_absorb, lookup_cons_of_ne (Nat.ne_of_lt hi)]
        exact h.answered i hi m' r' hm' hr'
      · exact .inl (by simp)

theorem settling_foldl {g : Graph} (hg : g.absorbed = []) (k : Nat) (hk : k ≤ g.size) :
    Settling g k ((List.range k).foldl absorbAt (g, [])) := by
  induction k with
  | zero => exact ⟨.refl _, by simp [hg], by simp⟩
  | succ k ih =>
    rw [List.range_succ, List.foldl_append]
    exact (ih (Nat.le_of_succ_le hk)).step hk (progress_foldl hg k (Nat.le_of_succ_le hk))

/-! ### Ways along stand-ins -/

/-- The node at the second place took over the links of the stand-in at the first one. -/
def AbsorbedBy (g : Graph) (i j : Nat) : Prop := g.absorbed.lookup i = some j

section
variable {nodes : List Node} {a b x y : Nat} {rest : List (Nat × Nat)}

/-- A step along stand-ins is the latest absorption or an earlier one. -/
theorem AbsorbedBy.cases (h : AbsorbedBy ⟨nodes, (a, b) :: rest⟩ x y) :
    AbsorbedBy ⟨nodes, rest⟩ x y ∨ y = b := by
  by_cases hx : x = a
  · rw [AbsorbedBy, hx, List.lookup_cons_self] at h
    exact .inr (Option.some.inj h).symm
  · rw [AbsorbedBy, lookup_cons_of_ne hx] at h
    exact .inl h

/-- Where the latest absorption leads to, every way ends. -/
theorem not_absorbedBy_last (h : Forward ((a, b) :: rest)) :
    ¬ AbsorbedBy ⟨nodes, (a, b) :: rest⟩ b x := by
  obtain ⟨-, hb, hba, -⟩ := h
  intro hx
  rw [AbsorbedBy, lookup_cons_of_ne hba, hb] at hx
  contradiction

/-- So the latest absorption is the last step of a way, if it is a step at all. -/
theorem transGen_absorbedBy_cases (h : Forward ((a, b) :: rest))
    (hway : TransGen (AbsorbedBy ⟨nodes, (a, b) :: rest⟩) x y) :
    TransGen (AbsorbedBy ⟨nodes, rest⟩) x y ∨ y = b := by
  induction hway with
  | single hstep => exact hstep.cases.imp_left .single
  | tail _ hstep ih =>
    rcases ih with hbefore | rfl
    · exact hstep.cases.imp_left (.tail hbefore)
    · exact absurd hstep (not_absorbedBy_last h)

end

/-- A way along stand-ins does not come back. -/
theorem not_transGen_absorbedBy {g : Graph} (h : Forward g.absorbed) (i : Nat) :
    ¬ TransGen g.AbsorbedBy i i := by
  obtain ⟨nodes, absorbed⟩ := g
  induction absorbed generalizing i with
  | nil =>
    intro hway
    obtain ⟨_, hfirst, -⟩ := TransGen.head'_iff.mp hway
    contradiction
  | cons p rest ih =>
    intro hway
    rcases transGen_absorbedBy_cases h hway with hold | rfl
    · exact ih i h.2.2.2 hold
    · obtain ⟨_, hfirst, -⟩ := TransGen.head'_iff.mp hway
      exact not_absorbedBy_last h hfirst

/-- Following stand-ins is such a way. -/
theorem reflTransGen_settleFrom (g : Graph) (fuel i : Nat) :
    ReflTransGen g.AbsorbedBy i (g.settleFrom fuel i) := by
  induction fuel generalizing i with
  | zero => exact .refl
  | succ fuel ih =>
    rw [settleFrom]
    split
    next j hj => exact .head hj (ih j)
    next => exact .refl

/-! ### Lookups -/

/-- Whatever a lookup answers was settled on. -/
theorem exists_settle_of_lookup {g : Graph} {r : Reference} {i : Nat}
    (h : g.lookup? r = some i ∨ g.lookupView? r = some i) : ∃ j < g.size, g.settle j = i := by
  rcases h with h | h <;> obtain ⟨j, hj, rfl⟩ := Option.map_eq_some_iff.mp h
  · exact ⟨j, named?_lt hj, rfl⟩
  · rcases Option.or_eq_some_iff.mp hj with hj | ⟨-, hj⟩
    · exact ⟨j, named?_lt hj, rfl⟩
    · obtain ⟨n, hn, -⟩ := exists_view_of_unique? hj
      exact ⟨j, (List.getElem?_eq_some_iff.mp hn).1, rfl⟩

/-! ### Distinct nodes -/

/-- Nodes whose units and names are distinct are not merged. -/
theorem nodes_ofNodes {nodes : List Node} (h : (nodes.map Node.key).Nodup) :
    (ofNodes nodes).nodes = nodes := by
  have hinsert : ∀ (acc : List Node) (m : Node), (∀ n ∈ acc, n.key ≠ m.key) →
      insert acc m = acc ++ [m] := by
    intro acc m hfree
    have hnone : (acc.any fun n => n.unit == m.unit && n.name == m.name) = false := by
      refine List.any_eq_false.mpr fun n hn hsame => hfree n hn ?_
      rw [Bool.and_eq_true, beq_iff_eq, beq_iff_eq] at hsame
      exact Prod.ext hsame.1 hsame.2
    simp only [insert, hnone, Bool.false_eq_true, if_false]
  have hfold : ∀ (ms acc : List Node), ((acc ++ ms).map Node.key).Nodup →
      ms.foldl insert acc = acc ++ ms := by
    intro ms
    induction ms with
    | nil => exact fun acc _ => (List.append_nil acc).symm
    | cons m ms ih =>
      intro acc hnodup
      have hfree : ∀ n ∈ acc, n.key ≠ m.key := by
        rw [List.map_append, List.nodup_append] at hnodup
        exact fun n hn => hnodup.2.2 _ (List.mem_map_of_mem hn) _ List.mem_cons_self
      rw [List.append_cons] at hnodup ⊢
      rw [List.foldl_cons, hinsert acc m hfree, ih _ hnodup]
  exact hfold nodes [] h

/-- The resolution of the stand-ins among distinct nodes, whatever they refer to: the links are
the same as before, absorbed nodes have none, no way along stand-ins comes back, so each one
ends at a node that is not absorbed, and lookups only answer with such nodes; a stand-in that is
not absorbed is reported. -/
theorem absorbAll_keeps_links {nodes : List Node} (hdistinct : (nodes.map Node.key).Nodup) :
    let g := (ofNodes nodes).absorbAll.1
    let found := (ofNodes nodes).absorbAll.2
    (g.nodes.flatMap Node.links).Perm (nodes.flatMap Node.links) ∧
    (∀ i n, g.isAbsorbed i = true → g.nodes[i]? = some n → n.links = []) ∧
    (∀ i, ¬ TransGen g.AbsorbedBy i i) ∧
    (∀ i < nodes.length, ReflTransGen g.AbsorbedBy i (g.settle i) ∧
      g.settle i < nodes.length ∧ g.isAbsorbed (g.settle i) = false) ∧
    (∀ r i, g.lookup? r = some i ∨ g.lookupView? r = some i → i < nodes.length ∧
      g.isAbsorbed i = false) ∧
    (∀ i n r, nodes[i]? = some n → n.stands = some r →
      g.isAbsorbed i = true ∨ ⟨n.location, .unresolvedReference r.message⟩ ∈ found) ∧
    ∀ fragments, ∀ d ∈ found, d ∈ (Composition.ofParts fragments nodes).diagnostics := by
  intro g found
  have hprogress := progress_absorbAll nodes
  have hsettling : Settling (ofNodes nodes) (ofNodes nodes).size (ofNodes nodes).absorbAll :=
    settling_foldl rfl _ (Nat.le_refl _)
  have hnodes := nodes_ofNodes hdistinct
  have hlength : (ofNodes nodes).size = nodes.length := by rw [size, hnodes]
  have hsize : g.size = nodes.length := hprogress.size_eq.trans hlength
  have hsettled : ∀ i < nodes.length, g.settle i < nodes.length ∧
      g.isAbsorbed (g.settle i) = false := by
    intro i hi
    refine ⟨hsize ▸ hprogress.resolved.settleFrom_lt g.size (hsize.symm ▸ hi), ?_⟩
    rw [isAbsorbed, hprogress.resolved.settle_free (Nat.le_of_eq hprogress.size_eq.symm) i]
    rfl
  refine ⟨?_, ?_, ?_, fun i hi => ⟨reflTransGen_settleFrom g _ i, hsettled i hi⟩, ?_, ?_, ?_⟩
  · have hlinks := hsettling.links
    rwa [hnodes] at hlinks
  · exact hsettling.emptied
  · exact not_transGen_absorbedBy hprogress.resolved.forward
  · intro r i h
    obtain ⟨j, hj, rfl⟩ := exists_settle_of_lookup h
    exact hsettled j (hsize ▸ hj)
  · intro i n r hn hr
    have hi : i < (ofNodes nodes).size := hlength ▸ (List.getElem?_eq_some_iff.mp hn).1
    rw [← hnodes] at hn
    exact hsettling.answered i hi n r hn hr
  · exact fun fragments d hd =>
      Composition.mem_diagnostics_ofParts.mpr (Composition.mem_findings.mpr (.inl hd))

/-- A chain whose links move twice, two stand-ins for each other, one for
itself, and one for nothing. -/
theorem absorbAll_keeps_links_chain :
    let node (name : String) (stands : Option Reference) (links : List Link) : Node :=
      { unit := "a.py", module := "a", name, kind := .router, stands, links, location := ⟨"a.py", 1⟩ }
    let here (name : String) : Reference := .inUnit "a.py" "a" name
    let link (name : String) : Link := ⟨here name, name, .inclusion, "", {}, ⟨"a.py", 2⟩⟩
    let nodes := [node "u" (here "v") [link "p"], node "v" (here "w") [link "q"], node "w" none [],
      node "x" (here "y") [link "r"], node "y" (here "x") [], node "z" (here "z") [link "s"],
      node "o" (some (.external "b" "o")) []]
    let resolved := (ofNodes nodes).absorbAll
    (nodes.map Node.key).Nodup ∧ resolved.1.absorbed = [(3, 4), (1, 2), (0, 1)] ∧
      resolved.1.nodes.map Node.links =
        [[], [], [link "q", link "p"], [], [link "r"], [link "s"], []] ∧
      resolved.2.length = 3 ∧ ∀ i, ¬ TransGen resolved.1.AbsorbedBy i i := by
  intro node here link nodes resolved
  have hdistinct : (nodes.map Node.key).Nodup := by decide +kernel
  obtain ⟨-, -, hacyclic, -⟩ := absorbAll_keeps_links hdistinct
  exact ⟨hdistinct, by decide +kernel, by decide +kernel, by decide +kernel, hacyclic⟩

end EndpointCensus.Graph
