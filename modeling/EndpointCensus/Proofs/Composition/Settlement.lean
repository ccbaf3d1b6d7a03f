import EndpointCensus.Composition.Graph

/-! Stand-ins once they are resolved. Every absorption leads to a node that was not
absorbed by then, so following stand-ins ends, and a lookup never answers with a stand-in
whose links were taken over. -/

namespace EndpointCensus.Graph

theorem mem_places {g : Graph} {n : Node} {i : Nat} : (n, i) ∈ g.places ↔ g.nodes[i]? = some n := by
  rw [places, List.mem_zipIdx_iff_getElem?]

theorem lt_size_of_mem_places {g : Graph} {c : Node × Nat} (h : c ∈ g.places) : c.2 < g.size :=
  (List.getElem?_eq_some_iff.mp (mem_places.mp h)).1

/-! ### Named nodes -/

theorem mem_of_pick? {r : Reference} {candidates : List (Node × Nat)} {i : Nat}
    (h : pick? r candidates = some i) : ∃ c ∈ candidates, c.2 = i := by
  simp only [pick?, Option.map_eq_some_iff] at h
  obtain ⟨c, hc, rfl⟩ := h
  refine ⟨c, ?_, rfl⟩
  rcases Option.or_eq_some_iff.mp hc with hc | ⟨-, hc⟩
  · have hc := List.mem_of_head? hc
    split at hc
    · exact (List.mem_filter.mp (List.mem_filter.mp hc).1).1
    · exact absurd hc List.not_mem_nil
  · exact (List.mem_filter.mp (List.mem_of_head? hc)).1

theorem inUnit?_lt {g : Graph} {r : Reference} {unit : String} {i : Nat}
    (h : g.inUnit? r unit = some i) : i < g.size := by
  simp only [inUnit?] at h
  split at h
  · obtain ⟨c, hc, rfl⟩ := mem_of_pick? h
    exact lt_size_of_mem_places (List.mem_filter.mp hc).1
  · obtain ⟨c, hc, rfl⟩ := Option.map_eq_some_iff.mp h
    exact lt_size_of_mem_places (List.mem_filter.mp (List.mem_of_find?_eq_some hc)).1

theorem inModule?_lt {g : Graph} {r : Reference} {i : Nat} (h : g.inModule? r = some i) :
    i < g.size := by
  have hpick : ∀ m, pick? r (g.ofModule m) = some i → i < g.size := by
    intro m hm
    obtain ⟨c, hc, rfl⟩ := mem_of_pick? hm
    exact lt_size_of_mem_places (List.mem_filter.mp hc).1
  unfold inModule? at h
  split at h
  · contradiction
  · rcases Option.or_eq_some_iff.mp h with h | ⟨-, h⟩
    · exact hpick _ h
    · obtain ⟨m, -, hm⟩ := List.exists_of_findSome?_eq_some h
      exact hpick m hm

theorem named?_lt {g : Graph} {r : Reference} {i : Nat} (h : g.named? r = some i) : i < g.size := by
  rcases Option.or_eq_some_iff.mp h with h | ⟨-, h⟩
  · obtain ⟨u, -, hu⟩ := Option.bind_eq_some_iff.mp h
    exact inUnit?_lt hu
  · exact inModule?_lt h

theorem hasKind_iff {g : Graph} {k : NodeKind} {i : Nat} :
    g.hasKind k i = true ↔ ∃ n, g.nodes[i]? = some n ∧ n.kind = k := by
  rw [hasKind]
  rcases g.nodes[i]? with _ | n <;> simp

/-- The only view of a name is a view. -/
theorem exists_view_of_unique? {g : Graph} {r : Reference} {i : Nat} (h : g.unique? r = some i) :
    ∃ n, g.nodes[i]? = some n ∧ n.kind.isContainer = false := by
  unfold unique? at h
  split at h
  · contradiction
  · split at h
    next c hc =>
      obtain rfl := Option.some.inj h
      obtain ⟨hplace, hview⟩ := List.mem_filter.mp (hc ▸ List.mem_singleton_self c)
      exact ⟨c.1, mem_places.mp hplace, by simpa using (Bool.and_eq_true_iff.mp hview).1⟩
    next => contradiction

/-! ### Following stand-ins -/

/-- Absorptions, the latest first: each one led to a node that was not absorbed. -/
def Forward : List (Nat × Nat) → Prop
  | [] => True
  | (i, j) :: rest => rest.lookup i = none ∧ rest.lookup j = none ∧ j ≠ i ∧ Forward rest

theorem lookup_cons_of_ne {l : List (Nat × Nat)} {i j x : Nat} (h : x ≠ i) :
    ((i, j) :: l).lookup x = l.lookup x := by
  rw [List.lookup_cons, beq_false_of_ne h]

theorem mem_of_lookup {l : List (Nat × Nat)} {i j : Nat} (h : l.lookup i = some j) :
    (i, j) ∈ l := by
  obtain ⟨before, after, rfl, -⟩ := List.lookup_eq_some_iff.mp h
  simp

theorem settleFrom_of_free {g : Graph} {i : Nat} (h : g.absorbed.lookup i = none) (n : Nat) :
    g.settleFrom n i = i := by
  cases n with
  | zero => rfl
  | succ n => simp [settleFrom, h]

/-- Once the way has ended, more fuel changes nothing. -/
theorem settleFrom_add {g : Graph} {n i : Nat} (h : g.absorbed.lookup (g.settleFrom n i) = none)
    (m : Nat) : g.settleFrom (n + m) i = g.settleFrom n i := by
  induction n generalizing i with
  | zero => exact settleFrom_of_free h (0 + m)
  | succ n ih =>
    rw [Nat.succ_add]
    simp only [settleFrom] at h ⊢
    split
    next j hj =>
      rw [hj] at h
      exact ih h
    next => rfl

/-- One more absorption lengthens a way by one step, and only one that ended at
the node absorbed. -/
theorem settleFrom_cons (g g' : Graph) {i j : Nat} (hg : g'.absorbed = (i, j) :: g.absorbed)
    (hi : g.absorbed.lookup i = none) (hj : g.absorbed.lookup j = none) (hij : j ≠ i) (n x : Nat)
    (h : g.absorbed.lookup (g.settleFrom n x) = none) :
    g'.settleFrom (n + 1) x = if g.settleFrom n x = i then j else g.settleFrom n x := by
  have hjfree : g'.absorbed.lookup j = none := by
    rw [hg, lookup_cons_of_ne hij, hj]
  have hne : ∀ y, y ≠ i → g'.absorbed.lookup y = g.absorbed.lookup y := by
    intro y hy
    rw [hg, lookup_cons_of_ne hy]
  by_cases hx : x = i
  · subst hx
    rw [settleFrom_of_free hi, if_pos rfl]
    simp [settleFrom, hg, settleFrom_of_free hjfree]
  · induction n generalizing x with
    | zero =>
      have hx' : g.absorbed.lookup x = none := h
      simp [settleFrom, hne x hx, hx', hx]
    | succ n ih =>
      rw [settleFrom, hne x hx]
      rw [settleFrom] at h ⊢
      rcases hl : g.absorbed.lookup x with _ | y
      · simp [hx]
      · simp only [hl] at h ⊢
        by_cases hy : y = i
        · subst hy
          rw [settleFrom_of_free hi, if_pos rfl]
          simp [settleFrom, hg, settleFrom_of_free hjfree]
        · exact ih y h hy

theorem lookup_settleFrom {g : Graph} (h : Forward g.absorbed) (i : Nat) :
    g.absorbed.lookup (g.settleFrom g.absorbed.length i) = none := by
  obtain ⟨nodes, absorbed⟩ := g
  induction absorbed generalizing i with
  | nil => rfl
  | cons p rest ih =>
    obtain ⟨k, j⟩ := p
    obtain ⟨hk, hj, hkj, hrest⟩ := h
    have hend := ih i hrest
    have hstep :=
      settleFrom_cons ⟨nodes, rest⟩ ⟨nodes, (k, j) :: rest⟩ rfl hk hj hkj rest.length i hend
    rw [List.length_cons, hstep]
    split
    next => rw [lookup_cons_of_ne hkj, hj]
    next hne => rw [lookup_cons_of_ne hne, hend]

/-! ### Resolution -/

/-- Where the resolution of stand-ins stands when the places before `k` are done. -/
structure Resolved (g : Graph) (k : Nat) : Prop where
  forward : Forward g.absorbed
  length_le : g.absorbed.length ≤ k
  source_lt : ∀ p ∈ g.absorbed, p.1 < k
  target_lt : ∀ p ∈ g.absorbed, p.2 < g.size

theorem lookup_eq_none_of_forall_ne {l : List (Nat × Nat)} {i : Nat} (h : ∀ p ∈ l, p.1 ≠ i) :
    l.lookup i = none :=
  List.lookup_eq_none_iff.mpr fun p hp => by simpa using (h p hp).symm

namespace Resolved

variable {g : Graph} {k : Nat}

theorem settle_free (h : g.Resolved k) (hk : k ≤ g.size) (i : Nat) :
    g.absorbed.lookup (g.settle i) = none := by
  have hend := lookup_settleFrom h.forward i
  obtain ⟨m, hm⟩ := Nat.exists_eq_add_of_le (Nat.le_trans h.length_le hk)
  rw [settle, hm, settleFrom_add hend]
  exact hend

theorem settleFrom_lt (h : g.Resolved k) (n : Nat) {i : Nat} (hi : i < g.size) :
    g.settleFrom n i < g.size := by
  induction n generalizing i with
  | zero => exact hi
  | succ n ih =>
    rw [settleFrom]
    split
    next j hj => exact ih (h.target_lt (i, j) (mem_of_lookup hj))
    next => exact hi

/-- A lookup answers with a place of the graph that no stand-in holds any more. -/
theorem lookup?_spec (h : g.Resolved k) (hk : k ≤ g.size) {r : Reference} {i : Nat}
    (hr : g.lookup? r = some i) : i < g.size ∧ g.absorbed.lookup i = none := by
  obtain ⟨j, hj, rfl⟩ := Option.map_eq_some_iff.mp hr
  exact ⟨h.settleFrom_lt _ (named?_lt hj), h.settle_free hk j⟩

end Resolved

/-! ### Absorption -/

/-- The nodes of the second graph are those of the first but for their links. -/
def SameHeads (g g' : Graph) : Prop :=
  ∀ i : Nat, ∃ links, g'.nodes[i]? = (g.nodes[i]?).map fun n : Node => { n with links := links }

theorem SameHeads.refl (g : Graph) : SameHeads g g := by
  intro i
  refine ⟨((g.nodes[i]?).map Node.links).getD [], ?_⟩
  rcases g.nodes[i]? with _ | n <;> rfl

theorem SameHeads.trans {g₁ g₂ g₃ : Graph} (h : SameHeads g₁ g₂) (h' : SameHeads g₂ g₃) :
    SameHeads g₁ g₃ := by
  intro i
  obtain ⟨links, h⟩ := h i
  obtain ⟨links', h'⟩ := h' i
  refine ⟨links', ?_⟩
  rw [h', h]
  rcases g₁.nodes[i]? with _ | n <;> rfl

@[simp] theorem size_absorb (g : Graph) (i j : Nat) : (g.absorb i j).size = g.size := by
  simp [absorb, size]

@[simp] theorem absorbed_absorb (g : Graph) (i j : Nat) :
    (g.absorb i j).absorbed = (i, j) :: g.absorbed := rfl

theorem sameHeads_absorb (g : Graph) (i j : Nat) : SameHeads g (g.absorb i j) := by
  intro k
  simp only [absorb, List.getElem?_modify]
  rcases g.nodes[k]? with _ | n
  · exact ⟨[], by simp⟩
  · by_cases hi : i = k <;> by_cases hj : j = k <;> simp [hi, hj]
    exact ⟨n.links, rfl⟩

/-- A stand-in is absorbed by the node that its reference means, or it is reported; no other
node changes the graph. -/
theorem absorbAt_cases (g : Graph) (found : List Diagnostic) (i : Nat) :
    (∃ ds : List Diagnostic, (∀ d ∈ ds, ∃ r, d.issue = .unresolvedReference r) ∧
      (∀ n r, g.nodes[i]? = some n → n.stands = some r →
        ⟨n.location, .unresolvedReference r.message⟩ ∈ ds) ∧
      absorbAt (g, found) i = (g, found ++ ds)) ∨
    ∃ n r j, g.nodes[i]? = some n ∧ n.stands = some r ∧ g.lookup? r = some j ∧ j ≠ i ∧
      absorbAt (g, found) i = (g.absorb i j, found) := by
  unfold absorbAt
  rcases hn : g.nodes[i]? with _ | n
  · exact .inl ⟨[], by simp, by simp, by simp [hn]⟩
  · rcases hr : n.stands with _ | r
    · refine .inl ⟨[], by simp, ?_, by simp [hn, hr]⟩
      rintro _ r ⟨⟩ hr'
      rw [hr] at hr'
      contradiction
    · rcases hj : (g.lookup? r).filter (· != i) with _ | j
      · refine .inl ⟨[⟨n.location, .unresolvedReference r.message⟩], by simp, ?_,
          by simp [hn, hr, hj]⟩
        rintro _ r' ⟨⟩ hr'
        obtain rfl : r = r' := Option.some.inj (hr.symm.trans hr')
        exact List.mem_singleton_self _
      · obtain ⟨hj', hne⟩ := Option.filter_eq_some_iff.mp hj
        exact .inr ⟨n, r, j, rfl, hr, hj', by simpa using hne, by simp [hn, hr, hj]⟩

/-- The resolution of the stand-ins of `g₀` before place `k`. -/
structure Progress (g₀ : Graph) (k : Nat) (acc : Graph × List Diagnostic) : Prop where
  resolved : acc.1.Resolved k
  heads : SameHeads g₀ acc.1
  size_eq : acc.1.size = g₀.size
  stands : ∀ p ∈ acc.1.absorbed, ∃ n, g₀.nodes[p.1]? = some n ∧ n.stands.isSome
  found : ∀ d ∈ acc.2, ∃ r, d.issue = .unresolvedReference r

theorem Resolved.absorb {g : Graph} {k j : Nat} (h : g.Resolved k) (hj : j < g.size)
    (hfree : g.absorbed.lookup j = none) (hjk : j ≠ k) : (g.absorb k j).Resolved (k + 1) where
  forward := by
    refine ⟨lookup_eq_none_of_forall_ne fun p hp => ?_, hfree, hjk, h.forward⟩
    exact Nat.ne_of_lt (h.source_lt p hp)
  length_le := by simpa using h.length_le
  source_lt := by
    rintro p hp
    rcases List.mem_cons.mp hp with rfl | hp
    · exact Nat.lt_succ_self k
    · exact Nat.lt_succ_of_lt (h.source_lt p hp)
  target_lt := by
    rintro p hp
    rw [size_absorb]
    rcases List.mem_cons.mp hp with rfl | hp
    · exact hj
    · exact h.target_lt p hp

theorem Resolved.succ {g : Graph} {k : Nat} (h : g.Resolved k) : g.Resolved (k + 1) where
  forward := h.forward
  length_le := Nat.le_succ_of_le h.length_le
  source_lt p hp := Nat.lt_succ_of_lt (h.source_lt p hp)
  target_lt := h.target_lt

theorem Progress.step {g₀ : Graph} {k : Nat} {acc : Graph × List Diagnostic} (hk : k < g₀.size)
    (h : Progress g₀ k acc) : Progress g₀ (k + 1) (absorbAt acc k) := by
  obtain ⟨g, found⟩ := acc
  obtain ⟨ds, hds, -, heq⟩ | ⟨n, r, j, hn, hr, hj, hjk, heq⟩ := absorbAt_cases g found k
  · rw [heq]
    refine ⟨h.resolved.succ, h.heads, h.size_eq, h.stands, ?_⟩
    intro d hd
    rcases List.mem_append.mp hd with hd | hd
    · exact h.found d hd
    · exact hds d hd
  · have hkg : k ≤ g.size := by
      have hsize : g.size = g₀.size := h.size_eq
      omega
    obtain ⟨hlt, hfree⟩ := h.resolved.lookup?_spec hkg hj
    rw [heq]
    refine ⟨h.resolved.absorb hlt hfree hjk, h.heads.trans (sameHeads_absorb g k j), ?_, ?_,
      h.found⟩
    · rw [size_absorb]
      exact h.size_eq
    · intro p hp
      rcases List.mem_cons.mp hp with rfl | hp
      · obtain ⟨links, hl⟩ := h.heads k
        rw [hn] at hl
        obtain ⟨n₀, hn₀, rfl⟩ := Option.map_eq_some_iff.mp hl.symm
        exact ⟨n₀, hn₀, by rw [Option.isSome_iff_exists]; exact ⟨r, hr⟩⟩
      · exact h.stands p hp

theorem progress_foldl {g : Graph} (hg : g.absorbed = []) (k : Nat) (hk : k ≤ g.size) :
    Progress g k ((List.range k).foldl absorbAt (g, [])) := by
  induction k with
  | zero =>
    refine ⟨⟨?_, ?_, ?_, ?_⟩, SameHeads.refl g, rfl, ?_, ?_⟩ <;> simp [hg, Forward]
  | succ k ih =>
    rw [List.range_succ, List.foldl_append]
    exact Progress.step hk (ih (Nat.le_of_succ_le hk))

/-- After all stand-ins are resolved, nodes differ from those before only in their links. -/
theorem progress_absorbAll (nodes : List Node) :
    Progress (ofNodes nodes) (ofNodes nodes).size (ofNodes nodes).absorbAll :=
  progress_foldl rfl _ (Nat.le_refl _)

variable {nodes : List Node} {g : Graph}

theorem lookup?_absorbAll_lt {r : Reference} {i : Nat}
    (h : (ofNodes nodes).absorbAll.1.lookup? r = some i) :
    i < (ofNodes nodes).absorbAll.1.size := by
  have hp := progress_absorbAll nodes
  exact (hp.resolved.lookup?_spec (Nat.le_of_eq hp.size_eq.symm) h).1

/-- No reference leads to a stand-in that was absorbed. -/
theorem not_isAbsorbed_lookup? {r : Reference} {i : Nat}
    (h : (ofNodes nodes).absorbAll.1.lookup? r = some i) :
    (ofNodes nodes).absorbAll.1.isAbsorbed i = false := by
  have hp := progress_absorbAll nodes
  rw [isAbsorbed, (hp.resolved.lookup?_spec (Nat.le_of_eq hp.size_eq.symm) h).2]
  rfl

end EndpointCensus.Graph
