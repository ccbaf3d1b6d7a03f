import EndpointCensus.Proofs.Composition.Batches

/-! The findings of a composition. They come from stand-ins without a target, from fragments whose
node is not found, from the links that a walk stops at, and from the containers that it never
enters. All of them are reported, since only repetitions are left out. -/

namespace EndpointCensus

namespace Corpus

variable {c : Corpus}

/-! ### Findings of a walk -/

/-- A binding reports nothing but a class that is not found, at the link. -/
theorem eq_of_mem_diagnostics_bind {f : Frame} {l : Link} {d : Diagnostic}
    (h : d ∈ (c.bind f l).diagnostics) :
    d = ⟨l.location, .unresolvedReference l.target.message⟩ := by
  have hclass : ∀ endpoints, d ∈ (c.bindClass f l endpoints).diagnostics →
      d = ⟨l.location, .unresolvedReference l.target.message⟩ := by
    intro endpoints hd
    unfold bindClass at hd
    split at hd
    · split at hd
      · exact absurd hd List.not_mem_nil
      · exact List.mem_singleton.mp hd
    · exact List.mem_singleton.mp hd
  unfold bind at h
  split at h
  · exact absurd h List.not_mem_nil
  · exact absurd h List.not_mem_nil
  · exact hclass _ h
  · exact hclass _ h

/-- What a walk reports, with the link that it stops at. -/
theorem mem_diagnostics_walk (hc : c.Closed) {d : Diagnostic} :
    d ∈ c.walk.diagnostics ↔ ∃ u k l, c.IsStop (.link u k l) ∧
    d ∈ (c.outcome (.link u k l)).diagnostics := by
  rw [walk_eq_concat hc, Walk.diagnostics_concat, List.flatMap_map, List.mem_flatMap]
  simp only [mem_stops]
  constructor
  · rintro ⟨s, hs, hd⟩
    cases s with
    | node u => exact absurd hd List.not_mem_nil
    | link u k l => exact ⟨u, k, l, hs, hd⟩
  · rintro ⟨u, k, l, hs, hd⟩
    exact ⟨_, hs, hd⟩

/-- An inclusion that is not walked into is reported at its link. -/
theorem mem_diagnostics_walk_of_inclusion (hc : c.Closed) {u : Usage} {k : Nat} {l : Link}
    (hu : c.IsUsage u) (hl : u.node.links[k]? = some l) (hb : l.binding = .inclusion) :
    (∀ j, c.graph.lookup? l.target = some j → j ∈ u.places →
      ⟨l.location, .cyclicInclusion l.target.message⟩ ∈ c.walk.diagnostics) ∧
    (c.graph.lookup? l.target = none →
      ⟨l.location, .unresolvedReference l.target.message⟩ ∈ c.walk.diagnostics) := by
  constructor
  · intro j ht hj
    have hnext : c.next? u l = none := by simp [next?, hb, ht, hj]
    exact (mem_diagnostics_walk hc).mpr ⟨u, k, l, ⟨hu, hl, hnext⟩, by simp [outcome, hb, ht]⟩
  · intro ht
    have hnext : c.next? u l = none := by simp [next?, hb, ht]
    exact (mem_diagnostics_walk hc).mpr ⟨u, k, l, ⟨hu, hl, hnext⟩, by simp [outcome, hb, ht]⟩

/-- A walk reports a cycle only where a link leads back onto its own path. -/
theorem cyclicInclusion_mem_walk_iff (hc : c.Closed) :
    (∃ d ∈ c.walk.diagnostics, ∃ r, d.issue = .cyclicInclusion r) ↔
      ∃ (u : Usage) (k : Nat) (l : Link) (j : Nat), c.IsUsage u ∧ u.node.links[k]? = some l ∧
        l.binding = .inclusion ∧ c.graph.lookup? l.target = some j ∧ j ∈ u.places := by
  constructor
  · rintro ⟨d, hd, r, hr⟩
    obtain ⟨u, k, l, ⟨hu, hl, hnext⟩, hd⟩ := (mem_diagnostics_walk hc).mp hd
    by_cases hb : l.binding = .inclusion
    · rcases ht : c.graph.lookup? l.target with _ | j
      · simp only [outcome, hb, ht, if_true, Walk.diagnostics_report, List.mem_singleton] at hd
        rw [hd] at hr
        cases hr
      · exact ⟨u, k, l, j, hu, hl, hb, ht, next?_eq_none hc hnext hb ht⟩
    · simp only [outcome, hb, if_false] at hd
      rw [eq_of_mem_diagnostics_bind hd] at hr
      cases hr
  · rintro ⟨u, k, l, j, hu, hl, hb, ht, hj⟩
    exact ⟨_, (mem_diagnostics_walk_of_inclusion hc hu hl hb).1 j ht hj, l.target.message, rfl⟩

theorem category_walk (hc : c.Closed) {d : Diagnostic} (hd : d ∈ c.walk.diagnostics) :
    d.issue.category = .composition := by
  obtain ⟨u, k, l, -, hd⟩ := (mem_diagnostics_walk hc).mp hd
  by_cases hb : l.binding = .inclusion
  · rcases ht : c.graph.lookup? l.target with _ | j <;>
      simp only [outcome, hb, ht, if_true, Walk.diagnostics_report, List.mem_singleton] at hd <;>
      rw [hd] <;> rfl
  · simp only [outcome, hb, if_false] at hd
    rw [eq_of_mem_diagnostics_bind hd]
    rfl

/-! ### Containers that are not entered -/

theorem mem_containers {n : Node} {i : Nat} :
    (n, i) ∈ c.containers ↔ c.graph.nodes[i]? = some n ∧ n.kind.isContainer = true ∧
      c.graph.isAbsorbed i = false := by
  rw [containers, List.mem_filter, Graph.mem_places]
  simp

theorem mem_unreachable {entered : List Nat} {d : Diagnostic} :
    d ∈ c.unreachable entered ↔ ∃ n i, (n, i) ∈ c.containers ∧ i ∈ c.included ∧ i ∉ entered ∧
      d = ⟨n.location, .cyclicInclusion (Reference.external n.module n.name).message⟩ := by
  rw [unreachable, List.mem_map]
  constructor
  · rintro ⟨⟨n, i⟩, hp, rfl⟩
    obtain ⟨hp, hin⟩ := List.mem_filter.mp hp
    simp only [Bool.and_eq_true, List.contains_eq_mem, decide_eq_true_eq, Bool.not_eq_true',
      decide_eq_false_iff_not] at hin
    exact ⟨n, i, hp, hin.1, hin.2, rfl⟩
  · rintro ⟨n, i, hp, hin, hout, rfl⟩
    exact ⟨(n, i), List.mem_filter.mpr ⟨hp, by simp [hin, hout]⟩, rfl⟩

end Corpus

namespace Composition

/-! ### All findings -/

theorem issue_of_mem_stray {g : Graph} {f : Fragment} {d : Diagnostic}
    (hd : d ∈ (stray g f).diagnostics) : ∃ r, d.issue = .unresolvedReference r := by
  unfold stray at hd
  split at hd
  · exact absurd hd List.not_mem_nil
  · split at hd
    · exact absurd hd List.not_mem_nil
    · rw [List.mem_singleton.mp hd]
      exact ⟨_, rfl⟩

variable {fragments : List Fragment} {nodes : List Node}

theorem mem_findings {d : Diagnostic} :
    let c := Corpus.ofParts fragments nodes
    d ∈ findings fragments nodes ↔ d ∈ (Graph.ofNodes nodes).absorbAll.2 ∨
      (∃ f ∈ fragments, d ∈ (stray c.graph f).diagnostics) ∨ d ∈ c.walk.diagnostics ∨
      d ∈ c.unreachable c.walk.entered := by
  simp only [findings, List.mem_append, List.mem_flatMap, or_assoc]

theorem category_findings {d : Diagnostic} (hd : d ∈ findings fragments nodes) :
    d.issue.category = .composition := by
  rcases mem_findings.mp hd with hd | ⟨f, -, hd⟩ | hd | hd
  · obtain ⟨r, hr⟩ := (Graph.progress_absorbAll nodes).found d hd
    rw [hr]
    rfl
  · obtain ⟨r, hr⟩ := issue_of_mem_stray hd
    rw [hr]
    rfl
  · exact Corpus.category_walk (Corpus.closed_ofParts fragments nodes) hd
  · obtain ⟨n, i, -, -, -, rfl⟩ := Corpus.mem_unreachable.mp hd
    rfl

/-- Everything that is found is reported. -/
theorem mem_diagnostics_ofParts {d : Diagnostic} :
    d ∈ (ofParts fragments nodes).diagnostics ↔ d ∈ findings fragments nodes := by
  rw [diagnostics_ofParts, mem_distinct fun d hd => category_findings hd]

end Composition

end EndpointCensus
