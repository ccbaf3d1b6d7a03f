import Mathlib.Data.List.Induction
import EndpointCensus.Proofs.Inventory.Order

/-! What an inventory keeps and what it reports. Of endpoints in order, one is kept unless an
earlier one has its key, and it is reported if an earlier one has its route. The pass over the list
looks no further back than the endpoint kept last and the first endpoint of the route at hand;
because of the order these two stand for all earlier ones. -/

namespace EndpointCensus.Inventory

/-! ### Endpoints and those before them -/

/-- The endpoints of a list, each with those before it, of which `before` come before the list. -/
def withEarlier (before : List Endpoint) : List Endpoint → List (List Endpoint × Endpoint)
  | [] => []
  | e :: rest => (before, e) :: withEarlier (before ++ [e]) rest

theorem withEarlier_concat (before es : List Endpoint) (e : Endpoint) :
    withEarlier before (es ++ [e]) = withEarlier before es ++ [(before ++ es, e)] := by
  induction es generalizing before with
  | nil => simp [withEarlier]
  | cons x rest ih => simp [withEarlier, ih]

def isRepeat (p : List Endpoint × Endpoint) : Bool := p.1.any (·.key == p.2.key)

def isLater (p : List Endpoint × Endpoint) : Bool := p.1.any (·.sameRoute p.2)

def kept (es : List Endpoint) : List Endpoint :=
  ((withEarlier [] es).filter (!isRepeat ·)).map Prod.snd

def later (es : List Endpoint) : List (List Endpoint × Endpoint) :=
  (withEarlier [] es).filter isLater

/-- The finding about an endpoint, if an earlier one has its route. -/
def finding? (p : List Endpoint × Endpoint) : Option Diagnostic :=
  (p.1.find? (·.sameRoute p.2)).map (repetition · p.2)

def findings (es : List Endpoint) : List Diagnostic := (withEarlier [] es).filterMap finding?

theorem kept_concat (es : List Endpoint) (e : Endpoint) :
    kept (es ++ [e]) = if isRepeat (es, e) then kept es else kept es ++ [e] := by
  unfold kept
  rw [withEarlier_concat, List.nil_append, List.filter_append, List.map_append]
  cases h : isRepeat (es, e) <;> simp [h]

theorem findings_concat (es : List Endpoint) (e : Endpoint) :
    findings (es ++ [e]) = findings es ++ (finding? (es, e)).toList := by
  unfold findings
  rw [withEarlier_concat, List.nil_append, List.filterMap_append]
  cases h : finding? (es, e) <;> simp [h]

theorem mem_of_mem_kept {es : List Endpoint} {e : Endpoint} (h : e ∈ kept es) : e ∈ es := by
  induction es using List.reverseRecOn with
  | nil => exact h
  | append_singleton es x ih =>
    rw [kept_concat] at h
    rw [List.mem_append]
    split at h
    · exact .inl (ih h)
    · exact (List.mem_append.mp h).imp ih id

/-- Of the endpoints with one key the first is kept, and no other. -/
theorem filter_kept (es : List Endpoint) (key : Method × String × Location) :
    (kept es).filter (·.key == key) = (es.find? (·.key == key)).toList := by
  induction es using List.reverseRecOn with
  | nil => rfl
  | append_singleton es e ih =>
    rw [kept_concat, List.find?_append, List.find?_singleton]
    by_cases hkey : e.key = key
    · subst hkey
      cases hrepeat : isRepeat (es, e) with
      | true =>
        have hsome : (es.find? (·.key == e.key)).isSome = true := by
          rwa [List.find?_isSome, ← List.any_eq_true]
        obtain ⟨x, hx⟩ := Option.isSome_iff_exists.mp hsome
        simp [ih, hx]
      | false =>
        have hnone : es.find? (·.key == e.key) = none := by
          rw [List.find?_eq_none, ← List.any_eq_false]
          exact hrepeat
        simp [List.filter_append, ih, hnone]
    · have hfilter : [e].filter (·.key == key) = [] := by simp [hkey]
      split <;> simp [List.filter_append, ih, hkey]

/-! ### Endpoints in order -/

namespace IsSorted

variable {es : List Endpoint} {e : Endpoint}

theorem isRepeat_eq (h : IsSorted (es ++ [e])) :
    isRepeat (es, e) = es.getLast?.any (·.key == e.key) :=
  h.any_eq_getLast?_any fun hab hbe hkey =>
    beq_iff_eq.mpr (Endpoint.key_eq_of_between hab hbe (beq_iff_eq.mp hkey))

theorem isLater_eq (h : IsSorted (es ++ [e])) : isLater (es, e) = es.getLast?.any (·.sameRoute e) :=
  h.any_eq_getLast?_any Endpoint.sameRoute_of_between

/-- The endpoint kept last has the key of the last one. -/
theorem key_getLast?_kept (h : IsSorted es) :
    (kept es).getLast?.map Endpoint.key = es.getLast?.map Endpoint.key := by
  induction es using List.reverseRecOn with
  | nil => rfl
  | append_singleton es e ih =>
    rw [kept_concat, h.isRepeat_eq, List.getLast?_concat]
    cases hlast : es.getLast? with
    | none => simp
    | some last =>
      by_cases hkey : last.key = e.key
      · simp [ih h.init, hlast, hkey]
      · simp [hkey]

theorem pairwise_kept (h : IsSorted es) : (kept es).Pairwise fun a b => a.compare b = .lt := by
  induction es using List.reverseRecOn with
  | nil => exact List.Pairwise.nil
  | append_singleton es e ih =>
    rw [kept_concat]
    split
    · exact ih h.init
    · next hrepeat =>
      refine List.pairwise_append.mpr ⟨ih h.init, List.pairwise_singleton _ _, fun x hx y hy => ?_⟩
      obtain rfl := List.mem_singleton.mp hy
      have hmem := mem_of_mem_kept hx
      have hle : (x.compare y).isLE = true := h.le_last hmem
      have hne : x.compare y ≠ .eq := by
        rw [ne_eq, Endpoint.compare_eq_iff]
        intro hkey
        exact hrepeat (List.any_eq_true.mpr ⟨x, hmem, beq_iff_eq.mpr hkey⟩)
      cases hc : x.compare y with
      | lt => rfl
      | eq => exact absurd hc hne
      | gt => rw [hc] at hle; contradiction

end IsSorted

/-! ### The pass over the list -/

namespace Sifting

variable (found : List Diagnostic) {es : List Endpoint} {e : Endpoint}

/-- What the pass has behind the endpoints, with `found` at hand before it. -/
def behind (found : List Diagnostic) (es : List Endpoint) : Sifting where
  first := es.getLast?.bind fun last => es.find? (·.sameRoute last)
  kept := (Inventory.kept es).reverse
  found := found ++ findings es

/-- The first endpoint of the route at hand is the one to compare with, if it is of
the same route. -/
theorem filter_first (h : IsSorted (es ++ [e])) :
    (behind found es).first.filter (·.sameRoute e) = es.find? (·.sameRoute e) := by
  unfold behind
  have hlater := h.isLater_eq
  cases hlast : es.getLast? with
  | none => simp [List.getLast?_eq_none_iff.mp hlast]
  | some last =>
    rw [hlast, Option.any_some] at hlater
    by_cases hroute : last.sameRoute e = true
    · have hsame : (fun x : Endpoint => x.sameRoute last) = (·.sameRoute e) :=
        funext (Endpoint.sameRoute_right hroute)
      rw [Option.bind_some, hsame]
      cases hfind : es.find? (·.sameRoute e) with
      | none => rfl
      | some first => simpa using List.find?_some hfind
    · rw [Bool.not_eq_true] at hroute
      rw [hroute] at hlater
      have hnone : ∀ x ∈ es, ¬x.sameRoute e = true := by simpa [isLater] using hlater
      rw [List.find?_eq_none.mpr hnone, Option.filter_eq_none_iff]
      exact fun x hx => hnone x (List.mem_of_find?_eq_some hx)

/-- The endpoint kept last tells whether the next one is a repeat. -/
theorem any_head?_kept (h : IsSorted (es ++ [e])) :
    ((behind found es).kept.head?.any fun last => last.compare e == .eq) = isRepeat (es, e) := by
  have hkey := h.init.key_getLast?_kept
  have heq (x : Endpoint) : (x.compare e == .eq) = (x.key == e.key) := by
    rw [Bool.eq_iff_iff, beq_iff_eq, beq_iff_eq, Endpoint.compare_eq_iff]
  simp only [behind, List.head?_reverse, heq, h.isRepeat_eq]
  have hany (o : Option Endpoint) : o.any (·.key == e.key) =
      (o.map Endpoint.key).any (· == e.key) := by
    cases o <;> rfl
  rw [hany, hkey, ← hany]

/-- One endpoint more. -/
theorem next_behind (h : IsSorted (es ++ [e])) :
    (behind found es).next e = behind found (es ++ [e]) := by
  have hfirst := filter_first found h
  have hrepeat := any_head?_kept found h
  unfold next
  rw [hfirst, hrepeat]
  cases hfind : es.find? (·.sameRoute e) with
  | none =>
    have hnew : isRepeat (es, e) = false := by
      rw [isRepeat, List.any_eq_false]
      intro x hx hkey
      exact List.find?_eq_none.mp hfind x hx (Endpoint.sameRoute_of_key (beq_iff_eq.mp hkey))
    simp [behind, kept_concat, findings_concat, finding?, hnew, hfind, Endpoint.sameRoute_self]
  | some first =>
    have hbefore : (behind found es).first = some first :=
      (Option.filter_eq_some_iff.mp (hfirst.trans hfind)).1
    rw [behind] at hbefore
    simp only [behind, kept_concat, findings_concat, finding?, hfind, hbefore]
    split <;> simp [hfind]

/-- The pass over a list in order. -/
theorem foldl_next (h : IsSorted es) : es.foldl next { found } = behind found es := by
  induction es using List.reverseRecOn with
  | nil => simp [behind, Inventory.kept, findings, withEarlier]
  | append_singleton es e ih =>
    rw [List.foldl_append, List.foldl_cons, List.foldl_nil, ih h.init, next_behind found h]

end Sifting

/-- What is strictly in order passes the check. -/
theorem disorder?_eq_none {es : List Endpoint} (h : es.Pairwise fun a b => a.compare b = .lt) :
    disorder? es = none := by
  induction es with
  | nil => rfl
  | cons a rest ih =>
    obtain ⟨ha, hrest⟩ := List.pairwise_cons.mp h
    cases rest with
    | nil => rfl
    | cons b rest =>
      rw [disorder?, ha b List.mem_cons_self]
      exact ih hrest

/-- The inventory of endpoints and what is reported beside it. -/
theorem build_eq (endpoints : List Endpoint) (found : List Diagnostic) :
    build endpoints found = .ok (⟨kept (sorted endpoints)⟩,
      found ++ findings (sorted endpoints)) := by
  have hsorted := isSorted_sorted endpoints
  have hpass : (endpoints.mergeSort fun a b => (a.compare b).isLE).foldl Sifting.next { found } =
      Sifting.behind found (sorted endpoints) := Sifting.foldl_next found hsorted
  have hcheck : disorder? (kept (sorted endpoints)) = none :=
    disorder?_eq_none hsorted.pairwise_kept
  simp [build, hpass, Sifting.behind, hcheck]

/-! ### Inventories -/

/-- An inventory can always be built: its endpoints are strictly in order, for every method, path
and location there is the one that came first, and findings are only added to those at hand. -/
theorem build_keeps_first (endpoints : List Endpoint) :
    ∃ inventory added, (∀ found, build endpoints found = .ok (inventory, found ++ added)) ∧
      inventory.endpoints.Pairwise (fun a b => a.compare b = .lt) ∧
      ∀ key, inventory.endpoints.filter (·.key == key) =
        (endpoints.find? (·.key == key)).toList := by
  refine ⟨⟨kept (sorted endpoints)⟩, findings (sorted endpoints), build_eq endpoints,
    (isSorted_sorted endpoints).pairwise_kept, fun key => ?_⟩
  rw [filter_kept, ← List.head?_filter, filter_sorted, List.head?_filter]

/-- A finding about an endpoint whose route has `first` as its first endpoint. One that is kept, and
one that repeats another endpoint than the first, are told from the first; only a repeat of the
first counts as included again. -/
structure Reports (first : Endpoint) (p : List Endpoint × Endpoint) (d : Diagnostic) : Prop where
  location : d.location = p.2.location
  beside : isRepeat p = false → d.issue = .duplicateRegistration p.2.method p.2.path first.location
  again : first.key = p.2.key → d.issue = .repeatedInclusion p.2.method p.2.path
  anew : isRepeat p = true → first.key ≠ p.2.key →
    d.issue = .duplicateRegistration p.2.method p.2.path first.location

theorem reports_repetition {first : Endpoint} {p : List Endpoint × Endpoint}
    (h : p.1.find? (·.sameRoute p.2) = some first) : Reports first p (repetition first p.2) := by
  have hroute : first.sameRoute p.2 = true := by simpa using List.find?_some h
  have hkey := Endpoint.key_eq_iff_of_sameRoute hroute
  have hother (hne : first.key ≠ p.2.key) :
      (repetition first p.2).issue = .duplicateRegistration p.2.method p.2.path first.location :=
    if_neg (mt beq_iff_eq.mp (mt hkey.mpr hne))
  refine ⟨rfl, fun hnew => hother fun heq => ?_, fun heq => if_pos (beq_iff_eq.mpr (hkey.mp heq)),
    fun _ => hother⟩
  exact List.any_eq_false.mp hnew first (List.mem_of_find?_eq_some h) (beq_iff_eq.mpr heq)

/-- There is one finding for each endpoint that is not the first of its route, in their order. -/
theorem build_reports_later (endpoints : List Endpoint) (found : List Diagnostic) :
    ∃ inventory added, build endpoints found = .ok (inventory, found ++ added) ∧
      inventory.endpoints = kept (sorted endpoints) ∧
      List.Forall₂ (fun p d => ∃ first, p.1.find? (·.sameRoute p.2) = some first ∧
        Reports first p d) (later (sorted endpoints)) added := by
  refine ⟨⟨kept (sorted endpoints)⟩, findings (sorted endpoints), build_eq endpoints found, rfl, ?_⟩
  unfold later findings
  induction withEarlier [] (sorted endpoints) with
  | nil => exact .nil
  | cons p rest ih =>
    cases hfirst : p.1.find? (·.sameRoute p.2) with
    | none =>
      have hlater : isLater p = false := by
        rw [isLater, List.any_eq_false]
        exact List.find?_eq_none.mp hfirst
      rw [List.filter_cons_of_neg (by simp [hlater]),
        List.filterMap_cons_none (by simp [finding?, hfirst])]
      exact ih
    | some first =>
      have hroute : first.sameRoute p.2 = true := by simpa using List.find?_some hfirst
      have hlater : isLater p = true :=
        List.any_eq_true.mpr ⟨first, List.mem_of_find?_eq_some hfirst, hroute⟩
      rw [List.filter_cons_of_pos hlater, List.filterMap_cons_some (by rw [finding?, hfirst]; rfl)]
      exact .cons ⟨first, hfirst, reports_repetition hfirst⟩ ih

/-- An endpoint that is declared behind another one of its route and included twice is not
reported as included again. -/
theorem build_reports_twice_included :
    let a : Endpoint := ⟨.get, "/items", "list", ⟨"a.py", 2⟩, {}, [], none⟩
    let b : Endpoint := ⟨.get, "/items", "list", ⟨"b.py", 7⟩, {}, [], none⟩
    let d : Diagnostic := ⟨b.location, .duplicateRegistration .get "/items" a.location⟩
    build [a, b, b] = .ok (⟨[a, b]⟩, [d, d]) ∧ d.issue ≠ .repeatedInclusion .get "/items" := by
  intro a b d
  have hsorted : sorted [a, b, b] = [a, b, b] := List.mergeSort_of_pairwise (by decide)
  have hbuild : build [a, b, b] = .ok (⟨[a, b]⟩, [d, d]) := by
    rw [build_eq, hsorted]
    decide
  exact ⟨hbuild, fun h => by contradiction⟩

end EndpointCensus.Inventory
