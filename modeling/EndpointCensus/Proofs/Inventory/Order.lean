import EndpointCensus.Inventory

/-! The order of an inventory. Endpoints are compared by path, method and location, so two of
them are equal in the order when they agree in all three. In a list that is in order the
endpoints of one route stand together, and so do those of one location of a route; sorting keeps
the latter as they came. -/

namespace EndpointCensus

open Std

/-- What lies between two that are equal in an order is equal to them. -/
theorem compare_eq_of_between {α : Type} {cmp : α → α → Ordering} [TransCmp cmp] {a b c : α}
    (hab : (cmp a b).isLE = true) (hbc : (cmp b c).isLE = true) (hac : cmp a c = .eq) :
    cmp b c = .eq := by
  have hca : (cmp c a).isLE = true := by
    rw [OrientedCmp.eq_comm.mp hac]
    rfl
  exact OrientedCmp.isLE_antisymm hbc (TransCmp.isLE_trans hca hab)

theorem Method.rank_injective {m n : Method} (h : m.rank = n.rank) : m = n := by
  cases m <;> cases n <;> first | rfl | contradiction

theorem Location.compare_eq_iff {a b : Location} : a.compare b = .eq ↔ a = b := by
  rw [Location.compare, Ordering.then_eq_eq, Std.compare_eq_iff_eq, Std.compare_eq_iff_eq,
    Location.mk.injEq]

namespace Endpoint

/-- What an endpoint is told by. -/
def key (e : Endpoint) : Method × String × Location := (e.method, e.path, e.location)

def compareRoute (a b : Endpoint) : Ordering :=
  (Ord.compare a.path b.path).then (Ord.compare a.method.rank b.method.rank)

theorem compare_eq_then (a b : Endpoint) :
    a.compare b = (a.compareRoute b).then (a.location.compare b.location) := rfl

instance : TransCmp compareRoute :=
  inferInstanceAs (TransCmp (compareLex (compareOn path) (compareOn fun e => e.method.rank)))

instance : TransCmp compare :=
  inferInstanceAs (TransCmp (compareLex compareRoute
    (compareLex (compareOn fun e => e.location.unit) (compareOn fun e => e.location.line))))

theorem sameRoute_iff {a b : Endpoint} :
    a.sameRoute b = true ↔ a.method = b.method ∧ a.path = b.path := by
  simp [sameRoute]

theorem sameRoute_self (a : Endpoint) : a.sameRoute a = true := by simp [sameRoute]

/-- Two endpoints of one route are of the same routes. -/
theorem sameRoute_right {a b : Endpoint} (h : a.sameRoute b = true) (x : Endpoint) :
    x.sameRoute a = x.sameRoute b := by
  obtain ⟨hmethod, hpath⟩ := sameRoute_iff.mp h
  rw [sameRoute, sameRoute, hmethod, hpath]

theorem compareRoute_eq_iff {a b : Endpoint} : a.compareRoute b = .eq ↔ a.sameRoute b = true := by
  rw [compareRoute, Ordering.then_eq_eq, Std.compare_eq_iff_eq, Std.compare_eq_iff_eq,
    sameRoute_iff, and_comm]
  exact and_congr_left fun _ => ⟨Method.rank_injective, congrArg Method.rank⟩

theorem compare_eq_iff {a b : Endpoint} : a.compare b = .eq ↔ a.key = b.key := by
  rw [compare_eq_then, Ordering.then_eq_eq, compareRoute_eq_iff, sameRoute_iff,
    Location.compare_eq_iff, and_assoc]
  simp [key]

theorem sameRoute_of_key {a b : Endpoint} (h : a.key = b.key) : a.sameRoute b = true := by
  rw [← compare_eq_iff, compare_eq_then, Ordering.then_eq_eq] at h
  exact compareRoute_eq_iff.mp h.1

/-- Of one route, endpoints are told by their locations. -/
theorem key_eq_iff_of_sameRoute {a b : Endpoint} (h : a.sameRoute b = true) :
    a.key = b.key ↔ a.location = b.location := by
  obtain ⟨hmethod, hpath⟩ := sameRoute_iff.mp h
  simp [key, hmethod, hpath]

/-- The order, as it is sorted by. -/
def le (a b : Endpoint) : Bool := (a.compare b).isLE

theorem isLE_compareRoute {a b : Endpoint} (h : a.le b = true) : (a.compareRoute b).isLE = true :=
  (Ordering.isLE_then_iff_and.mp h).1

theorem le_trans (a b c : Endpoint) (hab : a.le b = true) (hbc : b.le c = true) : a.le c = true :=
  TransCmp.isLE_trans hab hbc

theorem le_total (a b : Endpoint) : (a.le b || b.le a) = true := by
  have hswap : b.compare a = (a.compare b).swap := OrientedCmp.eq_swap
  rw [le, le, hswap]
  cases a.compare b <;> rfl

theorem sameRoute_of_between {a b c : Endpoint} (hab : a.le b = true) (hbc : b.le c = true)
    (hac : a.sameRoute c = true) : b.sameRoute c = true := by
  rw [← compareRoute_eq_iff] at hac ⊢
  exact compare_eq_of_between (isLE_compareRoute hab) (isLE_compareRoute hbc) hac

theorem key_eq_of_between {a b c : Endpoint} (hab : a.le b = true) (hbc : b.le c = true)
    (hac : a.key = c.key) : b.key = c.key := by
  rw [← compare_eq_iff] at hac ⊢
  exact compare_eq_of_between hab hbc hac

end Endpoint

/-! ### Lists in order -/

namespace Inventory

/-- Every endpoint comes no later in the order than those behind it. -/
def IsSorted (es : List Endpoint) : Prop := es.Pairwise fun a b => a.le b = true

namespace IsSorted

variable {es : List Endpoint} {e x : Endpoint}

theorem init (h : IsSorted (es ++ [e])) : IsSorted es := (List.pairwise_append.mp h).1

theorem le_last (h : IsSorted (es ++ [e])) (hx : x ∈ es) : x.le e = true :=
  (List.pairwise_append.mp h).2.2 x hx e (List.mem_singleton_self e)

/-- Whatever holds of an endpoint and of all that lie between it and the one after the list, holds
of an earlier endpoint just when it holds of the last one. -/
theorem any_eq_getLast?_any (h : IsSorted (es ++ [e])) {p : Endpoint → Bool}
    (hp : ∀ {a b : Endpoint}, a.le b = true → b.le e = true → p a = true → p b = true) :
    es.any p = es.getLast?.any p := by
  rcases es.eq_nil_or_concat with rfl | ⟨init, last, rfl⟩
  · rfl
  · rw [List.concat_eq_append] at h ⊢
    have hall : (∃ x ∈ init ++ [last], p x = true) → p last = true := by
      rintro ⟨x, hx, hxp⟩
      rcases List.mem_append.mp hx with hinit | hlast
      · exact hp (h.init.le_last hinit) (h.le_last (by simp)) hxp
      · rwa [← List.mem_singleton.mp hlast]
    rw [List.getLast?_concat, Bool.eq_iff_iff, List.any_eq_true]
    exact ⟨hall, fun hlast => ⟨last, by simp, hlast⟩⟩

end IsSorted

/-- Endpoints in the order of an inventory. -/
def sorted (es : List Endpoint) : List Endpoint := es.mergeSort Endpoint.le

theorem isSorted_sorted (es : List Endpoint) : IsSorted (sorted es) :=
  List.pairwise_mergeSort Endpoint.le_trans Endpoint.le_total es

/-- Sorting keeps the endpoints with one key, and keeps them as they came. -/
theorem filter_sorted (es : List Endpoint) (key : Method × String × Location) :
    (sorted es).filter (·.key == key) = es.filter (·.key == key) := by
  have hequal : (es.filter (·.key == key)).Pairwise fun a b => a.le b = true := by
    refine List.pairwise_of_forall_mem_list fun a ha b hb => ?_
    have ha := beq_iff_eq.mp (List.mem_filter.mp ha).2
    have hb := beq_iff_eq.mp (List.mem_filter.mp hb).2
    rw [Endpoint.le, Endpoint.compare_eq_iff.mpr (ha.trans hb.symm)]
    rfl
  have hsub : (es.filter (·.key == key)).Sublist (sorted es) :=
    List.sublist_mergeSort Endpoint.le_trans Endpoint.le_total hequal List.filter_sublist
  have hfilter := hsub.filter (·.key == key)
  rw [List.filter_filter] at hfilter
  simp only [Bool.and_self] at hfilter
  exact (hfilter.eq_of_length ((List.mergeSort_perm es Endpoint.le).filter _).length_eq.symm).symm

end Inventory

end EndpointCensus
