import EndpointCensus.Proofs.Inventory.Sifting

/-! The routes of an inventory. Order and choice look at method, path and location alone, so
endpoints that agree in these and in their symbols make inventories with the same routes,
whatever else they carry. -/

namespace EndpointCensus

namespace Endpoint

/-- What a request meets: its method, its path and what answers it. -/
def route (e : Endpoint) : Method × String × String := (e.method, e.path, e.symbol)

/-- An endpoint with nothing but its route and its location. -/
def bare (e : Endpoint) : Endpoint := { e with metadata := {}, params := [], unresolved := none }

theorem le_bare (a b : Endpoint) : a.bare.le b.bare = a.le b := rfl

end Endpoint

namespace Inventory

def routes (i : Inventory) : List (Method × String × String) := i.endpoints.map Endpoint.route

theorem sorted_map_bare (es : List Endpoint) :
    sorted (es.map Endpoint.bare) = (sorted es).map Endpoint.bare :=
  (List.map_mergeSort fun a _ b _ => (Endpoint.le_bare a b).symm).symm

theorem isRepeat_map_bare (es : List Endpoint) (e : Endpoint) :
    isRepeat (es.map Endpoint.bare, e.bare) = isRepeat (es, e) := by
  rw [isRepeat, List.any_map]
  rfl

theorem kept_map_bare (es : List Endpoint) :
    kept (es.map Endpoint.bare) = (kept es).map Endpoint.bare := by
  induction es using List.reverseRecOn with
  | nil => rfl
  | append_singleton es e ih =>
    rw [List.map_append, List.map_singleton, kept_concat, kept_concat, isRepeat_map_bare, ih]
    split
    · rfl
    · rw [List.map_append, List.map_singleton]

/-- The routes that are kept do not depend on what an endpoint carries beside
its route and location. -/
theorem routes_congr {es fs : List Endpoint} (h : es.map Endpoint.bare = fs.map Endpoint.bare) :
    routes ⟨kept (sorted es)⟩ = routes ⟨kept (sorted fs)⟩ := by
  have hbare (es : List Endpoint) :
      routes ⟨kept (sorted es)⟩ = (kept (sorted (es.map Endpoint.bare))).map Endpoint.route := by
    rw [sorted_map_bare, kept_map_bare, List.map_map]
    rfl
  rw [hbare, h, ← hbare]

end Inventory

end EndpointCensus
