import EndpointCensus.Proofs.Idiom.FunctionView
import EndpointCensus.Unit.Scope

/-! What is sighted in a unit. The emissions of one statement are all sighted in the scopes that the
statement stands in, so a function view and its routes share their scopes. -/

namespace EndpointCensus

/-- A verb alias is remembered, but it is no sighting. -/
def Emission.isSighted : Emission → Bool
  | verbAlias _ _ _ => false
  | _ => true

theorem Emission.isSighted_of_receiver? {e : Emission} {name : List Char}
    (h : e.receiver? = some name) : e.isSighted = true := by
  cases e <;> first | rfl | contradiction

/-- Every function view has a route that is sighted in the same scopes. -/
def Furnished (sightings : List Sighting) : Prop :=
  ∀ s ∈ sightings, ∀ name, s.emission.functionView? = some name →
    ∃ t ∈ sightings, t.scope = s.scope ∧ t.emission.receiver? = some name

namespace Reading

/-- An emission as it is sighted by now. -/
def sighting (r : Reading) (idiom : Idiom) (e : Emission) : Sighting :=
  ⟨idiom, e, (r.scopes.map Scope.name).reverse, r.factory?⟩

theorem record_scopes (idiom : Idiom) (r : Reading) (e : Emission) :
    (record idiom r e).scopes = r.scopes := by
  cases e <;> rfl

theorem scopes_foldl_record (idiom : Idiom) (r : Reading) (es : List Emission) :
    (es.foldl (record idiom) r).scopes = r.scopes := by
  induction es generalizing r with
  | nil => rfl
  | cons e es ih => rw [List.foldl_cons, ih, record_scopes]

theorem record_sightings (idiom : Idiom) (r : Reading) (e : Emission) :
    (record idiom r e).sightings = r.sightings ++ if e.isSighted then [r.sighting idiom e]
      else [] := by
  cases e with
  | verbAlias => exact (List.append_nil _).symm
  | _ => rfl

/-- The emissions of a statement are sighted in order, all in the same scopes. -/
theorem sightings_foldl_record (idiom : Idiom) (r : Reading) (es : List Emission) :
    (es.foldl (record idiom) r).sightings =
      r.sightings ++ (es.filter Emission.isSighted).map (r.sighting idiom) := by
  induction es generalizing r with
  | nil => exact (List.append_nil _).symm
  | cons e es ih =>
    have hsame : (record idiom r e).sighting idiom = r.sighting idiom := by
      funext x
      simp only [sighting, factory?, record_scopes]
    rw [List.foldl_cons, ih, record_sightings, hsame, List.append_assoc, List.filter_cons]
    split <;> rfl

theorem furnished_foldl_record {idiom : Idiom} {r : Reading} {es : List Emission}
    (hr : Furnished r.sightings) (hes : Supplied es) :
    Furnished (es.foldl (record idiom) r).sightings := by
  rw [sightings_foldl_record]
  intro s hs name hname
  rcases List.mem_append.mp hs with hs | hs
  · obtain ⟨t, ht, hscope, hreceiver⟩ := hr s hs name hname
    exact ⟨t, List.mem_append_left _ ht, hscope, hreceiver⟩
  · obtain ⟨e, he, rfl⟩ := List.mem_map.mp hs
    obtain ⟨f, hf, hreceiver⟩ := hes e (List.mem_filter.mp he).1 name hname
    have hsighted := List.mem_filter.mpr ⟨hf, Emission.isSighted_of_receiver? hreceiver⟩
    exact ⟨r.sighting idiom f, List.mem_append_right _ (List.mem_map.mpr ⟨f, hsighted, rfl⟩), rfl,
      hreceiver⟩

end Reading

theorem Context.match?_of_mem_matches {c : Context} {i : Idiom} {es : List Emission}
    (h : (i, es) ∈ c.matches) : i.match? c = some es := by
  obtain ⟨j, -, hj⟩ := List.mem_filterMap.mp h
  obtain ⟨fs, hfs, heq⟩ := Option.map_eq_some_iff.mp hj
  cases heq
  exact hfs

namespace Reading

theorem furnished_readOne (unit : SourceUnit) (flag : Bool) {r : Reading} (s : Statement)
    (rest : List Statement) (hr : Furnished r.sightings) :
    Furnished (r.readOne unit flag s rest).sightings := by
  unfold readOne
  dsimp only
  split
  · exact hr
  · split
    next idiom es others hfound =>
      have hmem : (idiom, es) ∈ (idiom, es) :: others := List.mem_cons_self ..
      rw [← hfound] at hmem
      exact furnished_foldl_record hr (idiom.supplied_match? _ (Context.match?_of_mem_matches hmem))
    next => exact hr

theorem furnished_readAll (unit : SourceUnit) (flag : Bool) {r : Reading}
    (statements : List Statement) (hr : Furnished r.sightings) :
    Furnished (readAll unit flag r statements).sightings := by
  induction statements generalizing r with
  | nil => exact hr
  | cons s rest ih => exact ih (furnished_readOne unit flag s rest hr)

end Reading

end EndpointCensus
