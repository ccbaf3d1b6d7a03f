import EndpointCensus.Composition.Member
import EndpointCensus.Proofs.Unit.Reference

/-! The classes of a unit. Their handlers are members that are named for the methods they handle. A
base that is a name of the unit is referred to in the unit's own module, and every other base
without a unit. Only routers stand for imported nodes, so a class is where its unit declares it. -/

namespace EndpointCensus

/-! ### Handlers -/

theorem Method.ofVerb?_verb (m : Method) : Method.ofVerb? m.verb.toList = some m := by
  cases m <;> decide

theorem Method.verb_inj {m m' : Method} (h : m.verb = m'.verb) : m = m' := by
  have hread := m.ofVerb?_verb
  rw [h, m'.ofVerb?_verb] at hread
  exact (Option.some.inj hread).symm

theorem verb_of_isVerb {cs : List Char} {method : Method} (hverb : isVerb cs = true)
    (hmethod : Method.ofVerb? cs = some method) : method.verb = stored cs := by
  have hverbs : ∀ verb ∈ httpVerbs, (Method.ofVerb? verb.toList).map Method.verb = some verb := by
    decide
  have hname := hverbs (String.ofList cs) (List.contains_iff_mem.mp hverb)
  rw [String.toList_ofList, hmethod] at hname
  exact Option.some.inj hname

/-- A handler that names its action names the verb of its method. -/
def Emission.NamesVerb : Emission → Prop
  | fragment _ method _ _ action _ _ => action.map stored = some method.verb
  | _ => True

theorem ClassView.namesVerb_of_match? {c : Context} {es : List Emission}
    (h : ClassView.match? c = some es) : ∀ e ∈ es, e.NamesVerb := by
  unfold ClassView.match? at h
  split at h
  · obtain rfl := Option.some.inj h
    exact fun e he => (List.mem_singleton.mp he) ▸ trivial
  · simp only [bind, Option.bind_eq_some_iff] at h
    obtain ⟨owner, -, member, -, h⟩ := h
    split at h
    next hverb =>
      obtain ⟨method, hmethod, h⟩ := Option.bind_eq_some_iff.mp h
      obtain rfl := Option.some.inj h
      have haction : (some member).map stored = some method.verb :=
        congrArg some (verb_of_isVerb hverb hmethod).symm
      exact fun e he => (List.mem_singleton.mp he) ▸ haction
    next => contradiction

theorem Idiom.namesVerb_of_match? {c : Context} {es : List Emission}
    (h : Idiom.classMethods.match? c = some es) :
    ∀ e ∈ es, e.NamesVerb := ClassView.namesVerb_of_match? (Option.filter_eq_some_iff.mp h).1

namespace Reading

variable {P : Idiom → Emission → Prop} {r : Reading}

/-- What holds of everything that an idiom reads holds of what is sighted. -/
theorem forall_sightings_readOne (hP : ∀ i c es, Idiom.match? i c = some es → ∀ e ∈ es, P i e)
    (unit : SourceUnit) (flag : Bool) (s : Statement) (rest : List Statement)
    (hr : ∀ t ∈ r.sightings, P t.idiom t.emission) :
    ∀ t ∈ (r.readOne unit flag s rest).sightings, P t.idiom t.emission := by
  unfold readOne
  dsimp only
  split
  · exact hr
  · split
    next idiom es others hfound =>
      have hmatch := Context.match?_of_mem_matches (hfound ▸ List.mem_cons_self)
      intro t ht
      rw [sightings_foldl_record] at ht
      rcases List.mem_append.mp ht with ht | ht
      · exact hr t ht
      · obtain ⟨e, he, rfl⟩ := List.mem_map.mp ht
        exact hP idiom _ es hmatch e (List.mem_filter.mp he).1
    next => exact hr

theorem forall_sightings_readAll (hP : ∀ i c es, Idiom.match? i c = some es → ∀ e ∈ es, P i e)
    (unit : SourceUnit) (flag : Bool) (statements : List Statement)
    (hr : ∀ t ∈ r.sightings, P t.idiom t.emission) :
    ∀ t ∈ (readAll unit flag r statements).sightings, P t.idiom t.emission := by
  induction statements generalizing r with
  | nil => exact hr
  | cons s rest ih => exact ih (forall_sightings_readOne hP unit flag s rest hr)

end Reading

namespace Lowering

variable {l : Lowering}

/-- A fragment keeps what its emission says. -/
theorem emission_of_attach {s : Sighting} {f : Fragment} (h : (l.attach s).2 = some f) :
    ∃ owner path symbol action line metadata,
      s.emission = .fragment owner f.method path symbol action line metadata ∧
        f.idiom = s.idiom ∧ f.action = action.map stored := by
  unfold attach at h
  split at h
  next owner method path symbol action line metadata hemission =>
    obtain rfl := Option.some.inj h
    exact ⟨owner, path, symbol, action, line, metadata, hemission, rfl, rfl⟩
  · contradiction
  · split at h <;> contradiction
  · contradiction
  · contradiction

theorem exists_attach_of_mem_attachAll {ss : List Sighting} {f : Fragment}
    (h : f ∈ (l.attachAll ss).2) : ∃ s ∈ ss, ∃ l' : Lowering, (l'.attach s).2 = some f := by
  induction ss generalizing l with
  | nil => exact absurd h List.not_mem_nil
  | cons s ss ih =>
    have hfragments : (l.attachAll (s :: ss)).2 = (l.attach s).2.toList ++
        ((l.attach s).1.attachAll ss).2 := rfl
    rw [hfragments] at h
    rcases List.mem_append.mp h with h | h
    · exact ⟨s, List.mem_cons_self, l, Option.mem_toList.mp h⟩
    · obtain ⟨t, ht, l', hf⟩ := ih h
      exact ⟨t, List.mem_cons_of_mem s ht, l', hf⟩

end Lowering

theorem SourceUnit.fragments_report (u : SourceUnit) (flag : Bool) :
    (u.report flag).fragments = ((u.lowering flag).lower (u.reading flag).sightings).2 := by
  rw [report, lowering, reading, readStatements]

/-- The handlers of the classes of a unit have the verbs of their methods as actions. -/
theorem SourceUnit.action_eq_verb (u : SourceUnit) (flag : Bool) {f : Fragment}
    (hf : f ∈ (u.report flag).fragments) (hidiom : f.idiom = .classMethods) :
    f.action = some f.method.verb := by
  rw [SourceUnit.fragments_report] at hf
  obtain ⟨s, hs, l, hattach⟩ := Lowering.exists_attach_of_mem_attachAll hf
  obtain ⟨owner, path, symbol, action, line, metadata, hemission, hsidiom, haction⟩ :=
    Lowering.emission_of_attach hattach
  have hread : ∀ t ∈ (u.reading flag).sightings, t.idiom = .classMethods → t.emission.NamesVerb :=
    Reading.forall_sightings_readAll (P := fun i e => i = .classMethods → e.NamesVerb)
      (fun i c es h e he hi => Idiom.namesVerb_of_match? (hi ▸ h) e he) u flag _ fun _ h =>
        absurd h List.not_mem_nil
  have hverb := hread s hs (hsidiom ▸ hidiom)
  rw [hemission] at hverb
  exact haction.trans hverb

/-! ### Bases -/

/-- The bases of the node that are names of a unit are names of a module. -/
def Node.BasesIn (n : Node) (module : String) : Prop :=
  ∀ b ∈ n.bases, b.unit.isSome = true → b.module = module

theorem Node.basesIn_of_bases_eq_nil {n : Node} {module : String} (h : n.bases = []) :
    n.BasesIn module :=
  fun _ hb => absurd (h ▸ hb) List.not_mem_nil

namespace Reference

theorem unit_ofDotted (dotted : List Char) : (ofDotted dotted).unit = none := by
  unfold ofDotted
  split <;> rfl

end Reference

namespace Lowering

variable {l : Lowering}

theorem unit_of_imported? {name : List Char} {r : Reference} (h : l.imported? name = some r) :
    r.unit = none := by
  obtain ⟨⟨module, member⟩, -, rfl⟩ := Option.map_eq_some_iff.mp h
  cases member with
  | none => exact Reference.unit_ofDotted module
  | some member => rfl

/-- A name means a node of the unit, or it leads elsewhere. -/
theorem reference_name_cases (l : Lowering) (scope : List (List Char)) (name : List Char) :
    (∃ key, l.reference scope (.name name) = l.localReference key) ∨
    (l.reference scope (.name name)).unit = none := by
  rcases hvisible : l.visible? scope name with _ | key
  · rw [reference, hvisible]
    dsimp only
    unfold elsewhere
    split
    next r hr => exact .inr (unit_of_imported? hr)
    next =>
      split
      · exact .inr (Reference.unit_ofDotted name)
      · exact .inl ⟨_, rfl⟩
  · exact .inl ⟨key, by rw [reference, hvisible]⟩

/-- A name of the unit is referred to in the unit's module. -/
theorem module_reference_name {scope : List (List Char)} {name : List Char}
    (h : (l.reference scope (.name name)).unit.isSome = true) :
    (l.reference scope (.name name)).module = l.module := by
  rcases l.reference_name_cases scope name with ⟨key, hkey⟩ | hnone
  · rw [hkey]
    rfl
  · rw [hnone] at h
    contradiction

variable {P : Node → Prop}

theorem forall_nodes_modify (h : ∀ n ∈ l.nodes, P n) (name : String) {f : Node → Node}
    (hf : ∀ n, P n → P (f n)) : ∀ n ∈ (l.modify name f).nodes, P n := by
  intro n hn
  obtain ⟨m, hm, rfl⟩ := List.mem_map.mp hn
  split
  · exact hf m (h m hm)
  · exact h m hm

theorem forall_nodes_add (h : ∀ n ∈ l.nodes, P n) {m : Node} (hm : P m) :
    ∀ n ∈ (l.add m).nodes, P n := by
  unfold add
  split
  · exact h
  · intro n hn
    rcases List.mem_append.mp hn with hn | hn
    · exact h n hn
    · exact List.mem_singleton.mp hn ▸ hm

variable {module : String}

theorem basesIn_declare (h : ∀ n ∈ l.nodes, n.BasesIn module) (s : Sighting) :
    ∀ n ∈ (l.declare s).nodes, n.BasesIn module := by
  unfold declare
  split
  · exact forall_nodes_modify (forall_nodes_add h (Node.basesIn_of_bases_eq_nil rfl)) _ fun _ hn =>
      hn
  · exact h

theorem basesIn_addBases (h : ∀ n ∈ l.nodes, n.BasesIn l.module) (s : Sighting) :
    ∀ n ∈ (l.addBases s).nodes, n.BasesIn l.module := by
  unfold addBases
  split
  · refine forall_nodes_modify h _ fun n hn b hb => ?_
    rcases List.mem_append.mp hb with hb | hb
    · exact hn b hb
    · obtain ⟨name, -, rfl⟩ := List.mem_map.mp hb
      exact module_reference_name
  · exact h

theorem basesIn_addImplicit (h : ∀ n ∈ l.nodes, n.BasesIn module) (key : String) (line : Nat) :
    ∀ n ∈ (l.addImplicit key line).nodes, n.BasesIn module :=
  forall_nodes_add h (Node.basesIn_of_bases_eq_nil rfl)

theorem basesIn_receiver (h : ∀ n ∈ l.nodes, n.BasesIn module) (scope : List (List Char))
    (name : List Char) (line : Nat) :
    ∀ n ∈ (l.receiver scope name line).1.nodes, n.BasesIn module := by
  unfold receiver
  split
  · exact h
  · split
    · exact h
    · exact basesIn_addImplicit h _ line

theorem basesIn_parent (h : ∀ n ∈ l.nodes, n.BasesIn module) (scope : List (List Char))
    (name : List Char) (line : Nat) :
    ∀ n ∈ (l.parent scope name line).1.nodes, n.BasesIn module := by
  unfold parent
  split
  · exact h
  · dsimp only
    split
    · exact forall_nodes_modify (basesIn_addImplicit h _ line) _ fun _ hn => hn
    · exact basesIn_addImplicit h _ line

theorem basesIn_attach (h : ∀ n ∈ l.nodes, n.BasesIn module) (s : Sighting) :
    ∀ n ∈ (l.attach s).1.nodes, n.BasesIn module := by
  unfold attach
  split
  · next owner _ _ _ _ _ _ _ =>
    cases owner with
    | none => exact h
    | some name => exact basesIn_receiver h _ name _
  · exact forall_nodes_modify (basesIn_parent h _ _ _) _ fun _ hn => hn
  · split
    · refine forall_nodes_modify h _ fun n hn => ?_
      split <;> exact hn
    · exact h
  · exact h
  · exact h

end Lowering

/-! ### Nodes -/

namespace SourceUnit

/-- A node as a unit can declare it: it is in the module of the unit, and only a router
stands for another node. -/
structure Declares (u : SourceUnit) (n : Node) : Prop where
  unit : n.unit = u.identity
  module : n.module = u.moduleName
  router : n.stands.isSome = true → n.kind = .router

variable {u : SourceUnit} {flag : Bool} {l : Lowering} {n : Node}

theorem Lowers.home (h : u.Lowers flag l) : l.identity = u.identity ∧ l.module = u.moduleName := by
  induction h with
  | start => exact ⟨rfl, rfl⟩
  | @declare l s _ _ ih =>
    have hgrows := Lowering.grows_declare (l := l) s
    exact ⟨hgrows.identity.trans ih.1, hgrows.module.trans ih.2⟩
  | @addBases l s _ _ ih =>
    have hgrows := Lowering.grows_addBases (l := l) l.IsRouter s
    exact ⟨hgrows.identity.trans ih.1, hgrows.module.trans ih.2⟩
  | @attach l s _ _ ih =>
    have hgrows := Lowering.grows_attach (l := l) s
    exact ⟨hgrows.identity.trans ih.1, hgrows.module.trans ih.2⟩

theorem Declares.of_bare {m : Node} (h : u.Declares m) (hbare : m.bare = n.bare) :
    u.Declares n where
  unit := (Node.unit_eq_of_bare hbare).symm.trans h.unit
  module := (Node.module_eq_of_bare hbare).symm.trans h.module
  router hstands := by
    rw [← Node.stands_eq_of_bare hbare] at hstands
    rw [← Node.kind_eq_of_bare hbare]
    exact h.router hstands

theorem declares_grows {P : Node → Prop} {l' : Lowering} (hgrows : Lowering.Grows P l l')
    (hP : ∀ n, P n → u.Declares n) (h : ∀ n ∈ l.nodes, u.Declares n) :
    ∀ n ∈ l'.nodes, u.Declares n := by
  intro n hn
  rcases hgrows.cases hn with ⟨m, hm, hbare⟩ | ⟨m, hm, hbare⟩
  · exact (h m hm).of_bare hbare
  · exact (hP m hm).of_bare hbare

theorem Lowers.declares (h : u.Lowers flag l) : ∀ n ∈ l.nodes, u.Declares n := by
  induction h with
  | start => exact fun n hn => absurd hn List.not_mem_nil
  | @declare l s hl _ ih =>
    refine declares_grows (Lowering.grows_declare s) ?_ ih
    rintro n ⟨hunit, hmodule, hstands, -⟩
    exact ⟨hunit.trans hl.home.1, hmodule.trans hl.home.2,
      fun h => by rw [hstands] at h; contradiction⟩
  | @addBases l s hl _ ih =>
    exact declares_grows (Lowering.grows_addBases u.Declares s) (fun _ h => h) ih
  | @attach l s hl _ ih =>
    refine declares_grows (Lowering.grows_attach s) ?_ ih
    rintro n ⟨hunit, hmodule, hkind⟩
    exact ⟨hunit.trans hl.home.1, hmodule.trans hl.home.2, fun _ => hkind⟩

theorem Lowers.basesIn (h : u.Lowers flag l) : ∀ n ∈ l.nodes, n.BasesIn u.moduleName := by
  induction h with
  | start => exact fun n hn => absurd hn List.not_mem_nil
  | @declare l s _ _ ih => exact Lowering.basesIn_declare ih s
  | @addBases l s hl _ ih => exact hl.home.2 ▸ Lowering.basesIn_addBases (hl.home.2.symm ▸ ih) s
  | @attach l s _ _ ih => exact Lowering.basesIn_attach ih s

theorem declares_of_mem_report (hn : n ∈ (u.report flag).nodes) :
    u.Declares n ∧ n.BasesIn u.moduleName := by
  rw [nodes_report] at hn
  have hlowers : u.Lowers flag ((u.lowering flag).lower (u.reading flag).sightings).1 := .lower
  exact ⟨hlowers.declares n hn, hlowers.basesIn n hn⟩

end SourceUnit

end EndpointCensus
