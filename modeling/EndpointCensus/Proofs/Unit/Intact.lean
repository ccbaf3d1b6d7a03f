import EndpointCensus.Proofs.Composition.Coverage
import EndpointCensus.Proofs.Unit.Attachment

/-! References after lowering. A unit has one node for each name. Its fragments and links come from
its sightings one by one and in order, each link at one node, and a fragment that belongs to the
unit belongs to a node of it. An imported name means what was imported, for routes and links before
and after each other, as long as no node that is known by a dotted path takes the name. In a corpus,
the fragments that belong to their units are never left over. -/

namespace EndpointCensus

namespace Lowering

variable {l l' : Lowering}

theorem Introduced.congr (h : l'.imports = l.imports) {sightings : List Sighting} {n : Node}
    (hn : l'.Introduced sightings n) : l.Introduced sightings n := by
  have himported := imported?_congr h
  obtain ⟨s, hs, name, hintroduces, hname, hstands⟩ := hn
  refine ⟨s, hs, name, ?_, hname, himported ▸ hstands⟩
  rw [← hintroduces, introduces?, introduces?, himported]

/-- Steps of lowering keep all nodes. -/
theorem Grows.keeps {P : Node → Prop} (h : Grows P l l') {n : Node} (hn : n ∈ l.nodes) :
    ∃ m ∈ l'.nodes, m.bare = n.bare := by
  have hmem : n.bare ∈ l'.outline := by
    rcases h.outline with heq | ⟨_, -, -, heq⟩ <;> rw [heq]
    · exact mem_outline_of_mem hn
    · exact List.mem_append_left _ (mem_outline_of_mem hn)
  exact List.mem_map.mp hmem

theorem keeps_attachAll {ss : List Sighting} {n : Node} (hn : n ∈ l.nodes) :
    ∃ m ∈ (l.attachAll ss).1.nodes, m.bare = n.bare := by
  induction ss generalizing l n with
  | nil => exact ⟨n, hn, rfl⟩
  | cons s ss ih =>
    obtain ⟨k, hk, hbare⟩ := (grows_attach s).keeps hn
    obtain ⟨m, hm, hrest⟩ := ih (l := (l.attach s).1) hk
    exact ⟨m, hm, hrest.trans hbare⟩

end Lowering

namespace SourceUnit

variable {u : SourceUnit} {flag : Bool} {l : Lowering} {s : Sighting} {ss : List Sighting}

theorem Lowers.sound (h : u.Lowers flag l) : l.Sound (u.reading flag).sightings := by
  induction h with
  | start =>
    exact ⟨List.nodup_nil, fun _ hn => absurd hn List.not_mem_nil,
      fun _ hn => absurd hn List.not_mem_nil⟩
  | @declare l s _ hs ih =>
    refine Lowering.sound_grows ih (Lowering.grows_declare s) ?_
    rintro n ⟨hunit, hmodule, hstands, hview⟩
    exact ⟨hunit, hmodule, fun hkind => ⟨hstands, s, hs, hview hkind⟩⟩
  | @addBases l s _ _ ih =>
    exact Lowering.sound_grows ih (Lowering.grows_addBases (fun _ => False) s) fun _ h => h.elim
  | attach _ _ ih => exact ih.attach _

theorem Lowers.imports_lowering (h : u.Lowers flag l) : l.imports = (u.lowering flag).imports := by
  rw [h.imports, lowering]

/-- Every node of a unit goes back to one of its sightings. -/
theorem Lowers.introduced (h : u.Lowers flag l) :
    ∀ n ∈ l.nodes, (u.lowering flag).Introduced (u.reading flag).sightings n := by
  have hstep {l : Lowering} (hl : u.Lowers flag l) {n : Node}
      (hn : l.Introduced (u.reading flag).sightings n) :
      (u.lowering flag).Introduced (u.reading flag).sightings n := hn.congr hl.imports_lowering
  have hback {l : Lowering} (hl : u.Lowers flag l) {n : Node}
      (hn : (u.lowering flag).Introduced (u.reading flag).sightings n) :
      l.Introduced (u.reading flag).sightings n := hn.congr hl.imports_lowering.symm
  induction h with
  | start => exact fun _ hn => absurd hn List.not_mem_nil
  | declare hl hs ih =>
    exact fun n hn => hstep hl (Lowering.introduced_declare (fun n hn => hback hl (ih n hn)) hs n hn)
  | addBases hl _ ih =>
    exact fun n hn => hstep hl (Lowering.introduced_addBases (fun n hn => hback hl (ih n hn)) _ n hn)
  | attach hl hs ih =>
    exact fun n hn => hstep hl (Lowering.introduced_attach (fun n hn => hback hl (ih n hn)) hs n hn)

/-- The name is imported, and nothing else in the unit introduces a node that it
may mean in these scopes. -/
def MeansImported (u : SourceUnit) (flag : Bool) (scope : List (List Char)) (name : List Char)
    (r : Reference) : Prop :=
  (u.lowering flag).imported? name = some r ∧
  (u.lowering flag).Alone (u.reading flag).sightings scope name

/-- The fragment that a unit makes of a sighting, beside its nodes. -/
structure FragmentOf (u : SourceUnit) (flag : Bool) (nodes : List Node) (s : Sighting)
    (f : Fragment) : Prop where
  fields : s.fragment? u.identity f.key = some f
  keyed : f.key.isSome = s.emission.receiver?.isSome
  own : ∀ key, f.key = some key → key.unit.isSome = true →
    ∃ n ∈ nodes, key = .inUnit u.identity u.moduleName n.name
  imported : ∀ name r, s.emission.receiver? = some name → u.MeansImported flag s.scope name r →
    f.key = some r

/-- The link that a unit makes of a sighting, and the name of the node that it is kept at. -/
structure LinkOf (u : SourceUnit) (flag : Bool) (nodes : List Node) (s : Sighting)
    (p : String × Link) : Prop where
  fields : ∃ l, u.Lowers flag l ∧ s.link? u.identity (l.reference s.scope) = some p.2
  home : ∃ n ∈ nodes, n.name = p.1
  imported : ∀ name r, s.emission.parent? = some name → u.MeansImported flag s.scope name r →
    ∃ n ∈ nodes, n.name = p.1 ∧ n.stands = some r

theorem MeansImported.stage {scope : List (List Char)} {name : List Char} {r : Reference}
    (h : u.MeansImported flag scope name r) (hl : u.Lowers flag l) :
    l.imported? name = some r ∧ (∀ n ∈ l.nodes, l.Introduced (u.reading flag).sightings n) ∧
      l.Alone (u.reading flag).sightings scope name := by
  have himports := hl.imports_lowering
  have himported := Lowering.imported?_congr (l := u.lowering flag) himports
  refine ⟨(congrFun himported name).trans h.1, fun n hn => (hl.introduced n hn).congr himports.symm,
    fun s hs other hother => ?_⟩
  refine h.2 s hs other ?_
  rw [Lowering.introduces?, himported] at hother
  exact hother

/-! ### One sighting -/

variable {nodes nodes' : List Node}

theorem FragmentOf.mono (hkeeps : ∀ n ∈ nodes, ∃ m ∈ nodes', m.bare = n.bare) {f : Fragment}
    (h : u.FragmentOf flag nodes s f) : u.FragmentOf flag nodes' s f := by
  refine ⟨h.fields, h.keyed, fun key hkey hunit => ?_, h.imported⟩
  obtain ⟨n, hn, rfl⟩ := h.own key hkey hunit
  obtain ⟨m, hm, hbare⟩ := hkeeps n hn
  exact ⟨m, hm, by rw [Node.name_eq_of_bare hbare]⟩

theorem LinkOf.mono (hkeeps : ∀ n ∈ nodes, ∃ m ∈ nodes', m.bare = n.bare) {p : String × Link}
    (h : u.LinkOf flag nodes s p) : u.LinkOf flag nodes' s p := by
  refine ⟨h.fields, ?_, fun name r hname hmeans => ?_⟩
  · obtain ⟨n, hn, hhome⟩ := h.home
    obtain ⟨m, hm, hbare⟩ := hkeeps n hn
    exact ⟨m, hm, (Node.name_eq_of_bare hbare).trans hhome⟩
  · obtain ⟨n, hn, hhome, hstands⟩ := h.imported name r hname hmeans
    obtain ⟨m, hm, hbare⟩ := hkeeps n hn
    exact ⟨m, hm, (Node.name_eq_of_bare hbare).trans hhome,
      (Node.stands_eq_of_bare hbare).trans hstands⟩

theorem attach_fragment (hl : u.Lowers flag l) (hs : s.emission.isFragment = true) :
    ∃ f, (l.attach s).2 = some f ∧ u.FragmentOf flag (l.attach s).1.nodes s f := by
  obtain ⟨hidentity, hmodule⟩ := hl.home
  rcases hemission : s.emission with ⟨owner, method, path, symbol, action, line,
    metadata⟩ | _ | _ | _ | _ <;>
    rw [hemission] at hs <;> try contradiction
  rw [Lowering.attach, hemission]
  cases owner with
  | none =>
    refine ⟨_, rfl, ?_, by rw [hemission]; rfl, fun _ hkey => ?_, fun _ _ hname => ?_⟩
    · rw [Sighting.fragment?, hemission, hidentity]
    · cases hkey
    · rw [hemission] at hname
      cases hname
  | some name =>
    refine ⟨_, rfl, ?_, by rw [hemission]; rfl, fun key hkey hunit => ?_,
      fun other r hother hmeans => ?_⟩
    · have hsame : (l.receiver s.scope name line).1.identity = u.identity :=
        (Lowering.grows_receiver s.scope name line).identity.trans hidentity
      rw [Sighting.fragment?, hemission]
      simp only [Prod.map_fst, Prod.map_snd, id_eq, hsame]
    · cases hkey
      have hintroduced : ∀ n ∈ l.nodes, l.Introduced (u.reading flag).sightings n :=
        fun n hn => (hl.introduced n hn).congr hl.imports_lowering.symm
      obtain ⟨n, hn, hlocal⟩ := Lowering.receiver_of_unit hintroduced line hunit
      exact ⟨n, hn, by rw [← hidentity, ← hmodule]; exact hlocal⟩
    · rw [hemission] at hother
      cases hother
      obtain ⟨himported, hintroduced, halone⟩ := hmeans.stage hl
      exact congrArg some (Lowering.receiver_of_imported? hintroduced halone himported line)

theorem attach_of_not_fragment (l : Lowering) (hs : s.emission.isFragment = false) :
    (l.attach s).2 = none := by
  rcases hemission : s.emission with _ | _ | _ | _ | _ <;> rw [hemission] at hs <;>
    try contradiction
  all_goals rw [Lowering.attach, hemission]
  dsimp only
  split <;> rfl

theorem attach_link (hl : u.Lowers flag l) (hs : s.emission.isLink = true) :
    ∃ p, l.placed? s = some p ∧ u.LinkOf flag (l.attach s).1.nodes s p := by
  rcases hemission : s.emission with _ | _ | ⟨owner, target, binding, path, metadata,
    line⟩ | _ | _ <;>
    rw [hemission] at hs <;> try contradiction
  have hgrows : Lowering.Grows (fun _ => False) (l.parent s.scope owner line).1 (l.attach s).1 := by
    rw [Lowering.attach, hemission]
    exact (Lowering.Grows.refl _ _).modify _ fun _ => rfl
  obtain ⟨link, hlink⟩ : ∃ link, s.link? l.identity (l.reference s.scope) = some link := by
    rw [Sighting.link?, hemission]
    exact ⟨_, rfl⟩
  refine ⟨((l.parent s.scope owner line).2, link), ?_, .mono (fun _ => hgrows.keeps) ?_⟩
  · rw [Lowering.placed?, hemission]
    dsimp only
    rw [hlink]
    rfl
  refine ⟨⟨l, hl, hl.home.1 ▸ hlink⟩, Lowering.has_iff.mp (l.has_parent s.scope owner line), ?_⟩
  intro name r hname hmeans
  rw [hemission] at hname
  cases hname
  obtain ⟨himported, hintroduced, halone⟩ := hmeans.stage hl
  exact Lowering.parent_of_imported? hintroduced halone himported line

theorem placed?_of_not_link (l : Lowering) (hs : s.emission.isLink = false) :
    l.placed? s = none := by
  rcases hemission : s.emission with _ | _ | _ | _ | _ <;> rw [hemission] at hs <;>
    try contradiction
  all_goals rw [Lowering.placed?, hemission]

/-! ### All sightings -/

/-- Fragments come in the order of their sightings. -/
theorem Lowers.fragments_attachAll (hl : u.Lowers flag l)
    (hss : ∀ s ∈ ss, s ∈ (u.reading flag).sightings) :
    List.Forall₂ (u.FragmentOf flag (l.attachAll ss).1.nodes)
      (ss.filter fun s => s.emission.isFragment) (l.attachAll ss).2 := by
  induction ss generalizing l with
  | nil => exact .nil
  | cons s ss ih =>
    obtain ⟨hs, hrest⟩ := List.forall_mem_cons.mp hss
    have hnext := hl.attach hs
    have hfragments : (l.attachAll (s :: ss)).2 = (l.attach s).2.toList ++
        ((l.attach s).1.attachAll ss).2 := rfl
    rw [hfragments, List.filter_cons]
    rcases hkind : s.emission.isFragment with _ | _
    · rw [attach_of_not_fragment l hkind]
      exact ih hnext hrest
    · obtain ⟨f, hf, hof⟩ := attach_fragment hl hkind
      rw [hf]
      exact .cons (hof.mono fun _ hn => Lowering.keeps_attachAll hn) (ih hnext hrest)

/-- Links come in the order of their sightings. -/
theorem Lowers.links_attachAll (hl : u.Lowers flag l)
    (hss : ∀ s ∈ ss, s ∈ (u.reading flag).sightings) :
    List.Forall₂ (u.LinkOf flag (l.attachAll ss).1.nodes) (ss.filter fun s => s.emission.isLink)
      (l.placements ss) := by
  induction ss generalizing l with
  | nil => exact .nil
  | cons s ss ih =>
    obtain ⟨hs, hrest⟩ := List.forall_mem_cons.mp hss
    have hnext := hl.attach hs
    rw [Lowering.placements, List.filter_cons]
    rcases hkind : s.emission.isLink with _ | _
    · rw [placed?_of_not_link l hkind]
      exact ih hnext hrest
    · obtain ⟨p, hp, hof⟩ := attach_link hl hkind
      rw [hp]
      exact .cons (hof.mono fun _ hn => Lowering.keeps_attachAll hn) (ih hnext hrest)

/-- The lowering of a unit when all its nodes are declared. -/
def declared (u : SourceUnit) (flag : Bool) : Lowering :=
  (u.reading flag).sightings.foldl Lowering.addBases
    ((u.reading flag).sightings.foldl Lowering.declare (u.lowering flag))

theorem lowers_declared (u : SourceUnit) (flag : Bool) : u.Lowers flag (u.declared flag) := by
  have hstart : u.Lowers flag (u.lowering flag) := .start
  have hdeclared := hstart.foldl (fun _ hl _ hs => hl.declare hs) fun _ hs => hs
  exact hdeclared.foldl (fun _ hl _ hs => hl.addBases hs) fun _ hs => hs

theorem linksAt_declared (u : SourceUnit) (flag : Bool) (key : String) :
    (u.declared flag).linksAt key = [] := by
  have hfold (step : Lowering → Sighting → Lowering) (hstep : ∀ l s, (step l s).linksAt key =
      l.linksAt key) (ss : List Sighting) (l : Lowering) : (ss.foldl step l).linksAt key =
        l.linksAt key := by
    induction ss generalizing l with
    | nil => rfl
    | cons s ss ih => exact (ih _).trans (hstep l s)
  rw [declared, hfold _ fun l s => l.linksAt_addBases s key,
    hfold _ fun l s => l.linksAt_declare s key]
  rfl

/-- The references of a unit hold together: names are unique, and fragments and links come from
their sightings one by one, each link at one node of the unit. -/
structure Intact (u : SourceUnit) (flag : Bool) : Prop where
  nodup : ((u.report flag).nodes.map Node.name).Nodup
  fragments : List.Forall₂ (u.FragmentOf flag (u.report flag).nodes)
    ((u.reading flag).sightings.filter fun s => s.emission.isFragment) (u.report flag).fragments
  links : ∃ placed : List (String × Link),
    List.Forall₂ (u.LinkOf flag (u.report flag).nodes)
      ((u.reading flag).sightings.filter fun s => s.emission.isLink) placed ∧
    ∀ n ∈ (u.report flag).nodes, n.links = Lowering.linksPlaced n.name placed

/-- A report holds what attaching makes of the sightings when all nodes are declared. -/
theorem report_attachAll (u : SourceUnit) (flag : Bool) :
    (u.report flag).nodes = ((u.declared flag).attachAll (u.reading flag).sightings).1.nodes ∧
      (u.report flag).fragments = ((u.declared flag).attachAll (u.reading flag).sightings).2 := by
  rw [nodes_report, fragments_report, Lowering.lower, declared]
  exact ⟨rfl, rfl⟩

theorem intact (u : SourceUnit) (flag : Bool) : u.Intact flag := by
  have hdeclared := u.lowers_declared flag
  obtain ⟨hnodes, hfragments⟩ := u.report_attachAll flag
  have hnodup : (((u.declared flag).attachAll (u.reading flag).sightings).1.nodes.map
      Node.name).Nodup :=
    (hdeclared.attachAll fun _ hs => hs).sound.nodup
  refine ⟨?_, ?_, (u.declared flag).placements (u.reading flag).sightings, ?_, fun n hn => ?_⟩
  · rwa [hnodes]
  · rw [hnodes, hfragments]
    exact hdeclared.fragments_attachAll fun _ hs => hs
  · rw [hnodes]
    exact hdeclared.links_attachAll fun _ hs => hs
  · rw [hnodes] at hn
    calc n.links
        = ((u.declared flag).attachAll (u.reading flag).sightings).1.linksAt n.name :=
          (Lowering.linksAt_of_mem hnodup hn).symm
      _ = Lowering.linksPlaced n.name ((u.declared flag).placements (u.reading flag).sightings) := by
          rw [Lowering.linksAt_attachAll, linksAt_declared, List.nil_append]

theorem Intact.exists_sighting (h : u.Intact flag) {f : Fragment}
    (hf : f ∈ (u.report flag).fragments) :
    ∃ s ∈ (u.reading flag).sightings, s.emission.isFragment = true ∧
    u.FragmentOf flag (u.report flag).nodes s f := by
  obtain ⟨i, rfl⟩ := List.mem_iff_get.mp hf
  obtain ⟨hlength, hpairs⟩ := List.forall₂_iff_get.mp h.fragments
  have hi := i.isLt.trans_eq hlength.symm
  obtain ⟨hs, hkind⟩ := List.mem_filter.mp (List.getElem_mem hi)
  exact ⟨_, hs, hkind, hpairs i hi i.isLt⟩

theorem Intact.exists_link (h : u.Intact flag) (hs : s ∈ (u.reading flag).sightings)
    (hkind : s.emission.isLink = true) : ∃ p, u.LinkOf flag (u.report flag).nodes s p := by
  obtain ⟨placed, hplaced, -⟩ := h.links
  have hmem : s ∈ (u.reading flag).sightings.filter fun s => s.emission.isLink :=
    List.mem_filter.mpr ⟨hs, hkind⟩
  obtain ⟨i, hi⟩ := List.mem_iff_get.mp hmem
  obtain ⟨hlength, hpairs⟩ := List.forall₂_iff_get.mp hplaced
  have hof := hpairs i i.isLt (i.isLt.trans_eq hlength)
  rw [hi] at hof
  exact ⟨_, hof⟩

/-- A fragment of the unit that belongs to it belongs to one of its nodes. -/
theorem Intact.own (h : u.Intact flag) {f : Fragment} (hf : f ∈ (u.report flag).fragments)
    {key : Reference} (hkey : f.key = some key) (hunit : key.unit.isSome = true) :
    ∃ n ∈ (u.report flag).nodes, key = .inUnit u.identity u.moduleName n.name := by
  obtain ⟨s, -, -, hof⟩ := h.exists_sighting hf
  exact hof.own key hkey hunit

end SourceUnit

/-! ### Corpora -/

namespace Graph

/-- The key of a node stays when others are inserted. -/
theorem exists_key_insert (nodes : List Node) (m : Node) :
    (∃ k ∈ insert nodes m, k.key = m.key) ∧ ∀ n ∈ nodes, ∃ k ∈ insert nodes m, k.key = n.key := by
  unfold insert
  dsimp only
  split
  next hany =>
    have hmap : ∀ n ∈ nodes, ∃ k ∈ nodes.map (fun n => if n.unit == m.unit && n.name == m.name
        then mergeNode n m else n), k.key = n.key := by
      intro n hn
      refine ⟨_, List.mem_map.mpr ⟨n, hn, rfl⟩, ?_⟩
      split
      · exact Prod.ext (Node.unit_eq_of_bare (bare_mergeNode n m))
          (Node.name_eq_of_bare (bare_mergeNode n m))
      · rfl
    obtain ⟨n, hn, hsame⟩ := List.any_eq_true.mp hany
    obtain ⟨hunit, hname⟩ := Bool.and_eq_true_iff.mp hsame
    obtain ⟨k, hk, hkey⟩ := hmap n hn
    exact ⟨⟨k, hk, hkey.trans (Prod.ext (beq_iff_eq.mp hunit) (beq_iff_eq.mp hname))⟩, hmap⟩
  next =>
    exact ⟨⟨m, List.mem_concat_self .., rfl⟩, fun n hn => ⟨n, List.mem_append_left _ hn, rfl⟩⟩

theorem exists_key_foldl_insert (nodes acc : List Node) :
    ∀ n ∈ acc ++ nodes, ∃ k ∈ nodes.foldl insert acc, k.key = n.key := by
  induction nodes generalizing acc with
  | nil => exact fun n hn => ⟨n, List.append_nil acc ▸ hn, rfl⟩
  | cons m nodes ih =>
    obtain ⟨hm, hacc⟩ := exists_key_insert acc m
    have hrest {n k : Node} (hk : k ∈ insert acc m) (hkey : k.key = n.key) :
        ∃ x ∈ (m :: nodes).foldl insert acc, x.key = n.key := by
      obtain ⟨x, hx, hxkey⟩ := ih (insert acc m) k (List.mem_append_left _ hk)
      exact ⟨x, hx, hxkey.trans hkey⟩
    intro n hn
    rcases List.mem_append.mp hn with hn | hn
    · obtain ⟨k, hk, hkey⟩ := hacc n hn
      exact hrest hk hkey
    · rcases List.mem_cons.mp hn with rfl | hn
      · obtain ⟨k, hk, hkey⟩ := hm
        exact hrest hk hkey
      · exact ih (insert acc m) n (List.mem_append_right _ hn)

/-- A reference within a unit leads somewhere if the unit has a node of the
name, be it a stand-in. -/
theorem exists_lookup?_inUnit {nodes : List Node} {n : Node} (hn : n ∈ nodes) (module : String) :
    ∃ i, (ofNodes nodes).absorbAll.1.lookup? (.inUnit n.unit module n.name) = some i := by
  obtain ⟨k, hk, hkey⟩ : ∃ k ∈ (ofNodes nodes).absorbAll.1.nodes, k.key = n.key := by
    have hkeys := map_key_eq (bare_absorbAll nodes)
    have hmem : n.key ∈ (ofNodes nodes).nodes.map Node.key :=
      List.mem_map.mpr (exists_key_foldl_insert nodes [] n hn)
    exact List.mem_map.mp (hkeys ▸ hmem)
  generalize (ofNodes nodes).absorbAll.1 = g at hk
  obtain ⟨hunit, hname⟩ := Prod.mk.inj hkey
  obtain ⟨i, hi⟩ := List.getElem?_of_mem hk
  have hfind : ((g.places.filter fun c => c.1.unit == n.unit).find? fun c => c.1.name ==
      n.name).isSome = true :=
    List.find?_isSome.mpr ⟨(k, i), List.mem_filter.mpr ⟨mem_places.mpr hi, beq_iff_eq.mpr hunit⟩,
      beq_iff_eq.mpr hname⟩
  obtain ⟨c, hc⟩ := Option.isSome_iff_exists.mp hfind
  have hinUnit : g.inUnit? (.inUnit n.unit module n.name) n.unit = some c.2 := by
    simp only [inUnit?, Reference.inUnit, Bool.false_eq_true, if_false, hc, Option.map_some]
  have hnamed : g.named? (.inUnit n.unit module n.name) = some c.2 :=
    Option.or_eq_some_iff.mpr (.inl hinUnit)
  exact ⟨g.settle c.2, by rw [lookup?, hnamed, Option.map_some]⟩

end Graph

namespace Composition

open SourceUnit

/-- A fragment of some unit that belongs to the unit finds its node in the corpus. -/
theorem exists_home_of_unit (units : List SourceUnit) (flag : Bool) {f : Fragment}
    (hf : f ∈ (units.map (·.report flag)).flatMap UnitReport.fragments) {key : Reference}
    (hkey : f.key = some key) (hunit : key.unit.isSome = true) :
    ∃ i, (Graph.ofNodes ((units.map (·.report flag)).flatMap UnitReport.nodes)).absorbAll.1.lookup?
      key = some i := by
  obtain ⟨report, hreport, hf⟩ := List.mem_flatMap.mp hf
  obtain ⟨u, -, rfl⟩ := List.mem_map.mp hreport
  obtain ⟨n, hn, rfl⟩ := (u.intact flag).own hf hkey hunit
  have hnunit : n.unit = u.identity := (declares_of_mem_report hn).1.unit
  exact hnunit ▸ Graph.exists_lookup?_inUnit (List.mem_flatMap.mpr ⟨_, hreport, hn⟩) _

/-- References within a unit are intact after lowering, and lead to nodes in every corpus with the
unit. The endpoints of a corpus are those of fragments that belong to no unit and have no node, and
those at nodes, which are resolved. -/
theorem references_are_intact (flag : Bool) :
    (∀ (i : Idiom) (r : Reading) (es : List Emission), (es.foldl (Reading.record i) r).sightings =
      r.sightings ++ (es.filter Emission.isSighted).map (r.sighting i)) ∧
    (∀ u : SourceUnit, u.Intact flag) ∧
    ∀ units : List SourceUnit,
      let fragments := (units.map (·.report flag)).flatMap UnitReport.fragments
      let nodes := (units.map (·.report flag)).flatMap UnitReport.nodes
      let c := Corpus.ofParts fragments nodes
      (∀ f ∈ fragments, ∀ key, f.key = some key → key.unit.isSome = true →
        ∃ i, c.graph.lookup? key = some i ∧ f ∈ c.fragmentsOf i) ∧
      (ofParts fragments nodes).endpoints =
        (fragments.filter fun f => f.key.all (·.unit.isNone)).flatMap
          (fun f => (stray c.graph f).endpoints) ++ c.points.flatMap c.share ∧
      ∀ u : Usage, ∀ e ∈ c.share (.node u), e.unresolved = none := by
  refine ⟨Reading.sightings_foldl_record, fun u => u.intact flag, fun units => ?_⟩
  intro fragments nodes c
  have hhome {f : Fragment} (hf : f ∈ fragments) {key : Reference} (hkey : f.key = some key)
      (hunit : key.unit.isSome = true) : ∃ i, c.graph.lookup? key = some i :=
    exists_home_of_unit units flag hf hkey hunit
  refine ⟨fun f hf key hkey hunit => ?_, ?_, fun u e he => ?_⟩
  · obtain ⟨i, hi⟩ := hhome hf hkey hunit
    refine ⟨i, hi, ?_⟩
    rw [Corpus.fragmentsOf_ofParts]
    exact List.mem_filter.mpr ⟨hf, by rw [Graph.home?, hkey, Option.bind_some, hi, beq_self_eq_true]⟩
  · have hstrays : fragments.flatMap (fun f => (stray c.graph f).endpoints) =
        (fragments.filter fun f => f.key.all (·.unit.isNone)).flatMap fun f =>
          (stray c.graph f).endpoints := by
      rw [← Corpus.flatMap_ite]
      refine List.flatMap_congr fun f hf => ?_
      split
      next => rfl
      next hunit =>
        obtain ⟨key, hkey, hsome⟩ : ∃ key, f.key = some key ∧ key.unit.isSome = true := by
          rcases hkey : f.key with _ | key <;> rw [hkey] at hunit <;>
            simp_all [Option.isSome_iff_ne_none]
        obtain ⟨i, hi⟩ := hhome hf hkey hsome
        rw [stray, hkey]
        dsimp only
        rw [hi]
    rw [endpoints_ofParts, Corpus.endpoints_walk (Corpus.closed_ofParts fragments nodes), hstrays]
  · obtain ⟨x, -, rfl⟩ := List.mem_map.mp he
    rfl

/-- An imported router with a route before its first link, a link, and a route after it. -/
def includingUnit : SourceUnit where
  identity := "a.py"
  language := .python
  text :=
  "from x import r\n@r.get('/one')\ndef f(): pass\nr.include_router(y)\n@r.get('/two')\ndef g(): pass\n"

theorem references_are_intact_including :
    includingUnit.MeansImported true [] "r".toList (.external "x" "r") ∧
      (∀ f ∈ (includingUnit.report true).fragments, f.key = some (.external "x" "r")) ∧
      ∃ n ∈ (includingUnit.report true).nodes, n.stands = some (.external "x" "r") := by
  have hmeans : includingUnit.MeansImported true [] "r".toList (.external "x" "r") := by
    unfold SourceUnit.MeansImported Lowering.Alone SourceUnit.lowering SourceUnit.reading
    rw [show includingUnit.text = String.ofList _ from rfl, String.toList_ofList]
    decide +kernel
  have hsightings : (∀ s ∈ (includingUnit.reading true).sightings, s.emission.isFragment = true →
        s.scope = [] ∧ s.emission.receiver? = some "r".toList) ∧
      ∃ s ∈ (includingUnit.reading true).sightings, s.emission.isLink = true ∧ s.scope = [] ∧
        s.emission.parent? = some "r".toList := by
    rw [SourceUnit.reading, show includingUnit.text = String.ofList _ from rfl, String.toList_ofList]
    decide +kernel
  obtain ⟨hroutes, s, hs, hkind, hscope, hparent⟩ := hsightings
  obtain ⟨-, hintact, -⟩ := references_are_intact true
  refine ⟨hmeans, fun f hf => ?_, ?_⟩
  · obtain ⟨t, ht, hroute, hof⟩ := (hintact includingUnit).exists_sighting hf
    obtain ⟨htscope, hreceiver⟩ := hroutes t ht hroute
    exact hof.imported _ _ hreceiver (htscope ▸ hmeans)
  · obtain ⟨p, hof⟩ := (hintact includingUnit).exists_link hs hkind
    obtain ⟨n, hn, -, hstands⟩ := hof.imported _ _ hparent (hscope ▸ hmeans)
    exact ⟨n, hn, hstands⟩

/-- A receiver with a dotted name takes the node that an imported name has within the scope of the
first part. Both routes are on the same imported name, no node is declared, and yet they are
registered on different members. -/
theorem dotted_receiver_diverges :
    let unit : SourceUnit :=
      ⟨"a.py", .python, "from x import b, c\n@b.c.get('/one')\ndef f(): pass\n" ++
        "def b():\n    c.include_router(y)\n@b.c.get('/two')\ndef g(): pass\n"⟩
    (unit.lowering true).imported? "b.c".toList = some (.external "x.b" "c") ∧
      ((unit.reading true).sightings.map fun s => (s.scope, s.emission.receiver?,
        s.emission.parent?)) = [([], some "b.c".toList, none),
          (["b".toList], none, some "c".toList), ([], some "b.c".toList, none)] ∧
      ((unit.report true).fragments.map Fragment.key) =
        [some (.external "x.b" "c"), some (.external "x" "c")] := by
  intro unit
  have htext : unit.text = String.ofList _ ++ String.ofList _ := rfl
  rw [fragments_report, lowering, reading, htext, String.toList_append, String.toList_ofList,
    String.toList_ofList]
  decide +kernel

end Composition

end EndpointCensus
