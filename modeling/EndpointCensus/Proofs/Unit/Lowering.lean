import EndpointCensus.Proofs.Node
import EndpointCensus.Proofs.Unit.Sightings
import EndpointCensus.Unit.Report
import Mathlib.Data.List.Nodup

/-! The nodes of a unit while its sightings are lowered. A node is declared once for its name. What
comes later adds to its path, metadata, bases, aliases and links, and so leaves the bare node as it
is. A fragment that is registered on a function view therefore finds it, and every function view of
a unit has a fragment. -/

namespace EndpointCensus

namespace Lowering

/-- The bare nodes, in order of declaration. -/
def outline (l : Lowering) : List Node := l.nodes.map Node.bare

variable {l l' : Lowering}

theorem has_iff {name : String} : l.has name = true ↔ ∃ n ∈ l.nodes, n.name = name := by
  simp [has]

theorem mem_outline_of_mem {n : Node} (h : n ∈ l.nodes) :
    n.bare ∈ l.outline := List.mem_map.mpr ⟨n, h, rfl⟩

theorem map_name_outline : l.outline.map Node.name = l.nodes.map Node.name := by
  rw [outline, List.map_map]
  rfl

/-- A step that adds at most one node, under a name that is free, and leaves the
bare nodes as they are. -/
structure Grows (P : Node → Prop) (l l' : Lowering) : Prop where
  identity : l'.identity = l.identity
  module : l'.module = l.module
  outline : l'.outline = l.outline ∨
    ∃ n, P n ∧ l.has n.name = false ∧ l'.outline = l.outline ++ [n.bare]

namespace Grows

variable {P : Node → Prop}

theorem refl (P : Node → Prop) (l : Lowering) : Grows P l l := ⟨rfl, rfl, .inl rfl⟩

/-- Every later node is an earlier one, or the one that was added. -/
theorem cases (h : Grows P l l') {n : Node} (hn : n ∈ l'.nodes) :
    (∃ m ∈ l.nodes, m.bare = n.bare) ∨ ∃ m, P m ∧ m.bare = n.bare := by
  have hmem := mem_outline_of_mem hn
  rcases h.outline with heq | ⟨m, hm, -, heq⟩
  · rw [heq] at hmem
    exact .inl (List.mem_map.mp hmem)
  · rw [heq] at hmem
    rcases List.mem_append.mp hmem with hmem | hmem
    · exact .inl (List.mem_map.mp hmem)
    · exact .inr ⟨m, hm, (List.mem_singleton.mp hmem).symm⟩

theorem modify (h : Grows P l l') (name : String) {f : Node → Node}
    (hf : ∀ n, (f n).bare = n.bare) : Grows P l (l'.modify name f) := by
  have hsame : (l'.modify name f).outline = l'.outline := by
    rw [Lowering.outline, Lowering.modify, List.map_map]
    refine List.map_congr_left fun n _ => ?_
    simp only [Function.comp_apply]
    split
    · exact hf n
    · rfl
  exact ⟨h.identity, h.module, hsame ▸ h.outline⟩

end Grows

theorem grows_add {P : Node → Prop} {n : Node} (hn : P n) : Grows P l (l.add n) := by
  unfold add
  split
  · exact .refl P l
  · next hfree =>
    refine ⟨rfl, rfl, .inr ⟨n, hn, Bool.eq_false_iff.mpr hfree, ?_⟩⟩
    rw [outline, List.map_append]
    rfl

theorem identity_add (l : Lowering) (n : Node) :
    (l.add n).identity = l.identity ∧ (l.add n).module = l.module := by
  unfold add
  split <;> exact ⟨rfl, rfl⟩

/-- A change to the name of a node that was just added changes no other node. -/
theorem nodes_modify_add {n : Node} (hfree : l.has n.name = false) (f : Node → Node) :
    ((l.add n).modify n.name f).nodes = l.nodes ++ [f n] := by
  have hother : ∀ m ∈ l.nodes, m.name ≠ n.name := by
    intro m hm hname
    rw [has_iff.mpr ⟨m, hm, hname⟩] at hfree
    contradiction
  have hadd : l.add n = { l with nodes := l.nodes ++ [n] } := by
    rw [add, hfree]
    rfl
  have hid : l.nodes.map (fun m => if m.name == n.name then f m else m) = l.nodes.map id :=
    List.map_congr_left fun m hm => by simp [hother m hm]
  calc ((l.add n).modify n.name f).nodes
      = (l.nodes ++ [n]).map (fun m => if m.name == n.name then f m else m) := by rw [hadd, modify]
    _ = l.nodes ++ [f n] := by rw [List.map_append, hid, List.map_id]; simp

/-! ### Names in scopes -/

theorem range_succ_reverse (n : Nat) :
    (List.range (n + 1)).reverse = n :: (List.range n).reverse := by
  rw [List.range_succ, List.reverse_append]
  rfl

/-- A name declared in the innermost scope is the one that is meant. -/
theorem visible?_of_has {scope : List (List Char)} {name : List Char}
    (h : l.has (scopedName scope name) = true) :
    l.visible? scope name = some (scopedName scope name) := by
  rw [visible?, range_succ_reverse, List.map_cons, List.take_length, List.find?_cons, h]

theorem has_of_visible?_none {scope : List (List Char)} {name : List Char}
    (h : l.visible? scope name = none) : l.has (scopedName scope name) = false := by
  rw [visible?, range_succ_reverse, List.map_cons, List.take_length, List.find?_cons] at h
  split at h
  · contradiction
  · next hfree => exact hfree

/-! ### Steps -/

/-- A router of the unit. -/
def IsRouter (l : Lowering) (n : Node) : Prop :=
  n.unit = l.identity ∧ n.module = l.module ∧ n.kind = .router

theorem grows_addImplicit (key : String) (line : Nat) :
    Grows l.IsRouter l (l.addImplicit key line) :=
  grows_add ⟨rfl, rfl, rfl⟩

theorem grows_receiver (scope : List (List Char)) (name : List Char) (line : Nat) :
    Grows l.IsRouter l (l.receiver scope name line).1 := by
  unfold receiver
  split
  · exact .refl _ l
  · split
    · exact .refl _ l
    · exact grows_addImplicit _ line

/-- A stand-in is a router that is new. -/
theorem grows_parent (scope : List (List Char)) (name : List Char) (line : Nat) :
    Grows l.IsRouter l (l.parent scope name line).1 := by
  unfold parent
  split
  · exact .refl _ l
  · next hvisible =>
    have hfree := has_of_visible?_none hvisible
    dsimp only
    split
    · next r _ =>
      let new := l.newNode (scopedName scope name) .router line
      have hnodes := nodes_modify_add (n := new) hfree fun n => { n with stands := some r }
      have hsame := identity_add l new
      refine ⟨hsame.1, hsame.2, .inr ⟨{ new with stands := some r }, ⟨rfl, rfl, rfl⟩, hfree, ?_⟩⟩
      exact (congrArg (List.map Node.bare) hnodes).trans List.map_append
    · exact grows_addImplicit _ line

theorem grows_attach (s : Sighting) : Grows l.IsRouter l (l.attach s).1 := by
  unfold attach
  split
  · next owner _ _ _ _ _ _ _ =>
    cases owner with
    | none => exact .refl _ l
    | some name => exact grows_receiver _ name _
  · exact (grows_parent _ _ _).modify _ fun _ => rfl
  · split
    · refine (Grows.refl _ l).modify _ fun n => ?_
      split <;> rfl
    · exact .refl _ l
  · exact .refl _ l
  · exact .refl _ l

/-- A node of the unit that is no stand-in, and that is sighted if it is a function view. -/
def IsDeclared (l : Lowering) (s : Sighting) (n : Node) : Prop :=
  n.unit = l.identity ∧ n.module = l.module ∧ n.stands = none ∧
    (n.kind = .viewFunction →
      ∃ name, s.emission.functionView? = some name ∧ n.name = scopedName s.scope name)

theorem grows_declare (s : Sighting) : Grows (l.IsDeclared s) l (l.declare s) := by
  unfold declare
  split
  · next name kind path metadata bases line hemission =>
    refine (grows_add ⟨rfl, rfl, rfl, fun hkind => ⟨name, ?_, rfl⟩⟩).modify _ fun _ => rfl
    have hkind : kind = .viewFunction := hkind
    rw [hemission, hkind]
    rfl
  · exact .refl _ l

theorem grows_addBases (P : Node → Prop) (s : Sighting) : Grows P l (l.addBases s) := by
  unfold addBases
  split
  · exact (Grows.refl P l).modify _ fun _ => rfl
  · exact .refl P l

/-! ### All sightings -/

/-- What holds of the nodes of a unit at any time: names are unique, all nodes are the unit's own,
and every function view is sighted and is no stand-in. -/
structure Sound (sightings : List Sighting) (l : Lowering) : Prop where
  nodup : (l.nodes.map Node.name).Nodup
  home : ∀ n ∈ l.nodes, n.unit = l.identity ∧ n.module = l.module
  view : ∀ n ∈ l.nodes, n.kind = .viewFunction → n.stands = none ∧
    ∃ s ∈ sightings, ∃ name, s.emission.functionView? = some name ∧ n.name = scopedName s.scope name

variable {sightings : List Sighting}

theorem sound_grows {P : Node → Prop} (hs : l.Sound sightings) (h : Grows P l l')
    (hP : ∀ n, P n → n.unit = l.identity ∧ n.module = l.module ∧
      (n.kind = .viewFunction → n.stands = none ∧
        ∃ s ∈ sightings, ∃ name, s.emission.functionView? = some name ∧
          n.name = scopedName s.scope name)) :
    l'.Sound sightings where
  nodup := by
    rw [← map_name_outline]
    rcases h.outline with heq | ⟨n, -, hfree, heq⟩
    · rw [heq, map_name_outline]
      exact hs.nodup
    · rw [heq, List.map_append, map_name_outline, List.nodup_append]
      refine ⟨hs.nodup, List.nodup_singleton _, fun a ha b hb hab => ?_⟩
      obtain ⟨m, hm, rfl⟩ := List.mem_map.mp ha
      have hname : m.name = n.name := by
        rw [hab, List.mem_singleton.mp hb]
        rfl
      rw [has_iff.mpr ⟨m, hm, hname⟩] at hfree
      contradiction
  home n hn := by
    rw [h.identity, h.module]
    rcases h.cases hn with ⟨m, hm, heq⟩ | ⟨m, hm, heq⟩ <;>
      rw [← Node.unit_eq_of_bare heq, ← Node.module_eq_of_bare heq]
    · exact hs.home m hm
    · exact ⟨(hP m hm).1, (hP m hm).2.1⟩
  view n hn hkind := by
    rcases h.cases hn with ⟨m, hm, heq⟩ | ⟨m, hm, heq⟩ <;>
      rw [← Node.kind_eq_of_bare heq] at hkind <;>
      rw [← Node.stands_eq_of_bare heq, ← Node.name_eq_of_bare heq]
    · exact hs.view m hm hkind
    · exact (hP m hm).2.2 hkind

theorem Sound.attach (hs : l.Sound sightings) (s : Sighting) : (l.attach s).1.Sound sightings := by
  refine sound_grows hs (grows_attach s) ?_
  rintro n ⟨hunit, hmodule, hkind⟩
  refine ⟨hunit, hmodule, fun hview => ?_⟩
  rw [hkind] at hview
  contradiction

/-- Steps that do no more than declare keep a unit sound and leave its identity as it is. -/
theorem Sound.foldl {step : Lowering → Sighting → Lowering}
    (hstep : ∀ l s, Grows (IsDeclared l s) l (step l s)) (hs : l.Sound sightings)
    {ss : List Sighting} (hss : ∀ s ∈ ss, s ∈ sightings) :
    (ss.foldl step l).Sound sightings ∧ (ss.foldl step l).identity = l.identity ∧
      (ss.foldl step l).module = l.module := by
  induction ss generalizing l with
  | nil => exact ⟨hs, rfl, rfl⟩
  | cons s ss ih =>
    have hgrows := hstep l s
    have hnext : (step l s).Sound sightings := by
      refine sound_grows hs hgrows ?_
      rintro n ⟨hunit, hmodule, hstands, hview⟩
      exact ⟨hunit, hmodule, fun hkind => ⟨hstands, s, hss s (List.mem_cons_self ..), hview hkind⟩⟩
    have hrest := ih hnext fun t ht => hss t (List.mem_cons_of_mem s ht)
    rw [hgrows.identity, hgrows.module] at hrest
    exact hrest

/-! ### Function views -/

/-- Fragments and links declare no function view. -/
theorem view_of_mem_attachAll {ss : List Sighting} {n : Node} (hn : n ∈ (l.attachAll ss).1.nodes)
    (hkind : n.kind = .viewFunction) : ∃ m ∈ l.nodes, m.bare = n.bare := by
  induction ss generalizing l with
  | nil => exact ⟨n, hn, rfl⟩
  | cons s ss ih =>
    obtain ⟨m, hm, heq⟩ := ih (l := (l.attach s).1) hn
    rcases (grows_attach s).cases hm with ⟨x, hx, hxm⟩ | ⟨x, hx, hxm⟩
    · exact ⟨x, hx, hxm.trans heq⟩
    · have hrouter := hx.2.2
      rw [Node.kind_eq_of_bare (hxm.trans heq), hkind] at hrouter
      contradiction

/-- A fragment on a function view of its scope gets the view's own reference. -/
theorem attach_view (hs : l.Sound sightings) {n : Node} (hn : n ∈ l.nodes)
    (hkind : n.kind = .viewFunction) {s : Sighting} {name : List Char}
    (hreceiver : s.emission.receiver? = some name) (hname : n.name = scopedName s.scope name) :
    ∃ f, (l.attach s).2 = some f ∧ f.key = some (l.localReference n.name) := by
  have hvisible := visible?_of_has (has_iff.mpr ⟨n, hn, hname⟩)
  have hnode : l.node? n.name = some n := by
    obtain ⟨m, hm⟩ : ∃ m, l.node? n.name = some m := by
      rw [← Option.isSome_iff_exists, node?, List.find?_isSome]
      exact ⟨n, hn, beq_self_eq_true _⟩
    have hmem := List.mem_of_find?_eq_some hm
    have hfound := List.find?_some hm
    have hsame : m.name = n.name := beq_iff_eq.mp hfound
    rw [hm, List.inj_on_of_nodup_map hs.nodup hmem hn hsame]
  have hrec : ∀ line, (l.receiver s.scope name line).2 = l.localReference n.name := by
    intro line
    rw [receiver, hvisible, ← hname]
    simp [hnode, (hs.view n hn hkind).1]
  rcases hemission : s.emission with ⟨owner, method, path, symbol, action, line,
    metadata⟩ | _ | _ | _ | _
  · rw [hemission] at hreceiver
    cases (show owner = some name from hreceiver)
    refine ⟨_, by rw [attach, hemission], ?_⟩
    exact congrArg some (hrec line)
  all_goals
    rw [hemission] at hreceiver
    contradiction

theorem exists_fragment_attachAll (hs : l.Sound sightings) {n : Node} {ss : List Sighting}
    (hn : n ∈ (l.attachAll ss).1.nodes) (hkind : n.kind = .viewFunction) {t : Sighting}
    (ht : t ∈ ss) {name : List Char} (hreceiver : t.emission.receiver? = some name)
    (hname : n.name = scopedName t.scope name) :
    ∃ f ∈ (l.attachAll ss).2, f.key = some (l.localReference n.name) := by
  induction ss generalizing l with
  | nil => exact absurd ht List.not_mem_nil
  | cons s ss ih =>
    have hfragments : (l.attachAll (s :: ss)).2 =
        (l.attach s).2.toList ++ ((l.attach s).1.attachAll ss).2 := rfl
    rw [hfragments]
    -- The view is there when its fragment comes up, since all that is attached in between are
    -- routers.
    rcases List.mem_cons.mp ht with rfl | ht
    · obtain ⟨m, hm, heq⟩ := view_of_mem_attachAll hn hkind
      rw [← Node.name_eq_of_bare heq] at hname ⊢
      rw [← Node.kind_eq_of_bare heq] at hkind
      obtain ⟨f, hf, hkey⟩ := attach_view hs hm hkind hreceiver hname
      exact ⟨f, List.mem_append_left _ (by simp [hf]), hkey⟩
    · obtain ⟨f, hf, hkey⟩ := ih (hs.attach s) hn ht
      have hgrows := grows_attach (l := l) s
      rw [localReference, hgrows.identity, hgrows.module] at hkey
      exact ⟨f, List.mem_append_right _ hf, hkey⟩

/-- Every function view among the lowered nodes has a fragment. -/
theorem exists_fragment_lower (l : Lowering) (hl : l.nodes = []) (hs : Furnished sightings)
    {n : Node} (hn : n ∈ (l.lower sightings).1.nodes) (hkind : n.kind = .viewFunction) :
    n.stands = none ∧ ∃ f ∈ (l.lower sightings).2, f.key =
      some (.inUnit n.unit n.module n.name) := by
  have hempty : l.Sound sightings := by
    refine ⟨?_, ?_, ?_⟩ <;> simp [hl]
  obtain ⟨hdeclared, hidentity₁, hmodule₁⟩ := hempty.foldl (fun _ s => grows_declare s) fun _ h => h
  obtain ⟨hsound, hidentity₂, hmodule₂⟩ :=
    hdeclared.foldl (fun _ s => grows_addBases _ s) fun _ h => h
  have hidentity := hidentity₂.trans hidentity₁
  have hmodule := hmodule₂.trans hmodule₁
  obtain ⟨m, hm, heq⟩ := view_of_mem_attachAll hn hkind
  have hmkind := (Node.kind_eq_of_bare heq).trans hkind
  obtain ⟨hstands, s, hss, name, hview, hname⟩ := hsound.view m hm hmkind
  obtain ⟨hunit, hmod⟩ := hsound.home m hm
  obtain ⟨t, ht, hscope, hreceiver⟩ := hs s hss name hview
  rw [Node.name_eq_of_bare heq, ← hscope] at hname
  obtain ⟨f, hf, hkey⟩ := exists_fragment_attachAll hsound hn hkind ht hreceiver hname
  have hnunit : n.unit = l.identity := (Node.unit_eq_of_bare heq).symm.trans (hunit.trans hidentity)
  have hnmodule : n.module = l.module :=
    (Node.module_eq_of_bare heq).symm.trans (hmod.trans hmodule)
  refine ⟨(Node.stands_eq_of_bare heq).symm.trans hstands, f, hf, ?_⟩
  rw [hkey, localReference, hidentity, hmodule, hnunit, hnmodule]

end Lowering

namespace SourceUnit

/-- A report is the lowering of furnished sightings, from a unit without nodes. -/
theorem report_eq_lower (u : SourceUnit) (flag : Bool) :
    ∃ (l : Lowering) (sightings : List Sighting), l.nodes = [] ∧ Furnished sightings ∧
      (u.report flag).nodes = (l.lower sightings).1.nodes ∧
      (u.report flag).fragments = (l.lower sightings).2 := by
  have hnone : Furnished ({ imports := .empty u.identity.toList u.language : Reading }).sightings :=
    fun s hs => absurd hs List.not_mem_nil
  unfold report
  dsimp only
  generalize hreading : Reading.readAll u flag _ _ = reading
  have hread : Furnished reading.sightings := hreading ▸ Reading.furnished_readAll u flag _ hnone
  exact ⟨_, reading.sightings, rfl, hread, rfl, rfl⟩

/-- Every function view that a unit declares has a fragment of the unit that belongs to it. -/
theorem exists_fragment_of_view (u : SourceUnit) (flag : Bool) {n : Node}
    (hn : n ∈ (u.report flag).nodes) (hkind : n.kind = .viewFunction) :
    n.stands = none ∧ ∃ f ∈ (u.report flag).fragments, f.key =
      some (.inUnit n.unit n.module n.name) := by
  obtain ⟨l, sightings, hl, hs, hnodes, hfragments⟩ := u.report_eq_lower flag
  rw [hnodes] at hn
  rw [hfragments]
  exact l.exists_fragment_lower hl hs hn hkind

end SourceUnit

end EndpointCensus
