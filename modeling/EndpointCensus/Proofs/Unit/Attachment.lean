import EndpointCensus.Proofs.Unit.Classes

/-! What fragments and links are attached to. Each node of a unit goes back to the sighting that
introduced it, under a name and in scopes: a declaration, a parent of links, or a receiver that is
not imported. Attaching never changes what was attached before, so every link ends up at one node,
and a fragment keeps the reference that it got. -/

namespace EndpointCensus

def Emission.parent? : Emission → Option (List Char)
  | link owner _ _ _ _ _ => some owner
  | _ => none

def Emission.isFragment : Emission → Bool
  | fragment _ _ _ _ _ _ _ => true
  | _ => false

def Emission.isLink : Emission → Bool
  | link _ _ _ _ _ _ => true
  | _ => false

namespace Sighting

def fragment? (s : Sighting) (identity : String) (key : Option Reference) : Option Fragment :=
  match s.emission with
  | .fragment _ method path symbol action line metadata => some {
      method, path := stored path, symbol := stored symbol, action := action.map stored
      idiom := s.idiom, location := ⟨identity, line⟩, metadata, key }
  | _ => none

def link? (s : Sighting) (identity : String) (reference : Target → Reference) : Option Link :=
  match s.emission with
  | .link _ target binding path metadata line => some {
      target := reference target, symbol := target.symbol, binding, path := stored path
      metadata, location := ⟨identity, line⟩ }
  | _ => none

end Sighting

namespace Lowering

variable {l : Lowering}

theorem imported?_congr {l l' : Lowering} (h : l'.imports = l.imports) :
    l'.imported? = l.imported? := by
  funext name
  rw [imported?, imported?, h]

/-! ### Nodes by name -/

theorem node?_eq_some {key : String} {n : Node} (h : l.node? key = some n) :
    n ∈ l.nodes ∧ n.name = key := by
  have hname := List.find?_some h
  exact ⟨List.mem_of_find?_eq_some h, beq_iff_eq.mp hname⟩

theorem exists_node?_of_has {key : String} (h : l.has key = true) : ∃ n, l.node? key = some n := by
  obtain ⟨n, hn, hname⟩ := has_iff.mp h
  rw [← Option.isSome_iff_exists, node?, List.find?_isSome]
  exact ⟨n, hn, beq_iff_eq.mpr hname⟩

theorem node?_eq_none {key : String} (h : l.has key = false) : l.node? key = none := by
  refine List.find?_eq_none.mpr fun n hn hname => ?_
  rw [has_iff.mpr ⟨n, hn, beq_iff_eq.mp hname⟩] at h
  contradiction

theorem node?_of_mem (hnodup : (l.nodes.map Node.name).Nodup) {n : Node} (hn : n ∈ l.nodes) :
    l.node? n.name = some n := by
  obtain ⟨m, hm⟩ := exists_node?_of_has (has_iff.mpr ⟨n, hn, rfl⟩)
  obtain ⟨hmem, hname⟩ := node?_eq_some hm
  rw [hm, List.inj_on_of_nodup_map hnodup hmem hn hname]

theorem has_of_visible? {scope : List (List Char)} {name : List Char} {key : String}
    (h : l.visible? scope name = some key) :
    l.has key = true ∧ ∃ k ≤ scope.length, key = scopedName (scope.take k) name := by
  refine ⟨List.find?_some h, ?_⟩
  obtain ⟨k, hk, rfl⟩ := List.mem_map.mp (List.mem_of_find?_eq_some h)
  exact ⟨k, Nat.lt_succ_iff.mp (List.mem_range.mp (List.mem_reverse.mp hk)), rfl⟩

theorem node?_modify (key name : String) {f : Node → Node} (hf : ∀ n, (f n).name = n.name) :
    (l.modify name f).node? key = (l.node? key).map fun n => if n.name == name then f n else n := by
  rw [node?, modify, List.find?_map, node?]
  congr 2
  funext n
  rw [Function.comp_apply]
  split
  · rw [hf]
  · rfl

theorem node?_add (l : Lowering) (n : Node) (key : String) :
    (l.add n).node? key = (l.node? key).or (if n.name = key then some n else none) := by
  unfold add
  split
  next hhas =>
    split
    next hname =>
      obtain ⟨m, hm⟩ := exists_node?_of_has (hname ▸ hhas)
      rw [hm]
      rfl
    next => exact (Option.or_none ..).symm
  next =>
    rw [node?, List.find?_append, node?]
    congr 1
    split
    next hname => rw [List.find?_singleton, if_pos (beq_iff_eq.mpr hname)]
    next hname => rw [List.find?_singleton, if_neg (by simpa using hname)]

theorem node?_add_of_free {n : Node} (hfree : l.has n.name = false) :
    (l.add n).node? n.name = some n := by
  rw [node?_add, node?_eq_none hfree, if_pos rfl]
  rfl

/-! ### Where nodes come from -/

/-- The name that a sighting makes a node of, unless there is one. -/
def introduces? (l : Lowering) (s : Sighting) : Option (List Char) :=
  match s.emission with
  | .node name _ _ _ _ _ => some name
  | .link owner _ _ _ _ _ => some owner
  | .fragment (some name) _ _ _ _ _ _ => if (l.imported? name).isNone then some name else none
  | _ => none

/-- A node that a sighting introduced. Only a parent of links stands for what is
imported under its name. -/
def Introduced (l : Lowering) (sightings : List Sighting) (n : Node) : Prop :=
  ∃ s ∈ sightings, ∃ name, l.introduces? s = some name ∧ n.name = scopedName s.scope name ∧
    n.stands = s.emission.parent?.bind l.imported?

variable {sightings : List Sighting} {s : Sighting}

theorem Introduced.of_bare {n m : Node} (h : l.Introduced sightings n) (hbare : n.bare = m.bare) :
    l.Introduced sightings m := by
  obtain ⟨s, hs, name, hintroduces, hname, hstands⟩ := h
  exact ⟨s, hs, name, hintroduces, (Node.name_eq_of_bare hbare).symm.trans hname,
    (Node.stands_eq_of_bare hbare).symm.trans hstands⟩

/-- What a node stands for is no node of the unit. -/
theorem Introduced.unit_stands {n : Node} (h : l.Introduced sightings n) {r : Reference}
    (hr : n.stands = some r) : r.unit = none := by
  obtain ⟨s, -, name, -, -, hstands⟩ := h
  obtain ⟨parent, -, himported⟩ := Option.bind_eq_some_iff.mp (hstands.symm.trans hr)
  exact unit_of_imported? himported

theorem introduced_declare (h : ∀ n ∈ l.nodes, l.Introduced sightings n) (hs : s ∈ sightings) :
    ∀ n ∈ (l.declare s).nodes, l.Introduced sightings n := by
  unfold declare
  split
  next name kind path metadata bases line hemission =>
    have hnew : l.Introduced sightings
        { l.newNode (scopedName s.scope name) kind line with factory := s.factory.map stored } :=
      ⟨s, hs, name, by rw [introduces?, hemission], rfl, by rw [hemission]; rfl⟩
    exact forall_nodes_modify (forall_nodes_add h hnew) _ fun n hn => hn.of_bare rfl
  next => exact h

theorem introduced_addBases (h : ∀ n ∈ l.nodes, l.Introduced sightings n) (s : Sighting) :
    ∀ n ∈ (l.addBases s).nodes, l.Introduced sightings n := by
  unfold addBases
  split
  · exact forall_nodes_modify h _ fun n hn => hn.of_bare rfl
  · exact h

theorem introduced_receiver (h : ∀ n ∈ l.nodes, l.Introduced sightings n) (hs : s ∈ sightings)
    {name : List Char} (hreceiver : s.emission.receiver? = some name) (line : Nat) :
    ∀ n ∈ (l.receiver s.scope name line).1.nodes, l.Introduced sightings n := by
  unfold receiver
  split
  · exact h
  · split
    next => exact h
    next himported =>
      refine forall_nodes_add h ⟨s, hs, name, ?_, rfl, ?_⟩
      all_goals
        rcases hemission : s.emission with ⟨owner, _, _, _, _, _, _⟩ | _ | _ | _ | _ <;>
          rw [hemission] at hreceiver <;> try contradiction
      · cases (show owner = some name from hreceiver)
        rw [introduces?, hemission]
        dsimp only
        rw [himported]
        rfl
      · rfl

theorem introduced_parent (h : ∀ n ∈ l.nodes, l.Introduced sightings n) (hs : s ∈ sightings)
    {name : List Char} (hparent : s.emission.parent? = some name) (line : Nat) :
    ∀ n ∈ (l.parent s.scope name line).1.nodes, l.Introduced sightings n := by
  have hintroduces : l.introduces? s = some name := by
    rcases hemission : s.emission with _ | _ | ⟨owner, _, _, _, _, _⟩ | _ | _ <;>
      rw [hemission] at hparent <;> try contradiction
    rw [introduces?, hemission]
    exact hparent
  have hstands : s.emission.parent?.bind l.imported? = l.imported? name := by rw [hparent]; rfl
  unfold parent
  split
  · exact h
  next hvisible =>
    dsimp only
    split
    next r himported =>
      let new := l.newNode (scopedName s.scope name) .router line
      have hnodes := nodes_modify_add (n := new) (has_of_visible?_none hvisible) fun n =>
        { n with stands := some r }
      intro n hn
      rcases List.mem_append.mp (hnodes ▸ hn) with hn | hn
      · exact h n hn
      · obtain rfl := List.mem_singleton.mp hn
        exact ⟨s, hs, name, hintroduces, rfl, (hstands.trans himported).symm⟩
    next himported =>
      exact forall_nodes_add h ⟨s, hs, name, hintroduces, rfl, (hstands.trans himported).symm⟩

theorem introduced_attach (h : ∀ n ∈ l.nodes, l.Introduced sightings n) (hs : s ∈ sightings) :
    ∀ n ∈ (l.attach s).1.nodes, l.Introduced sightings n := by
  unfold attach
  split
  next owner _ _ _ _ _ _ hemission =>
    cases owner with
    | none => exact h
    | some name => exact introduced_receiver h hs (by rw [hemission]; rfl) _
  next hemission =>
    exact forall_nodes_modify (introduced_parent h hs (by rw [hemission]; rfl) _) _ fun n hn =>
      hn.of_bare rfl
  next =>
    split
    · refine forall_nodes_modify h _ fun n hn => ?_
      split
      · exact hn
      · exact hn.of_bare rfl
    · exact h
  next => exact h
  next => exact h

/-! ### Imported names -/

/-- No sighting introduces a node that the name may mean in these scopes, unless it keeps
links at the name itself. -/
def Alone (l : Lowering) (sightings : List Sighting) (scope : List (List Char)) (name : List Char) :
    Prop :=
  ∀ s ∈ sightings, ∀ other ∈ l.introduces? s, s.emission.parent? ≠ some name →
    ∀ k < scope.length + 1, scopedName s.scope other ≠ scopedName (scope.take k) name

variable {scope : List (List Char)} {name : List Char} {r : Reference}

/-- Where an imported name is alone, all nodes that it may mean stand for what was imported. -/
theorem stands_of_visible? (h : ∀ n ∈ l.nodes, l.Introduced sightings n)
    (halone : l.Alone sightings scope name) (himported : l.imported? name = some r) {key : String}
    (hvisible : l.visible? scope name = some key) :
    ∃ n, l.node? key = some n ∧ n.stands = some r := by
  obtain ⟨hhas, k, hk, rfl⟩ := has_of_visible? hvisible
  obtain ⟨n, hn⟩ := exists_node?_of_has hhas
  obtain ⟨hmem, hkey⟩ := node?_eq_some hn
  obtain ⟨s, hs, other, hintroduces, hname, hstands⟩ := h n hmem
  refine ⟨n, hn, ?_⟩
  by_cases hparent : s.emission.parent? = some name
  · rw [hstands, hparent, Option.bind_some, himported]
  · exact absurd (hname.symm.trans hkey) (halone s hs other hintroduces hparent k
      (Nat.lt_succ_iff.mpr hk))

/-- A fragment on an imported name is registered on what was imported, whatever was
attached before. -/
theorem receiver_of_imported? (h : ∀ n ∈ l.nodes, l.Introduced sightings n)
    (halone : l.Alone sightings scope name) (himported : l.imported? name = some r) (line : Nat) :
    (l.receiver scope name line).2 = r := by
  unfold receiver
  split
  next key hvisible =>
    obtain ⟨n, hn, hstands⟩ := stands_of_visible? h halone himported hvisible
    simp only [hn, Option.bind_some, hstands, Option.getD_some]
  next => rw [himported]

/-- Links on an imported name are kept at a node that stands for what was imported. -/
theorem parent_of_imported? (h : ∀ n ∈ l.nodes, l.Introduced sightings n)
    (halone : l.Alone sightings scope name) (himported : l.imported? name = some r) (line : Nat) :
    ∃ n ∈ (l.parent scope name line).1.nodes, n.name = (l.parent scope name line).2 ∧
    n.stands = some r := by
  rcases hvisible : l.visible? scope name with _ | key
  · exact (leadsTo_of_imported? hvisible himported).parent line
  · obtain ⟨n, hn, hstands⟩ := stands_of_visible? h halone himported hvisible
    obtain ⟨hmem, hname⟩ := node?_eq_some hn
    rw [parent, hvisible]
    exact ⟨n, hmem, hname, hstands⟩

/-- A reference within the unit is to a node that there is now. -/
theorem receiver_of_unit (h : ∀ n ∈ l.nodes, l.Introduced sightings n) (line : Nat)
    (hunit : (l.receiver scope name line).2.unit.isSome = true) :
    ∃ n ∈ (l.receiver scope name line).1.nodes, (l.receiver scope name line).2 =
      l.localReference n.name := by
  rcases hvisible : l.visible? scope name with _ | key
  · rcases himported : l.imported? name with _ | r
    · let new := l.newNode (scopedName scope name) .router line
      have hnew := node?_add_of_free (n := new) (has_of_visible?_none hvisible)
      rw [receiver, hvisible]
      dsimp only
      rw [himported]
      exact ⟨new, (node?_eq_some hnew).1, rfl⟩
    · rw [receiver, hvisible] at hunit
      dsimp only at hunit
      rw [himported, unit_of_imported? himported] at hunit
      contradiction
  · obtain ⟨n, hn⟩ := exists_node?_of_has (has_of_visible? hvisible).1
    obtain ⟨hmem, rfl⟩ := node?_eq_some hn
    rw [receiver, hvisible] at hunit ⊢
    dsimp only at hunit ⊢
    rw [hn, Option.bind_some] at hunit ⊢
    refine ⟨n, hmem, ?_⟩
    rcases hstands : n.stands with _ | r
    · rfl
    · rw [hstands, Option.getD_some, (h n hmem).unit_stands hstands] at hunit
      contradiction

/-! ### Links -/

/-- The links that are kept under a name. -/
def linksAt (l : Lowering) (key : String) : List Link := ((l.node? key).map Node.links).getD []

theorem linksAt_of_mem (hnodup : (l.nodes.map Node.name).Nodup) {n : Node} (hn : n ∈ l.nodes) :
    l.linksAt n.name = n.links := by
  rw [linksAt, node?_of_mem hnodup hn]
  rfl

theorem linksAt_modify {key name : String} {f : Node → Node}
    (hf : ∀ n, (f n).name = n.name ∧ (f n).links = n.links) :
    (l.modify name f).linksAt key = l.linksAt key := by
  rw [linksAt, l.node?_modify key name fun n => (hf n).1, linksAt, Option.map_map]
  congr 2
  funext n
  rw [Function.comp_apply]
  split
  · exact (hf n).2
  · rfl

theorem linksAt_add {n : Node} (hn : n.links = []) (key : String) :
    (l.add n).linksAt key = l.linksAt key := by
  rw [linksAt, node?_add, linksAt]
  rcases l.node? key with _ | m
  · split
    · exact hn
    · rfl
  · rfl

theorem linksAt_append_link {name : String} (hname : l.has name = true) (link : Link)
    (key : String) : (l.modify name fun n => { n with links := n.links ++ [link] }).linksAt key =
      l.linksAt key ++ if name == key then [link] else [] := by
  have hmodify :=
    l.node?_modify key name (f := fun n => { n with links := n.links ++ [link] }) fun _ => rfl
  rw [linksAt, hmodify, linksAt]
  rcases hkey : l.node? key with _ | n
  · have hne : (name == key) = false := by
      refine beq_eq_false_iff_ne.mpr fun heq => ?_
      obtain ⟨n, hn⟩ := exists_node?_of_has hname
      rw [heq, hkey] at hn
      contradiction
    rw [hne]
    rfl
  · obtain ⟨-, rfl⟩ := node?_eq_some hkey
    by_cases hn : n.name = name
    · simp [hn]
    · simp [hn, Ne.symm hn]

/-- The link of a sighting, with the name of the node that it is kept at. -/
def placed? (l : Lowering) (s : Sighting) : Option (String × Link) :=
  match s.emission with
  | .link owner _ _ _ _ line =>
    (s.link? l.identity (l.reference s.scope)).map fun link =>
      ((l.parent s.scope owner line).2, link)
  | _ => none

/-- The links of sightings that are attached in order, with the names of the nodes
that they are kept at. -/
def placements (l : Lowering) : List Sighting → List (String × Link)
  | [] => []
  | s :: rest => (l.placed? s).toList ++ (l.attach s).1.placements rest

def linksPlaced (key : String) (placed : List (String × Link)) : List Link :=
  (placed.filter fun p => p.1 == key).map Prod.snd

theorem has_parent (l : Lowering) (scope : List (List Char)) (name : List Char) (line : Nat) :
    (l.parent scope name line).1.has (l.parent scope name line).2 = true := by
  rcases hvisible : l.visible? scope name with _ | key
  · let new := l.newNode (scopedName scope name) .router line
    have hfree := has_of_visible?_none hvisible
    rw [parent, hvisible]
    dsimp only
    split
    next r himported =>
      have hnodes := nodes_modify_add (n := new) hfree fun n => { n with stands := some r }
      exact has_iff.mpr ⟨{ new with stands := some r }, hnodes ▸ List.mem_concat_self .., rfl⟩
    next himported =>
      exact has_iff.mpr ⟨new, node?_eq_some (node?_add_of_free (n := new) hfree)⟩
  · rw [parent, hvisible]
    exact (has_of_visible? hvisible).1

theorem linksAt_parent (l : Lowering) (scope : List (List Char)) (name : List Char) (line : Nat)
    (key : String) : (l.parent scope name line).1.linksAt key = l.linksAt key := by
  unfold parent
  split
  · rfl
  · dsimp only
    split
    · refine Eq.trans (linksAt_modify ?_) (linksAt_add ?_ key)
      · exact fun _ => ⟨rfl, rfl⟩
      · rfl
    · exact linksAt_add rfl key

theorem linksAt_receiver (l : Lowering) (scope : List (List Char)) (name : List Char) (line : Nat)
    (key : String) : (l.receiver scope name line).1.linksAt key = l.linksAt key := by
  unfold receiver
  split
  · rfl
  · split
    · rfl
    · exact linksAt_add rfl key

/-- A step keeps the links that there are, and adds the one of its sighting at its end. -/
theorem linksAt_attach (l : Lowering) (s : Sighting) (key : String) :
    (l.attach s).1.linksAt key = l.linksAt key ++ linksPlaced key (l.placed? s).toList := by
  rcases hemission : s.emission with ⟨owner, _, _, _, _, line, _⟩ | _ | ⟨owner, target, binding,
    path, metadata, line⟩ | ⟨name, as⟩ | _ <;> rw [placed?, attach, hemission] <;> dsimp only
  · cases owner with
    | none => exact (List.append_nil _).symm
    | some name => exact (linksAt_receiver l s.scope name line key).trans (List.append_nil _).symm
  · exact (List.append_nil _).symm
  · rw [linksAt_append_link (has_parent ..), linksAt_parent, Sighting.link?, hemission]
    simp only [Option.map_some, Option.toList_some, linksPlaced, List.filter_cons, List.filter_nil]
    split <;> rfl
  · split
    · refine (linksAt_modify fun n => ?_).trans (List.append_nil _).symm
      split <;> exact ⟨rfl, rfl⟩
    · exact (List.append_nil _).symm
  · exact (List.append_nil _).symm

theorem linksAt_attachAll (l : Lowering) (ss : List Sighting) (key : String) :
    (l.attachAll ss).1.linksAt key = l.linksAt key ++ linksPlaced key (l.placements ss) := by
  induction ss generalizing l with
  | nil => exact (List.append_nil _).symm
  | cons s ss ih =>
    calc (l.attachAll (s :: ss)).1.linksAt key
        = (l.attach s).1.linksAt key ++ linksPlaced key ((l.attach s).1.placements ss) := ih _
      _ = l.linksAt key ++ linksPlaced key (l.placements (s :: ss)) := by
        simp only [linksAt_attach, placements, linksPlaced, List.filter_append, List.map_append,
          List.append_assoc]

theorem linksAt_declare (l : Lowering) (s : Sighting) (key : String) :
    (l.declare s).linksAt key = l.linksAt key := by
  unfold declare
  split
  · refine Eq.trans (linksAt_modify ?_) (linksAt_add ?_ key)
    · exact fun _ => ⟨rfl, rfl⟩
    · rfl
  · rfl

theorem linksAt_addBases (l : Lowering) (s : Sighting) (key : String) :
    (l.addBases s).linksAt key = l.linksAt key := by
  unfold addBases
  split
  · exact linksAt_modify fun _ => ⟨rfl, rfl⟩
  · rfl

end Lowering
end EndpointCensus
