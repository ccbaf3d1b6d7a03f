import EndpointCensus.Proofs.Composition.Batches
import EndpointCensus.Proofs.Composition.Inheritance
import EndpointCensus.Proofs.Composition.Merging
import EndpointCensus.Proofs.Unit.Classes

/-! The endpoints of a class that is bound as a view. A base of a module that is not in the
corpus means the only view of its name, if there is just one. If that is no class, or if
there is none or several, the methods that the framework gives to the base are handled
wherever the class is bound. -/

namespace EndpointCensus

open Relation

namespace Graph

variable {g : Graph} {r : Reference} {i j : Nat} {n : Node} {nodes : List Node}

/-! ### Bases from elsewhere -/

/-- A node is in the module, or in one whose name ends with it after a dot. -/
def KnowsModule (g : Graph) (module : String) : Prop :=
  ∃ n ∈ g.nodes, n.module = module ∨ Text.endsWith n.module.toList ("." ++ module) = true

instance (g : Graph) (module : String) : Decidable (g.KnowsModule module) :=
  inferInstanceAs (Decidable (∃ n ∈ g.nodes, _))

theorem named?_eq_none (hunit : r.unit = none) (hmodule : ¬ g.KnowsModule r.module) :
    g.named? r = none := by
  have hexact : g.ofModule r.module = [] := by
    refine List.filter_eq_nil_iff.mpr fun c hc heq => hmodule ⟨c.1, ?_, .inl (beq_iff_eq.mp heq)⟩
    exact List.mem_of_getElem? (mem_places.mp hc)
  have hending : g.modulesEnding r.module = [] := by
    have hnone : ((g.nodes.map Node.module).filter fun m => Text.endsWith m.toList
        ("." ++ r.module)) = [] := by
      refine List.filter_eq_nil_iff.mpr fun m hm hends => hmodule ?_
      obtain ⟨n, hn, rfl⟩ := List.mem_map.mp hm
      exact ⟨n, hn, .inr hends⟩
    rw [modulesEnding, hnone]
    rfl
  rw [named?, hunit, Option.bind_none, Option.none_or, inModule?, hexact, hending]
  simp [pick?]

/-! ### Graphs of units -/

/-- All nodes are as units declare them. -/
def Declared (nodes : List Node) : Prop :=
  ∀ n ∈ nodes, ∃ u : SourceUnit, u.Declares n ∧ n.BasesIn u.moduleName

theorem declared_reports (units : List SourceUnit) (flag : Bool) :
    Declared ((units.map (·.report flag)).flatMap UnitReport.nodes) := by
  intro n hn
  obtain ⟨report, hreport, hn⟩ := List.mem_flatMap.mp hn
  obtain ⟨u, -, rfl⟩ := List.mem_map.mp hreport
  exact ⟨u, SourceUnit.declares_of_mem_report hn⟩

/-- Also where nodes of several units were merged, the names of a unit are in the unit's module. -/
theorem basesIn_absorbAll (h : Declared nodes)
    (hn : (ofNodes nodes).absorbAll.1.nodes[i]? = some n) : n.BasesIn n.module := by
  have hhome : ∀ n ∈ (ofNodes nodes).absorbAll.1.nodes,
      n.module = String.ofList (Path.moduleName n.unit.toList) ∧ n.BasesIn n.module := by
    refine forall_mem_absorbAll ?_ (fun _ _ h => h) fun n hn => ?_
    · rintro n m hunit ⟨hmodule, hbases⟩ ⟨hmodule', hbases'⟩
      have hbare := bare_mergeNode n m
      rw [Node.unit_eq_of_bare hbare, Node.module_eq_of_bare hbare]
      refine ⟨hmodule, fun b hb => ?_⟩
      rw [bases_mergeNode] at hb
      rcases List.mem_append.mp hb with hb | hb
      · exact hbases b hb
      · rw [hmodule, hunit, ← hmodule']
        exact hbases' b hb
    · obtain ⟨u, hu, hbases⟩ := h n hn
      rw [hu.unit, hu.module]
      exact ⟨rfl, hbases⟩
  exact (hhome n (List.mem_of_getElem? hn)).2

/-- A base of a module that is not in the corpus is no name of a unit. -/
theorem unit_of_base (h : Declared nodes) (hn : (ofNodes nodes).absorbAll.1.nodes[i]? = some n)
    (hr : r ∈ n.bases) (hmodule : ¬ (ofNodes nodes).absorbAll.1.KnowsModule r.module) :
    r.unit = none := by
  rw [← Option.not_isSome_iff_eq_none]
  exact fun hunit => hmodule ⟨n, List.mem_of_getElem? hn,
    .inl (basesIn_absorbAll h hn r hr hunit).symm⟩

/-- Views are no stand-ins, so they are where they are found. -/
theorem settle_view (h : Declared nodes) (hn : (ofNodes nodes).absorbAll.1.nodes[i]? = some n)
    (hview : n.kind.isContainer = false) : (ofNodes nodes).absorbAll.1.settle i = i := by
  have hstands : n.stands = none := by
    obtain ⟨m, hm, hbare⟩ := exists_bare_of_mem_absorbAll hn
    obtain ⟨u, hu, -⟩ := h m hm
    rw [← Option.not_isSome_iff_eq_none, ← Node.stands_eq_of_bare hbare]
    intro hsome
    rw [← Node.kind_eq_of_bare hbare, hu.router hsome] at hview
    contradiction
  exact settleFrom_of_free (lookup_absorbed_eq_none hn hstands) _

end Graph

namespace Corpus

variable {c : Corpus} {fragments : List Fragment} {nodes : List Node} {base : Reference} {i j : Nat}
  {owner : Node}

/-- A base of a module that is not in the corpus is the class that is the only view of
its name, or no class. -/
theorem parent?_base (h : Graph.Declared nodes)
    (hn : (ofParts fragments nodes).graph.nodes[i]? = some owner) (hbase : base ∈ owner.bases)
    (hmodule : ¬ (ofParts fragments nodes).graph.KnowsModule base.module) :
    (ofParts fragments nodes).parent? base =
      ((ofParts fragments nodes).graph.unique? base).filter
        ((ofParts fragments nodes).graph.hasKind .viewClass) := by
  have hnamed : (ofParts fragments nodes).graph.named? base = none :=
    Graph.named?_eq_none (Graph.unit_of_base h hn hbase hmodule) hmodule
  rw [parent?, Graph.lookupView?, hnamed, Option.none_or]
  rcases hunique : (ofParts fragments nodes).graph.unique? base with _ | j
  · rfl
  · obtain ⟨m, hm, hview⟩ := Graph.exists_view_of_unique? hunique
    have hsettle : (ofParts fragments nodes).graph.settle j = j := Graph.settle_view h hm hview
    rw [Option.map_some, hsettle]

/-! ### Methods of members -/

/-- The handlers of classes have the verbs of their methods as actions. -/
def NamesVerbs (c : Corpus) : Prop :=
  ∀ p ∈ c.owned, p.2.idiom = .classMethods → p.2.action = some p.2.method.verb

theorem namesVerbs_reports (units : List SourceUnit) (flag : Bool) (nodes : List Node) :
    (ofParts ((units.map (·.report flag)).flatMap UnitReport.fragments) nodes).NamesVerbs := by
  intro p hp hidiom
  obtain ⟨f, hf, hp⟩ := List.mem_filterMap.mp hp
  obtain ⟨i, -, rfl⟩ := Option.map_eq_some_iff.mp hp
  obtain ⟨report, hreport, hf⟩ := List.mem_flatMap.mp hf
  obtain ⟨u, -, rfl⟩ := List.mem_map.mp hreport
  exact u.action_eq_verb flag hf hidiom

theorem action_of_mem_members (hverbs : c.NamesVerbs) (howner : c.graph.nodes[i]? = some owner)
    {m : Member} (hm : m ∈ c.members false i) : m.action = m.method.verb := by
  obtain ⟨address, s, -, hm⟩ := exists_source_of_mem_members howner hm
  cases s with
  | own j =>
    obtain ⟨f, hf, rfl⟩ := List.mem_map.mp hm
    obtain ⟨hf, hidiom⟩ := List.mem_filter.mp hf
    obtain ⟨p, hp, rfl⟩ := List.mem_map.mp hf
    have haction := hverbs p (List.mem_filter.mp hp).1 (beq_iff_eq.mp hidiom)
    simp only [memberOf, haction, Option.getD_some]
  | implied j k base =>
    obtain ⟨method, -, rfl⟩ := List.mem_map.mp hm
    rfl

/-- A class with the verb of a method among its actions has a member for the method. -/
theorem exists_member_of_verb (hverbs : c.NamesVerbs) (howner : c.graph.nodes[i]? = some owner)
    {method : Method} (h : Member.someHas method.verb (c.members false i) = true) :
    ∃ m ∈ c.members false i, m.method = method := by
  obtain ⟨m, hm, haction⟩ := Member.someHas_iff.mp h
  exact ⟨m, hm, Method.verb_inj ((action_of_mem_members hverbs howner hm).symm.trans haction)⟩

/-! ### Endpoints of a class -/

theorem exists_endpoint_of_mem_members {f : Frame} {l : Link} {members : List Member} {m : Member}
    (hm : m ∈ members) : ∃ e ∈ memberEndpoints f l owner members, e.method = m.method := by
  unfold memberEndpoints
  split
  · exact absurd hm List.not_mem_nil
  · exact ⟨_, List.mem_map.mpr ⟨m, hm, rfl⟩, rfl⟩

/-- A view without a method map has an endpoint for every member of its class. -/
theorem exists_mem_share_of_mem_members {u : Usage} {k : Nat} {l : Link}
    (howner : c.graph.nodes[i]? = some owner) (hkind : owner.kind = .viewClass)
    (hbinding : l.binding = .view []) (htarget : c.graph.lookupView? l.target = some i) {m : Member}
    (hm : m ∈ c.members false i) : ∃ e ∈ c.share (.link u k l), e.method = m.method := by
  have hclass : (c.graph.lookupView? l.target).filter (c.graph.hasKind .viewClass) = some i := by
    rw [htarget, Option.filter_some, if_pos (Graph.hasKind_iff.mpr ⟨owner, howner, hkind⟩)]
  rw [share, expansion, bind, hbinding]
  dsimp only
  rw [bindClass, hclass]
  dsimp only
  rw [howner]
  exact exists_endpoint_of_mem_members hm

/-- A class that descends from another one has its members' methods. -/
theorem someHas_members_of_extends (hverbs : c.NamesVerbs) {owner' : Node}
    (howner : c.graph.nodes[i]? = some owner) (howner' : c.graph.nodes[j]? = some owner')
    (hextends : c.Extends i j) {m : Member} (hm : m ∈ c.members false j) :
    Member.someHas m.method.verb (c.members false i) = true := by
  rw [← action_of_mem_members hverbs howner' hm]
  obtain ⟨x, hreach, hx⟩ := (someHas_members_iff howner').mp (Member.someHas_iff.mpr ⟨m, hm, rfl⟩)
  exact (someHas_members_iff howner).mpr ⟨x, .head hextends hreach, hx⟩

end Corpus

namespace Composition

/-- A base whose module is not in the corpus, of a class that is bound as a view without a method
map. If exactly one view of the corpus has the base's name and that is a class, the binding has an
endpoint for every member of that class. Otherwise it has an endpoint for every method that the
framework gives to the base. -/
theorem base_contributes_where_bound (units : List SourceUnit) (flag : Bool) :
    let reports := units.map (·.report flag)
    let fragments := reports.flatMap UnitReport.fragments
    let nodes := reports.flatMap UnitReport.nodes
    let c := Corpus.ofParts fragments nodes
    ∀ i n base, c.graph.nodes[i]? = some n → n.kind = .viewClass → base ∈ n.bases →
      ¬ c.graph.KnowsModule base.module →
      ∀ u ∈ c.usages, ∀ (k : Nat) (l : Link), u.node.links[k]? = some l → l.binding = .view [] →
        c.graph.lookupView? l.target = some i →
        (∀ e ∈ c.share (.link u k l), e ∈ (ofParts fragments nodes).endpoints) ∧
        (∀ j, c.graph.unique? base = some j → c.graph.hasKind .viewClass j = true →
          ∀ m ∈ c.members false j, ∃ e ∈ c.share (.link u k l), e.method = m.method) ∧
        ((∀ j, c.graph.unique? base = some j → c.graph.hasKind .viewClass j = false) →
          ∀ method ∈ ClassView.impliedMethods base.name.toList,
            ∃ e ∈ c.share (.link u k l), e.method = method) := by
  intro reports fragments nodes c i n base hn hkind hbase hmodule u hu k l hl hbinding htarget
  have hverbs : c.NamesVerbs := Corpus.namesVerbs_reports units flag nodes
  have hparent := Corpus.parent?_base (Graph.declared_reports units flag) hn hbase hmodule
  have hbases : base ∈ c.basesOf i := by
    rw [Corpus.basesOf, hn]
    exact hbase
  have hendpoint : ∀ method : Method, Member.someHas method.verb (c.members false i) = true →
      ∃ e ∈ c.share (.link u k l), e.method = method := by
    intro method hmethod
    obtain ⟨m, hm, rfl⟩ := Corpus.exists_member_of_verb hverbs hn hmethod
    exact Corpus.exists_mem_share_of_mem_members hn hkind hbinding htarget hm
  refine ⟨fun e he => ?_, fun j hj hclass m hm => ?_, fun hnone method hmethod => ?_⟩
  · have hpoint : Stop.link u k l ∈ c.points :=
      Corpus.mem_points.mpr ⟨Corpus.mem_usages.mp hu, hl, by rw [hbinding]; exact Binding.noConfusion⟩
    rw [endpoints_ofParts, Corpus.endpoints_walk (Corpus.closed_ofParts fragments nodes)]
    exact List.mem_append_right _ (List.mem_flatMap.mpr ⟨_, hpoint, he⟩)
  · obtain ⟨owner', howner', -⟩ := Graph.hasKind_iff.mp hclass
    have hextends : c.Extends i j :=
      ⟨base, hbases, by rw [hparent, hj, Option.filter_some, if_pos hclass]⟩
    exact hendpoint _ (Corpus.someHas_members_of_extends hverbs hn howner' hextends hm)
  · have hnoclass : c.parent? base = none := by
      rw [hparent]
      exact Option.filter_eq_none_iff.mpr fun j hj => Bool.eq_false_iff.mp (hnone j hj)
    refine hendpoint method ((Corpus.someHas_members_iff hn).mpr
      ⟨i, .refl, .inr ⟨base, hbases, hnoclass, ?_⟩⟩)
    exact List.mem_map.mpr ⟨method, hmethod, rfl⟩

/-- A class with the base is bound as a view, without a method map, and the module of the
base is not in the corpus. -/
def BindsBase (c : Corpus) (base : Reference) : Prop :=
  ¬ c.graph.KnowsModule base.module ∧ ∃ p ∈ c.graph.places, p.1.kind = .viewClass ∧
    base ∈ p.1.bases ∧ ∃ u ∈ c.usages, ∃ k ∈ List.range u.node.links.length,
      (u.node.links[k]?.any fun l => l.binding == .view [] && c.graph.lookupView? l.target ==
        some p.2) = true

instance (c : Corpus) (base : Reference) : Decidable (BindsBase c base) :=
  inferInstanceAs (Decidable (¬ c.graph.KnowsModule base.module ∧ ∃ p ∈ c.graph.places, _))

/-- A class that lists by its base. -/
theorem base_contributes_where_bound_list :
    let unit : SourceUnit := ⟨"v.py", .python,
      "from d import generic\nclass A(generic.ListView): pass\nurlpatterns=[path('a',A.as_view())]\n"⟩
    let reports := [unit].map (·.report true)
    let fragments := reports.flatMap UnitReport.fragments
    let nodes := reports.flatMap UnitReport.nodes
    let c := Corpus.ofParts fragments nodes
    let base : Reference := .external "d.generic" "ListView"
    BindsBase c base ∧ c.graph.unique? base = none ∧
      ∃ e ∈ (ofParts fragments nodes).endpoints, e.method = .get := by
  intro unit reports fragments nodes c base
  obtain ⟨hbound, hunique⟩ : BindsBase c base ∧ c.graph.unique? base = none := by decide +kernel
  refine ⟨hbound, hunique, ?_⟩
  obtain ⟨hmodule, ⟨n, i⟩, hplace, hkind, hbase, u, hu, k, -, hlink⟩ := hbound
  obtain ⟨l, hl, hlink⟩ := (Option.any_eq_true _ _).mp hlink
  obtain ⟨hbinding, htarget⟩ := Bool.and_eq_true_iff.mp hlink
  obtain ⟨hmem, -, hmethods⟩ :=
    base_contributes_where_bound [unit] true i n base (Graph.mem_places.mp hplace) hkind hbase
      hmodule u hu k l hl (beq_iff_eq.mp hbinding) (beq_iff_eq.mp htarget)
  have hnone : ∀ j, c.graph.unique? base = some j → c.graph.hasKind .viewClass j = false :=
    fun j hj => absurd (hunique.symm.trans hj) (Option.some_ne_none j).symm
  have hget : .get ∈ ClassView.impliedMethods base.name.toList := by decide +kernel
  obtain ⟨e, he, hmethod⟩ := hmethods hnone .get hget
  exact ⟨e, hmem e he, hmethod⟩

/-- A class of the corpus that has the name of the base takes its place, although the
base is of another module. -/
theorem methods_of_namesake :
    let unit : SourceUnit :=
      ⟨"v.py", .python, "from d import generic\nclass ListView:\n def post(self): pass\n" ++
        "class A(generic.ListView): pass\nurlpatterns=[path('a',A.as_view())]\n"⟩
    let reports := [unit].map (·.report true)
    let fragments := reports.flatMap UnitReport.fragments
    let nodes := reports.flatMap UnitReport.nodes
    let base : Reference := .external "d.generic" "ListView"
    BindsBase (Corpus.ofParts fragments nodes) base ∧
      .get ∈ ClassView.impliedMethods base.name.toList ∧
      (ofParts fragments nodes).endpoints.map Endpoint.method = [.post] := by
  decide +kernel

end Composition

end EndpointCensus
