import EndpointCensus.Analysis
import EndpointCensus.Proofs.Composition.Merging
import EndpointCensus.Proofs.Composition.StandIns
import EndpointCensus.Proofs.Composition.Usage
import EndpointCensus.Proofs.Inventory.Routes
import EndpointCensus.Proofs.Path.Join
import EndpointCensus.Proofs.Path.Slash
import EndpointCensus.Proofs.Unit.TableInclusion

/-!
The inventories of a table that includes entries in place and of one that includes a table of them.
The endpoints of the former have the route and that of the entry in one piece, those of the latter
in two, and a join of pieces looks at segments only. So it matters whether a segment reaches over
the place where the routes meet.
-/

namespace EndpointCensus

/-! ### Graphs without stand-ins -/

namespace Graph

theorem absorbAt_of_free {g : Graph} (hfree : ∀ n ∈ g.nodes, n.stands = none)
    (found : List Diagnostic) (i : Nat) : absorbAt (g, found) i = (g, found) := by
  rw [absorbAt]
  split
  · rfl
  next n hn => rw [hfree n (List.mem_of_getElem? hn)]

/-- Nodes with units and names of their own that stand for nothing are a graph as they are. -/
theorem absorbAll_of_free {nodes : List Node} (hdistinct : (nodes.map Node.key).Nodup)
    (hfree : ∀ n ∈ nodes, n.stands = none) : (ofNodes nodes).absorbAll = ({ nodes }, []) := by
  have hnodes : ofNodes nodes = { nodes } := congrArg (Graph.mk · []) (nodes_ofNodes hdistinct)
  rw [hnodes]
  exact List.foldl_fixed' (absorbAt_of_free hfree []) _

end Graph

namespace Corpus

variable {c : Corpus} {ds : List Declaration}

/-! ### The walk over tables -/

theorem fragmentsOf_of_owned (howned : c.owned = []) (i : Nat) : c.fragmentsOf i = [] := by
  rw [fragmentsOf, howned]
  rfl

/-- The endpoint of a view that is not known. -/
def looseHandler (ds : List Declaration) (l : Link) : Endpoint :=
  anyEndpoint (.ofDeclarations (ds ++ [⟨l.path, l.metadata⟩])) l.symbol l.location none

theorem endpoints_bind_handler (hviews : ∀ n ∈ c.graph.nodes, n.kind ≠ .viewFunction) {l : Link}
    (hl : l.binding = .handler) :
    (c.bind ((Frame.ofDeclarations ds).nest l.path l.metadata) l).endpoints =
      [looseHandler ds l] := by
  have hnone (i? : Option Nat) : i?.filter (c.graph.hasKind .viewFunction) = none := by
    refine Option.filter_eq_none_iff.mpr fun i _ hi => ?_
    obtain ⟨n, hn, hkind⟩ := Graph.hasKind_iff.mp hi
    exact hviews n (List.mem_of_getElem? hn) hkind
  rw [bind, hl]
  dsimp only
  rw [handlerEndpoints, hnone, Frame.nest_ofDeclarations]
  rfl

/-- The walk over a table of views that are not known has an endpoint for each of them. -/
theorem endpoints_visit_handlers (hviews : ∀ n ∈ c.graph.nodes, n.kind ≠ .viewFunction)
    (howned : c.owned = []) {i : Nat} {n : Node} (hn : c.graph.nodes[i]? = some n)
    (hlinks : ∀ l ∈ n.links, l.binding = .handler) (fuel : Nat) (above : List Nat)
    (ds : List Declaration) : (c.visit (fuel + 1) above i (.ofDeclarations ds)).endpoints =
      n.links.map (looseHandler (ds ++ [⟨n.path, n.metadata⟩])) := by
  rw [visit, hn]
  dsimp only
  rw [fragmentsOf_of_owned howned, Walk.endpoints_append, Walk.endpoints_concat, List.flatMap_map,
    Frame.nest_ofDeclarations]
  refine Eq.trans (List.flatMap_congr fun l hl => ?_) List.map_eq_flatMap.symm
  rw [hlinks l hl]
  exact endpoints_bind_handler hviews (hlinks l hl)

/-- The walk over a table with an inclusion is the walk over what is included. -/
theorem endpoints_visit_inclusion (howned : c.owned = []) {i j : Nat} {n : Node}
    (hn : c.graph.nodes[i]? = some n) {l : Link} (hlinks : n.links = [l])
    (hbinding : l.binding = .inclusion) (hl : c.graph.lookup? l.target = some j) (hne : j ≠ i)
    (fuel : Nat) (ds : List Declaration) :
    (c.visit (fuel + 1) [] i (.ofDeclarations ds)).endpoints =
      (c.visit fuel [i] j (.ofDeclarations (ds ++ [⟨n.path, n.metadata⟩] ++
        [⟨l.path, l.metadata⟩]))).endpoints := by
  have hout : [i].contains j = false := by simpa using hne
  rw [visit, hn]
  dsimp only
  rw [fragmentsOf_of_owned howned, Walk.endpoints_append, Walk.endpoints_concat, List.flatMap_map,
    hlinks, List.flatMap_singleton, hbinding, hl]
  dsimp only
  rw [hout, Frame.nest_ofDeclarations, Frame.nest_ofDeclarations]
  rfl

theorem inclusionsOf_handlers (c : Corpus) {n : Node} (hlinks : ∀ l ∈ n.links, l.binding = .handler)
    (i : Nat) : c.inclusionsOf n i = [] := by
  have hnone : n.links.filter (·.binding == .inclusion) = [] := by
    refine List.filter_eq_nil_iff.mpr fun l hl => ?_
    rw [hlinks l hl]
    decide
  rw [inclusionsOf, hnone]
  rfl

theorem roots_table {n : Node} (hn : n.kind = .urlTable)
    (hlinks : ∀ l ∈ n.links, l.binding = .handler) : roots ⟨{ nodes := [n] }, []⟩ = [0] := by
  have hincluded : included ⟨{ nodes := [n] }, []⟩ = [] := by
    simp [included, Graph.places, Graph.isAbsorbed, inclusionsOf_handlers _ hlinks]
  simp [roots, hincluded, containers, Graph.places, Graph.isAbsorbed, hn, NodeKind.isContainer]

theorem roots_inclusion {n m : Node} {l : Link} (hn : n.kind = .urlTable) (hm : m.kind = .urlTable)
    (hlinks : ∀ l ∈ n.links, l.binding = .handler) (hl : m.links = [l])
    (hbinding : l.binding = .inclusion)
    (htarget : Graph.lookup? { nodes := [n, m] } l.target = some 0) :
    roots ⟨{ nodes := [n, m] }, []⟩ = [1] := by
  have hone : inclusionsOf ⟨{ nodes := [n, m] }, []⟩ m 1 = [0] := by
    simp [inclusionsOf, hl, hbinding, htarget]
  have hincluded : included ⟨{ nodes := [n, m] }, []⟩ = [0] := by
    simp [included, Graph.places, Graph.isAbsorbed, inclusionsOf_handlers _ hlinks, hone]
  simp [roots, hincluded, containers, Graph.places, Graph.isAbsorbed, hn, hm, NodeKind.isContainer]

end Corpus

namespace Composition

open Corpus (looseHandler)

theorem endpoints_ofParts_nil {nodes : List Node} (hdistinct : (nodes.map Node.key).Nodup)
    (hfree : ∀ n ∈ nodes, n.stands = none) :
    (ofParts [] nodes).endpoints = (Corpus.walk ⟨{ nodes }, []⟩).endpoints := by
  have hcorpus : Corpus.ofParts [] nodes = ⟨{ nodes }, []⟩ := by
    rw [Corpus.ofParts, Graph.absorbAll_of_free hdistinct hfree]
    rfl
  rw [endpoints_ofParts, hcorpus]
  rfl

/-- A table of views alone has an endpoint for each of them, in order. -/
theorem endpoints_table {n : Node} (hn : n.kind = .urlTable) (hstands : n.stands = none)
    (hlinks : ∀ l ∈ n.links, l.binding = .handler) :
    (ofParts [] [n]).endpoints = n.links.map (looseHandler [⟨n.path, n.metadata⟩]) := by
  have hviews : ∀ k ∈ [n], k.kind ≠ .viewFunction := by
    refine List.forall_mem_singleton.mpr ?_
    rw [hn]
    decide
  have hdistinct : ([n].map Node.key).Nodup := List.nodup_singleton _
  rw [endpoints_ofParts_nil hdistinct (List.forall_mem_singleton.mpr hstands), Corpus.walk,
    Corpus.roots_table hn hlinks, Walk.endpoints_concat, List.map_singleton, List.flatMap_singleton]
  exact Corpus.endpoints_visit_handlers (c := ⟨{ nodes := [n] }, []⟩) hviews rfl rfl hlinks 0 [] []

/-- A table that includes a table of views has the endpoints of the latter, below its own route and
that of the inclusion. -/
theorem endpoints_inclusion {n m : Node} {l : Link} (hn : n.kind = .urlTable)
    (hm : m.kind = .urlTable) (hnstands : n.stands = none) (hmstands : m.stands = none)
    (hne : n.key ≠ m.key) (hlinks : ∀ l ∈ n.links, l.binding = .handler) (hl : m.links = [l])
    (hbinding : l.binding = .inclusion) (htarget : l.target = .inUnit n.unit n.module n.name) :
    (ofParts [] [n, m]).endpoints =
      n.links.map (looseHandler [⟨m.path, m.metadata⟩, ⟨l.path, l.metadata⟩,
        ⟨n.path, n.metadata⟩]) := by
  have hviews : ∀ k ∈ [n, m], k.kind ≠ .viewFunction := by
    refine List.forall_mem_cons.mpr ⟨?_, List.forall_mem_singleton.mpr ?_⟩
    · rw [hn]
      decide
    · rw [hm]
      decide
  have hdistinct : ([n, m].map Node.key).Nodup :=
    List.nodup_cons.mpr ⟨by simpa using hne, List.nodup_singleton _⟩
  have hfree : ∀ k ∈ [n, m], k.stands = none :=
    List.forall_mem_cons.mpr ⟨hnstands, List.forall_mem_singleton.mpr hmstands⟩
  have hgraph := Graph.absorbAll_of_free hdistinct hfree
  have hlookup : Graph.lookup? { nodes := [n, m] } l.target = some 0 := by
    have hplace := @Graph.lookup?_inUnit [n, m] 0 n
    rw [hgraph] at hplace
    rw [htarget]
    exact hplace rfl hnstands
  rw [endpoints_ofParts_nil hdistinct hfree, Corpus.walk,
    Corpus.roots_inclusion hn hm hlinks hl hbinding hlookup, Walk.endpoints_concat,
    List.map_singleton, List.flatMap_singleton]
  have hinclusion :=
    Corpus.endpoints_visit_inclusion (c := ⟨{ nodes := [n, m] }, []⟩) rfl
      (i := 1) rfl hl hbinding hlookup (by decide) 1 []
  have hhandlers :=
    Corpus.endpoints_visit_handlers (c := ⟨{ nodes := [n, m] }, []⟩) hviews rfl
      (i := 0) rfl hlinks 0 [1] [⟨m.path, m.metadata⟩, ⟨l.path, l.metadata⟩]
  exact hinclusion.trans hhandlers

end Composition

/-! ### Endpoints of both tables -/

namespace SourceUnit

variable {u : SourceUnit} {ds : List Declaration} {outer : List Char}

/-- What an inventory tells of the view of an entry. Its route is behind what `outer` has, in one
piece with it, and both are behind other pieces. -/
def entryEndpoint (u : SourceUnit) (pieces : List (List Char)) (outer : List Char)
    (e : TableEntry) : Endpoint where
  method := .any
  path :=
  String.ofList (Path.absolute (Path.join (pieces ++ [(Pattern.normalize (outer ++ e.given)).1, []])))
  symbol := stored e.view
  location := ⟨u.identity, 1⟩
  metadata := {}
  params := []
  unresolved := none

theorem piece_stored (route : List Char) (metadata : Metadata) :
    Declaration.piece ⟨stored route, metadata⟩ = (Pattern.normalize route).1 := by
  rw [Declaration.piece, stored, String.toList_ofList]

theorem Binds.bare_looseHandler {p : TableEntry × Metadata} {l : Link} (h : u.Binds outer p l)
    (ds : List Declaration) :
    (Corpus.looseHandler ds l).bare = u.entryEndpoint (ds.map Declaration.piece) outer p.1 := by
  obtain ⟨hsymbol, -, hpath, -, hlocation⟩ := h
  have hpieces : (Frame.ofDeclarations (ds ++ [⟨l.path, l.metadata⟩] ++ [⟨"", {}⟩])).pieces =
      ds.map Declaration.piece ++ [(Pattern.normalize (outer ++ p.1.given)).1, []] := by
    rw [hpath, Frame.ofDeclarations, List.append_assoc, List.map_append, List.map_append,
      List.map_singleton, piece_stored]
    rfl
  rw [Corpus.looseHandler, Corpus.anyEndpoint, Frame.endpoint, Frame.nest_ofDeclarations,
    Endpoint.bare, Frame.path, hpieces, hsymbol, hlocation]
  rfl

theorem map_bare_looseHandler {ps : List (TableEntry × Metadata)} {links : List Link}
    (h : List.Forall₂ (u.Binds outer) ps links) (ds : List Declaration) :
    (links.map (Corpus.looseHandler ds)).map Endpoint.bare =
      (ps.map Prod.fst).map (u.entryEndpoint (ds.map Declaration.piece) outer) := by
  induction h with
  | nil => rfl
  | cons hp _ ih => exact congrArg₂ List.cons (hp.bare_looseHandler ds) ih

theorem forall_handler {ps : List (TableEntry × Metadata)} {links : List Link}
    (h : List.Forall₂ (u.Binds outer) ps links) : ∀ l ∈ links, l.binding = .handler := by
  induction h with
  | nil => exact fun _ hl => absurd hl List.not_mem_nil
  | cons hp _ ih => exact List.forall_mem_cons.mpr ⟨hp.binding, ih⟩

variable (hpython : u.language = .python) (flag : Bool) {r : Quotation} (hr : r.IsWritten)
  {entries : List TableEntry} (hentries : ∀ e ∈ entries, e.IsWritten)

include hpython hr hentries

theorem endpoints_inline (htext : u.text.toList = inlineTable r entries) :
    (Composition.ofParts (u.report flag).fragments (u.report flag).nodes).endpoints.map
      Endpoint.bare = entries.map (u.entryEndpoint [[]] r.content) := by
  obtain ⟨ps, links, hps, hbinds, hnodes, hfragments⟩ := nodes_inline hpython flag hr hentries htext
  rw [hnodes, hfragments, Composition.endpoints_table rfl rfl (forall_handler hbinds)]
  exact (map_bare_looseHandler hbinds _).trans (congrArg _ hps)

theorem endpoints_named (htext : u.text.toList = namedTable r entries) :
    (Composition.ofParts (u.report flag).fragments (u.report flag).nodes).endpoints.map
      Endpoint.bare = entries.map (u.entryEndpoint [[], (Pattern.normalize r.content).1, []] []) := by
  obtain ⟨ps, links, hps, hbinds, hnodes, hfragments⟩ := nodes_named hpython flag hr hentries htext
  let n := u.tableNode "sub_patterns" 1 links
  let m := u.tableNode "urlpatterns" 2 [u.inclusionLink r.content]
  have hne : n.key ≠ m.key :=
    fun h => absurd (congrArg Prod.snd h) (by decide : "sub_patterns" ≠ "urlpatterns")
  have hpieces : [⟨"", {}⟩, ⟨stored r.content, {}⟩, ⟨"", {}⟩].map Declaration.piece =
      [[], (Pattern.normalize r.content).1, []] := by
    rw [List.map_cons, List.map_cons, piece_stored]
    rfl
  have hendpoints :=
    @Composition.endpoints_inclusion n m _ rfl rfl rfl rfl hne (forall_handler hbinds) rfl rfl rfl
  rw [hnodes, hfragments, hendpoints, ← hps, ← hpieces]
  exact map_bare_looseHandler hbinds _

end SourceUnit

/-! ### Inventories -/

namespace Analysis

/-- An analysis of one unit keeps endpoints of its composition. -/
theorem exists_ofUnits_singleton (flag : Bool) (u : SourceUnit) :
    ∃ a, ofUnits flag false [u] = .ok a ∧ a.inventory = ⟨Inventory.kept (Inventory.sorted
      (Composition.ofParts (u.report flag).fragments (u.report flag).nodes).endpoints)⟩ := by
  have hread : readUnits flag false [u] = .ok [u.report flag] := rfl
  have hreports : ofUnits flag false [u] = ofReports [u.report flag] := by
    rw [ofUnits, hread]
    rfl
  rw [hreports, ofReports, List.flatMap_singleton, List.flatMap_singleton, ofParts,
    Inventory.build_eq]
  exact ⟨_, rfl, rfl⟩

/-- Entries that are included in place and entries of a table that is included by name have the same
routes in the inventory, when the route of the inclusion and that of each entry meet at a slash that
no placeholder reaches over. -/
theorem inclusions_agree (identity : String) (flag : Bool) {r : Quotation} (hr : r.IsWritten)
    {entries : List TableEntry} (hentries : ∀ e ∈ entries, e.IsWritten)
    (hmeets : ∀ e ∈ entries, Pattern.MeetsAtSlash r.content e.given) :
    ∃ a b, ofUnits flag false [⟨identity, .python, String.ofList (inlineTable r entries)⟩] = .ok a ∧
      ofUnits flag false [⟨identity, .python, String.ofList (namedTable r entries)⟩] = .ok b ∧
      a.inventory.routes = b.inventory.routes := by
  let u : SourceUnit := ⟨identity, .python, String.ofList (inlineTable r entries)⟩
  let v : SourceUnit := ⟨identity, .python, String.ofList (namedTable r entries)⟩
  have hinline := u.endpoints_inline rfl flag hr hentries String.toList_ofList
  have hnamed := v.endpoints_named rfl flag hr hentries String.toList_ofList
  obtain ⟨a, ha, hinventory⟩ := exists_ofUnits_singleton flag u
  obtain ⟨b, hb, hinventory'⟩ := exists_ofUnits_singleton flag v
  refine ⟨a, b, ha, hb, ?_⟩
  have hentry : ∀ e ∈ entries, u.entryEndpoint [[]] r.content e =
      v.entryEndpoint [[], (Pattern.normalize r.content).1, []] [] e := by
    intro e he
    have hjoin : Path.join ([[]] ++ [(Pattern.normalize (r.content ++ e.given)).1, []]) =
        Path.join ([[], (Pattern.normalize r.content).1, []] ++
          [(Pattern.normalize ([] ++ e.given)).1, []]) := by
      refine Path.join_congr ?_
      have hnone : Path.segments [] = [] := rfl
      simp [hnone, (hmeets e he).segments]
    rw [SourceUnit.entryEndpoint, hjoin]
    rfl
  rw [hinventory, hinventory']
  exact Inventory.routes_congr (hinline.trans ((List.map_congr_left hentry).trans hnamed.symm))

theorem inclusions_agree_at_slash :
    let r := Quotation.quoted "api/".toList
    let entries : List TableEntry := [⟨.path, .quoted "users".toList, "v".toList, []⟩,
      ⟨.rePath, .quoted "^items/$".toList, "views.items".toList, []⟩]
    r.IsWritten ∧ (∀ e ∈ entries, e.IsWritten) ∧
      (∀ e ∈ entries, Pattern.MeetsAtSlash r.content e.given) ∧ ∃ a b,
        ofUnits true false [⟨"u.py", .python, String.ofList (inlineTable r entries)⟩] = .ok a ∧
        ofUnits true false [⟨"u.py", .python, String.ofList (namedTable r entries)⟩] = .ok b ∧
        a.inventory.routes = b.inventory.routes := by
  intro r entries
  have hr : r.IsWritten := Quotation.isWritten_quoted (by decide) (by decide) (by decide)
  have hentries : ∀ e ∈ entries, e.IsWritten := by
    refine List.forall_mem_cons.mpr ⟨⟨?_, by decide, List.forall_mem_nil _⟩,
      List.forall_mem_singleton.mpr ⟨?_, by decide, List.forall_mem_nil _⟩⟩
    · exact Quotation.isWritten_quoted (by decide) (by decide) (by decide)
    · exact Quotation.isWritten_quoted (by decide) (by decide) (by decide)
  have hmeets : ∀ e ∈ entries, Pattern.MeetsAtSlash r.content e.given := by
    have hclosing := @Pattern.MeetsAtSlash.closing "api".toList
    refine List.forall_mem_cons.mpr ⟨hclosing ?_, List.forall_mem_singleton.mpr (hclosing ?_)⟩
    · decide +kernel
    · decide +kernel
  exact ⟨hr, hentries, hmeets, inclusions_agree "u.py" true hr hentries hmeets⟩

/-- Without a slash between them, routes in place run together, and those of a
table of its own do not. -/
theorem inclusions_differ :
    let r := Quotation.quoted "api".toList
    let e : TableEntry := ⟨.path, .quoted "users".toList, "v".toList, []⟩
    r.IsWritten ∧ e.IsWritten ∧
    inlineTable r [e] = "urlpatterns = [path('api', include([path('users', v)]))]\n".toList ∧
    namedTable r [e] =
      "sub_patterns = [path('users', v)]\nurlpatterns = [path('api', include(sub_patterns))]\n".toList ∧
    (ofUnits true false [⟨"u.py", .python, String.ofList (inlineTable r [e])⟩]).map
      (·.inventory.routes) = .ok [(.any, "/apiusers", "v")] ∧
    (ofUnits true false [⟨"u.py", .python, String.ofList (namedTable r [e])⟩]).map
      (·.inventory.routes) = .ok [(.any, "/api/users", "v")] := by
  intro r e
  have hr : r.IsWritten := Quotation.isWritten_quoted (by decide) (by decide) (by decide)
  have he : e.IsWritten :=
    ⟨Quotation.isWritten_quoted (by decide) (by decide) (by decide), by decide, List.forall_mem_nil _⟩
  have hentries : ∀ e' ∈ [e], e'.IsWritten := List.forall_mem_singleton.mpr he
  let u : SourceUnit := ⟨"u.py", .python, String.ofList (inlineTable r [e])⟩
  let v : SourceUnit := ⟨"u.py", .python, String.ofList (namedTable r [e])⟩
  obtain ⟨a, ha, hinventory⟩ := exists_ofUnits_singleton true u
  obtain ⟨b, hb, hinventory'⟩ := exists_ofUnits_singleton true v
  have hinline : _ = [u.entryEndpoint [[]] r.content e].map Endpoint.bare :=
    u.endpoints_inline rfl true hr hentries String.toList_ofList
  have hnamed : _ = [v.entryEndpoint [[], (Pattern.normalize r.content).1, []] [] e].map
      Endpoint.bare :=
    v.endpoints_named rfl true hr hentries String.toList_ofList
  refine ⟨hr, he, ?_, ?_, ?_, ?_⟩
  · rw [String.toList_ofList]
    decide +kernel
  · rw [String.toList_ofList]
    decide +kernel
  · rw [ha, Except.map, hinventory, Inventory.routes_congr hinline]
    decide +kernel
  · rw [hb, Except.map, hinventory', Inventory.routes_congr hnamed]
    decide +kernel

end Analysis

end EndpointCensus
