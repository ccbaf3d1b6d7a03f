import EndpointCensus.Proofs.Idiom.TableRow
import EndpointCensus.Proofs.Unit.Attachment

/-!
Two ways to include entries under a route: to list them in place, or to list them in a table of
their own and to name it. What is listed in place is flattened as it is read, its routes run
together; what is named goes through the graph, and its routes are joined as paths. Both give the
same endpoints where the routes meet at a slash.
-/

namespace EndpointCensus

open Token (listing)

/-! ### Texts -/

def inlineTable (r : Quotation) (entries : List TableEntry) : List Char :=
  rowsText [assigning "urlpatterns".toList [including r (listing (entries.map TableEntry.tokens))]]

/-- A table of the entries, and one that includes it by name. -/
def namedTable (r : Quotation) (entries : List TableEntry) : List Char :=
  rowsText [assigning "sub_patterns".toList (entries.map TableEntry.tokens),
    assigning "urlpatterns".toList [including r ("sub_patterns".toList.map .code)]]

/-! ### Reading -/

/-- What is read from a table at the edge of its unit. -/
def tableSighting (e : Emission) : Sighting := ⟨.urlPattern, e, [], none⟩

namespace Reading

/-- Nothing but the sightings in the outermost scope of a unit of Python without imports. -/
structure IsPlain (u : SourceUnit) (r : Reading) (sightings : List Sighting) : Prop where
  scopes : r.scopes = []
  imports : r.imports = .empty u.identity.toList .python
  sightings : r.sightings = sightings

variable {u : SourceUnit} {r : Reading} {sightings : List Sighting} {s : Statement} {number : Nat}
  {name : List Char} {items : List (List Token)}

/-- A table adds what its idiom reads. -/
theorem IsPlain.readOne (h : r.IsPlain u sightings) (hpython : u.language = .python) (flag : Bool)
    (hname : name ∈ tableNames) (hs : s.IsRow number (assigning name items)) (rest : List Statement)
    {e : Emission} {es : List Emission} (hsighted : ∀ x ∈ e :: es, x.isSighted = true)
    (hmatch : UrlTable.match? (r.context .python s rest) = some (e :: es)) :
    (r.readOne u flag s rest).IsPlain u (sightings ++ (e :: es).map tableSighting) := by
  obtain ⟨imports, scopes, routers, verbAliases, found, diagnostics⟩ := r
  obtain ⟨hscopes, himports, hsightings⟩ := h
  obtain rfl : scopes = [] := hscopes
  obtain rfl : found = sightings := hsightings
  have hscan : imports.scan s = (imports, false) := by
    obtain rfl := himports
    exact scanPython_assigning hname hs.tokens _
  obtain ⟨others, hmatches⟩ := matches_assigning hname rfl hs.tokens hmatch
  unfold Reading.readOne
  dsimp only
  rw [hscan, hpython]
  dsimp only
  rw [if_neg Bool.false_ne_true, beq_self_eq_true, if_pos rfl,
    show closeScopes [] s.indent = [] from rfl, hmatches, scope?_assigning hname hs.tokens]
  dsimp only
  refine ⟨?_, ?_, ?_⟩
  · rw [scopes_foldl_record]
    rfl
  · rw [imports_foldl_record]
    exact himports
  · rw [sightings_foldl_record, List.filter_eq_self.mpr hsighted]
    rfl

end Reading

/-- The node of a table. -/
def tableEmission (name : List Char) (line : Nat) : Emission := .node name .urlTable [] {} [] line

theorem isSighted_table (name outer : List Char) (line : Nat) (ps : List (TableEntry × Metadata)) :
    ∀ x ∈ tableEmission name line :: ps.map (fun p => p.1.link name outer line p.2), x.isSighted =
      true := by
  refine List.forall_mem_cons.mpr ⟨rfl, List.forall_mem_map.mpr fun p _ => rfl⟩

namespace SourceUnit

variable {u : SourceUnit} (hpython : u.language = .python) (flag : Bool) {r : Quotation}
  (hr : r.IsWritten) {entries : List TableEntry} (hentries : ∀ e ∈ entries, e.IsWritten)

include hpython hr hentries

/-- Entries that are listed in place are read as links of the table that includes them. -/
theorem reading_inline (htext : u.text.toList = inlineTable r entries) :
    ∃ ps : List (TableEntry × Metadata), ps.map Prod.fst = entries ∧
      (u.reading flag).IsPlain u ((tableEmission "urlpatterns".toList 1 ::
        ps.map fun p => p.1.link "urlpatterns".toList r.content 1 p.2).map tableSighting) := by
  have hname : "urlpatterns".toList ∈ tableNames := by decide
  have hlisted :=
    Token.isSolid_listing (List.forall_mem_map.mpr fun e he => (hentries e he).isSolid)
  have hrow := isRow_assigning hname (List.forall_mem_singleton.mpr (isSolid_including hr hlisted))
  have hrows := readStatements_rows (List.forall_mem_singleton.mpr hrow)
  have hreading : u.reading flag =
      Reading.readAll u flag { imports := .empty u.identity.toList u.language }
        (readStatements .python (inlineTable r entries)).statements := by
    rw [reading, hpython, htext]
  rw [hreading, inlineTable]
  generalize (readStatements .python (rowsText _)).statements = ss at hrows ⊢
  cases hrows with
  | @cons _ s _ _ hs hnone =>
    cases hnone
    have hs : s.IsRow 1 (assigning "urlpatterns".toList
        [including r (listing (entries.map TableEntry.tokens))]) := hs
    let start : Reading := { imports := .empty u.identity.toList u.language }
    have hstart : start.IsPlain u [] := ⟨rfl, by rw [← hpython], rfl⟩
    obtain ⟨ps, hps, hmatch⟩ :=
      UrlTable.match?_inline (c := start.context .python s []) hname hs.lineAt hentries hr hs.tokens
    rw [show Context.line (start.context .python s []) = 1 from hs.startLine] at hmatch
    exact ⟨ps, hps, hstart.readOne hpython flag hname hs [] (isSighted_table _ _ _ ps) hmatch⟩

/-- Entries in a table of their own are read as links of that table, and it is linked to by name. -/
theorem reading_named (htext : u.text.toList = namedTable r entries) :
    ∃ ps : List (TableEntry × Metadata), ps.map Prod.fst = entries ∧
      (u.reading flag).IsPlain u ((tableEmission "sub_patterns".toList 1 ::
        ps.map fun p => p.1.link "sub_patterns".toList [] 1 p.2).map tableSighting ++
        [tableEmission "urlpatterns".toList 2, .link "urlpatterns".toList
          (.table "sub_patterns".toList) .inclusion r.content {} 2].map tableSighting) := by
  have hsub : "sub_patterns".toList ∈ tableNames := by decide
  have hname : "urlpatterns".toList ∈ tableNames := by decide
  have hfirst := isRow_assigning hsub (List.forall_mem_map.mpr fun e he => (hentries e he).isSolid)
  have hpart : Token.IsSolid ("sub_patterns".toList.map .code) :=
    Token.isSolid_dottedName (by decide)
  have hsecond := isRow_assigning hname (List.forall_mem_singleton.mpr (isSolid_including hr hpart))
  have hrows :=
    readStatements_rows (List.forall_mem_cons.mpr ⟨hfirst, List.forall_mem_singleton.mpr hsecond⟩)
  have hreading : u.reading flag =
      Reading.readAll u flag { imports := .empty u.identity.toList u.language }
        (readStatements .python (namedTable r entries)).statements := by
    rw [reading, hpython, htext]
  rw [hreading, namedTable]
  generalize (readStatements .python (rowsText _)).statements = ss at hrows ⊢
  cases hrows with
  | @cons _ s _ _ hs hrest =>
    cases hrest with
    | @cons _ t _ _ ht hnone =>
      cases hnone
      have hs : s.IsRow 1 (assigning "sub_patterns".toList (entries.map TableEntry.tokens)) := hs
      have ht : t.IsRow 2 (assigning "urlpatterns".toList
          [including r ("sub_patterns".toList.map .code)]) := ht
      let start : Reading := { imports := .empty u.identity.toList u.language }
      have hstart : start.IsPlain u [] := ⟨rfl, by rw [← hpython], rfl⟩
      obtain ⟨ps, hps, hmatch⟩ :=
        UrlTable.match?_entries (c := start.context .python s [t]) hsub hs.lineAt hentries hs.tokens
      rw [show Context.line (start.context .python s [t]) = 1 from hs.startLine] at hmatch
      have hread := hstart.readOne hpython flag hsub hs [t] (isSighted_table _ _ _ ps) hmatch
      have hlink :=
        UrlTable.match?_named (c := (start.readOne u flag s [t]).context .python t []) hname
          ht.lineAt hr (by decide) (by decide) ht.tokens
      rw [show Context.line ((start.readOne u flag s [t]).context .python t []) =
        2 from ht.startLine] at hlink
      exact ⟨ps, hps, hread.readOne hpython flag hname ht []
        (List.forall_mem_cons.mpr ⟨rfl, List.forall_mem_singleton.mpr rfl⟩) hlink⟩

end SourceUnit

/-! ### Lowering -/

/-- A node with more links behind those that it has. -/
def Node.withLinks (links : List Link) (n : Node) : Node := { n with links := n.links ++ links }

namespace Lowering

variable {l : Lowering}

theorem has_modify (name : String) {f : Node → Node} (hf : ∀ n, (f n).name = n.name)
    (key : String) : (l.modify name f).has key = l.has key := by
  rw [has, modify, List.any_map, has]
  congr 1
  funext n
  rw [Function.comp_apply]
  split
  · rw [hf]
  · rfl

theorem modify_eq_self (name : String) {f : Node → Node} (hf : ∀ n, f n = n) :
    l.modify name f = l := by
  have hmap : (l.nodes.map fun n => if n.name == name then f n else n) = l.nodes := by
    refine (List.map_congr_left fun n _ => ?_).trans (List.map_id _)
    rw [hf, ite_self]
    rfl
  rw [modify, hmap]

theorem modify_modify (name : String) {f g : Node → Node} (hf : ∀ n, (f n).name = n.name) :
    (l.modify name f).modify name g = l.modify name (g ∘ f) := by
  have hmap : ((l.nodes.map fun n => if n.name == name then f n else n).map
      fun n => if n.name == name then g n else n) = l.nodes.map fun n =>
        if n.name == name then (g ∘ f) n else n := by
    rw [List.map_map]
    refine List.map_congr_left fun n _ => ?_
    rw [Function.comp_apply]
    by_cases hn : (n.name == name) = true
    · rw [if_pos hn, if_pos (by rwa [hf]), if_pos hn]
      rfl
    · rw [if_neg hn, if_neg hn, if_neg hn]
  rw [modify, modify, modify]
  exact congrArg (fun nodes => ({ l with nodes } : Lowering)) hmap

theorem scopedName_nil (name : List Char) : scopedName [] name = stored name := by
  rw [scopedName, List.nil_append, List.intercalate_singleton]

/-- What a name means does not depend on what nodes hold. -/
theorem reference_modify (name : String) {f : Node → Node} (hf : ∀ n, (f n).name = n.name)
    (scope : List (List Char)) (view : List Char) :
    (l.modify name f).reference scope (.name view) = l.reference scope (.name view) := by
  have hvisible : (l.modify name f).visible? scope view = l.visible? scope view := by
    rw [visible?, visible?, funext (has_modify name hf)]
  rw [reference, hvisible]
  rfl

/-- The link to the view of an entry. -/
def entryLink (l : Lowering) (outer : List Char) (line : Nat) (p : TableEntry × Metadata) :
    Link where
  target := l.reference [] (.name p.1.view)
  symbol := stored p.1.view
  binding := .handler
  path := stored (outer ++ p.1.given)
  metadata := p.2
  location := ⟨l.identity, line⟩

/-- A table that is there keeps the link of its sighting at its end. -/
theorem attach_table {name : List Char} (hname : l.has (stored name) = true) (target : Target)
    (binding : Binding) (path : List Char) (metadata : Metadata) (line : Nat) :
    l.attach (tableSighting (.link name target binding path metadata line)) =
      (l.modify (stored name)
        (Node.withLinks [⟨l.reference [] target, target.symbol, binding, stored path, metadata,
          ⟨l.identity, line⟩⟩]), none) := by
  have hvisible : l.visible? [] name = some (stored name) := by
    have hscoped := scopedName_nil name
    exact hscoped ▸ visible?_of_has (hscoped.symm ▸ hname)
  have hparent : l.parent [] name line = (l, stored name) := by rw [parent, hvisible]
  rw [attach, tableSighting]
  dsimp only
  rw [hparent]
  rfl

/-- The links of a table are kept in the order of its entries. -/
theorem attachAll_entries {name : List Char} (hname : l.has (stored name) = true)
    (outer : List Char) (line : Nat) (ps : List (TableEntry × Metadata)) (rest : List Sighting) :
    l.attachAll ((ps.map fun p => p.1.link name outer line p.2).map tableSighting ++ rest) =
      (l.modify (stored name) (Node.withLinks (ps.map (l.entryLink outer line)))).attachAll rest := by
  induction ps generalizing l with
  | nil =>
    have hsame : l.modify (stored name) (Node.withLinks []) = l :=
      modify_eq_self _ fun n => by rw [Node.withLinks, List.append_nil]
    exact congrArg (fun l : Lowering => l.attachAll rest) hsame.symm
  | cons p ps ih =>
    let next := l.modify (stored name) (Node.withLinks [l.entryLink outer line p])
    have hname' (links : List Link) (n : Node) : (n.withLinks links).name = n.name := rfl
    have hattach : l.attach (tableSighting (p.1.link name outer line p.2)) = (next, none) :=
      attach_table hname ..
    have hnext : next.has (stored name) = true := (has_modify _ (hname' _) _).trans hname
    have hlinks : next.entryLink outer line = l.entryLink outer line := by
      funext q
      rw [entryLink, reference_modify _ (hname' _)]
      rfl
    have hboth : Node.withLinks (ps.map (l.entryLink outer line)) ∘
        Node.withLinks [l.entryLink outer line p] =
          Node.withLinks ((p :: ps).map (l.entryLink outer line)) := by
      funext n
      rw [Function.comp_apply, Node.withLinks, Node.withLinks, List.append_assoc]
      rfl
    have hstep : l.attachAll (((p :: ps).map fun p => p.1.link name outer line p.2).map
        tableSighting ++ rest) =
          next.attachAll ((ps.map fun p => p.1.link name outer line p.2).map tableSighting ++
            rest) := by
      rw [List.map_cons, List.map_cons, List.cons_append, attachAll, hattach]
      rfl
    rw [hstep, ih hnext, hlinks, modify_modify _ (hname' _), hboth]

/-- The first step of a lowering: tables become nodes. -/
theorem declare_table {name : List Char} (hfree : l.has (stored name) = false) (line : Nat) :
    l.declare (tableSighting (tableEmission name line)) =
      { l with nodes := l.nodes ++ [l.newNode (stored name) .urlTable line] } := by
  let n := l.newNode (stored name) .urlTable line
  let settled (n : Node) : Node :=
    { n with path := if n.path.isEmpty then stored [] else n.path, metadata := n.metadata.merge {} }
  have hfree : l.has n.name = false := hfree
  have hadd : l.add n = { l with nodes := l.nodes ++ [n] } := by
    rw [add, hfree]
    rfl
  calc l.declare (tableSighting (tableEmission name line))
      = (l.add n).modify n.name settled := by
        rw [declare, tableSighting, tableEmission]
        dsimp only
        rw [scopedName_nil]
        rfl
    _ = { l with nodes := ((l.add n).modify n.name settled).nodes } := by rw [hadd, modify]
    _ = { l with nodes := l.nodes ++ [n] } := by
        rw [nodes_modify_add hfree]
        rfl

/-- A table has no bases. -/
theorem addBases_table (name : List Char) (line : Nat) :
    l.addBases (tableSighting (tableEmission name line)) = l :=
  modify_eq_self _ fun n => by rw [List.map_nil, List.append_nil]

theorem foldl_declare_entries (name outer : List Char) (line : Nat)
    (ps : List (TableEntry × Metadata)) (l : Lowering) :
    ((ps.map fun p => p.1.link name outer line p.2).map tableSighting).foldl declare l = l := by
  induction ps with
  | nil => rfl
  | cons p ps ih => exact ih

theorem foldl_addBases_entries (name outer : List Char) (line : Nat)
    (ps : List (TableEntry × Metadata)) (l : Lowering) :
    ((ps.map fun p => p.1.link name outer line p.2).map tableSighting).foldl addBases l = l := by
  induction ps with
  | nil => rfl
  | cons p ps ih => exact ih

theorem attachAll_table (name : List Char) (line : Nat) (rest : List Sighting) :
    l.attachAll (tableSighting (tableEmission name line) :: rest) = l.attachAll rest := rfl

end Lowering

namespace SourceUnit

variable {u : SourceUnit} (hpython : u.language = .python) (flag : Bool) {r : Quotation}
  (hr : r.IsWritten) {entries : List TableEntry} (hentries : ∀ e ∈ entries, e.IsWritten)

/-- The node of a table of the unit. -/
def tableNode (u : SourceUnit) (name : String) (line : Nat) (links : List Link) : Node where
  unit := u.identity
  module := u.moduleName
  name := name
  kind := .urlTable
  location := ⟨u.identity, line⟩
  links := links

def inclusionLink (u : SourceUnit) (route : List Char) : Link where
  target := .inUnit u.identity u.moduleName "sub_patterns"
  symbol := "sub_patterns"
  binding := .inclusion
  path := stored route
  metadata := {}
  location := ⟨u.identity, 2⟩

/-- A link of the unit to the view of an entry. -/
structure Binds (u : SourceUnit) (outer : List Char) (p : TableEntry × Metadata) (link : Link) :
    Prop where
  symbol : link.symbol = stored p.1.view
  binding : link.binding = .handler
  path : link.path = stored (outer ++ p.1.given)
  metadata : link.metadata = p.2
  location : link.location = ⟨u.identity, 1⟩

theorem binds_entryLink (u : SourceUnit) {l : Lowering} (hidentity : l.identity = u.identity)
    {outer : List Char} (ps : List (TableEntry × Metadata)) :
    List.Forall₂ (u.Binds outer) ps (ps.map (l.entryLink outer 1)) := by
  induction ps with
  | nil => exact .nil
  | cons p ps ih => exact .cons ⟨rfl, rfl, rfl, rfl, by rw [← hidentity]; rfl⟩ ih

include hpython hr hentries

theorem nodes_inline (htext : u.text.toList = inlineTable r entries) :
    ∃ (ps : List (TableEntry × Metadata)) (links : List Link), ps.map Prod.fst = entries ∧
      List.Forall₂ (u.Binds r.content) ps links ∧
      (u.report flag).nodes = [u.tableNode "urlpatterns" 1 links] ∧
      (u.report flag).fragments = [] := by
  obtain ⟨ps, hps, hread⟩ := reading_inline hpython flag hr hentries htext
  let declared : Lowering := { u.lowering flag with nodes := [u.tableNode "urlpatterns" 1 []] }
  have hdeclare : (u.lowering flag).declare (tableSighting (tableEmission "urlpatterns".toList 1)) =
      declared :=
    Lowering.declare_table rfl 1
  have hkeeps := @Lowering.attachAll_entries declared "urlpatterns".toList rfl r.content 1 ps []
  have hlower : (u.lowering flag).lower (u.reading flag).sightings =
      ({ declared with nodes := [u.tableNode "urlpatterns" 1
        (ps.map (declared.entryLink r.content 1))] }, []) := by
    rw [hread.sightings, Lowering.lower, List.map_cons, List.foldl_cons, List.foldl_cons, hdeclare,
      Lowering.foldl_declare_entries, Lowering.addBases_table, Lowering.foldl_addBases_entries,
      Lowering.attachAll_table, ← List.append_nil (List.map _ _), hkeeps]
    rfl
  refine ⟨ps, ps.map (declared.entryLink r.content 1), hps, u.binds_entryLink rfl ps, ?_, ?_⟩
  · rw [nodes_report, hlower]
  · rw [fragments_report, hlower]

theorem nodes_named (htext : u.text.toList = namedTable r entries) :
    ∃ (ps : List (TableEntry × Metadata)) (links : List Link), ps.map Prod.fst = entries ∧
      List.Forall₂ (u.Binds []) ps links ∧
      (u.report flag).nodes =
        [u.tableNode "sub_patterns" 1 links, u.tableNode "urlpatterns" 2
          [u.inclusionLink r.content]] ∧
      (u.report flag).fragments = [] := by
  obtain ⟨ps, hps, hread⟩ := reading_named hpython flag hr hentries htext
  let first : Lowering := { u.lowering flag with nodes := [u.tableNode "sub_patterns" 1 []] }
  let declared : Lowering :=
    { u.lowering flag with
      nodes := [u.tableNode "sub_patterns" 1 [], u.tableNode "urlpatterns" 2 []] }
  have hfirst : (u.lowering flag).declare (tableSighting (tableEmission "sub_patterns".toList 1)) =
      first :=
    Lowering.declare_table rfl 1
  have hsecond : first.declare (tableSighting (tableEmission "urlpatterns".toList 2)) = declared :=
    Lowering.declare_table rfl 2
  -- The first table has its links before the second one gets its own.
  let filled : Lowering := { declared with nodes :=
    [u.tableNode "sub_patterns" 1 (ps.map (declared.entryLink [] 1)),
      u.tableNode "urlpatterns" 2 []] }
  let inclusion : Emission :=
    .link "urlpatterns".toList (.table "sub_patterns".toList) .inclusion r.content {} 2
  have hkeeps : declared.attachAll ((ps.map fun p => p.1.link "sub_patterns".toList [] 1 p.2).map
      tableSighting ++ [tableSighting (tableEmission "urlpatterns".toList 2),
        tableSighting inclusion]) =
      filled.attachAll [tableSighting (tableEmission "urlpatterns".toList 2),
        tableSighting inclusion] :=
    Lowering.attachAll_entries rfl [] 1 ps _
  have hincludes : filled.attach (tableSighting inclusion) = _ :=
    Lowering.attach_table rfl (.table "sub_patterns".toList) .inclusion r.content {} 2
  have hlower : (u.lowering flag).lower (u.reading flag).sightings =
      ({ declared with nodes := [u.tableNode "sub_patterns" 1 (ps.map (declared.entryLink [] 1)),
        u.tableNode "urlpatterns" 2 [u.inclusionLink r.content]] }, []) := by
    let sightings := tableSighting (tableEmission "sub_patterns".toList 1) ::
      (ps.map fun p => p.1.link "sub_patterns".toList [] 1 p.2).map tableSighting ++
        [tableSighting (tableEmission "urlpatterns".toList 2), tableSighting inclusion]
    have hsightings : (u.reading flag).sightings = sightings := hread.sightings
    have hdeclared : sightings.foldl Lowering.declare (u.lowering flag) = declared := by
      simp only [sightings, List.foldl_append, List.foldl_cons, hfirst,
        Lowering.foldl_declare_entries, hsecond]
      rfl
    have hbased : sightings.foldl Lowering.addBases declared = declared := by
      simp only [sightings, List.foldl_append, List.foldl_cons, Lowering.addBases_table,
        Lowering.foldl_addBases_entries]
      rfl
    have hattached : declared.attachAll sightings = filled.attachAll [tableSighting inclusion] :=
      hkeeps
    rw [hsightings, Lowering.lower, hdeclared, hbased, hattached, Lowering.attachAll, hincludes]
    rfl
  refine ⟨ps, ps.map (declared.entryLink [] 1), hps, u.binds_entryLink rfl ps, ?_, ?_⟩
  · rw [nodes_report, hlower]
  · rw [fragments_report, hlower]

end SourceUnit

end EndpointCensus
