import EndpointCensus.Proofs.Idiom.UrlTable
import EndpointCensus.Proofs.Path.PythonFile
import EndpointCensus.Proofs.Unit.Imports
import EndpointCensus.Proofs.Unit.Lowering

/-!
References to imported modules. Lowering a unit never changes its imports. So a name of the unit
that denotes the module of a file leads to the module name of the file, whichever statement uses it
and in whichever scopes.
-/

namespace EndpointCensus

open Text

/-! ### Lowering -/

namespace Lowering

variable {l : Lowering}

@[simp] theorem imports_modify (l : Lowering) (name : String) (f : Node → Node) :
    (l.modify name f).imports = l.imports := rfl

@[simp] theorem imports_add (l : Lowering) (n : Node) : (l.add n).imports = l.imports := by
  unfold add
  split <;> rfl

@[simp] theorem imports_addImplicit (l : Lowering) (key : String) (line : Nat) :
    (l.addImplicit key line).imports = l.imports := imports_add l _

theorem imports_declare (l : Lowering) (s : Sighting) : (l.declare s).imports = l.imports := by
  unfold declare
  split <;> simp

theorem imports_addBases (l : Lowering) (s : Sighting) : (l.addBases s).imports = l.imports := by
  unfold addBases
  split <;> simp

theorem imports_receiver (l : Lowering) (scope : List (List Char)) (name : List Char) (line : Nat) :
    (l.receiver scope name line).1.imports = l.imports := by
  unfold receiver
  split
  · rfl
  · split <;> simp

theorem imports_parent (l : Lowering) (scope : List (List Char)) (name : List Char) (line : Nat) :
    (l.parent scope name line).1.imports = l.imports := by
  unfold parent
  split
  · rfl
  · dsimp only
    split <;> simp

theorem imports_attach (l : Lowering) (s : Sighting) : (l.attach s).1.imports = l.imports := by
  unfold attach
  split
  · next owner _ _ _ _ _ _ _ =>
    cases owner with
    | none => rfl
    | some name => exact imports_receiver l _ name _
  · exact imports_parent l _ _ _
  · split <;> rfl
  · rfl
  · rfl

/-- A name leads to a reference wherever a statement in these scopes uses it. -/
structure LeadsTo (l : Lowering) (scope : List (List Char)) (name : List Char) (r : Reference) :
    Prop where
  target : l.reference scope (.name name) = r
  factory : (∀ n ∈ l.nodes, n.factory ≠ some (stored name)) →
    l.reference scope (.factory name) = { r with factory := true }
  receiver : ∀ line, l.receiver scope name line = (l, r)
  /-- The node that links of the name are kept at stands for the reference. -/
  parent : ∀ line, ∃ n ∈ (l.parent scope name line).1.nodes,
    n.name = (l.parent scope name line).2 ∧ n.stands = some r

/-- An imported name leads to what was imported, where no node has the name. -/
theorem leadsTo_of_imported? {scope : List (List Char)} {name : List Char} {r : Reference}
    (hvisible : l.visible? scope name = none) (h : l.imported? name = some r) :
    l.LeadsTo scope name r := by
  have helsewhere : l.elsewhere name = r := by rw [elsewhere, h]
  refine ⟨?_, fun hfactory => ?_, fun line => ?_, fun line => ?_⟩
  · rw [reference, hvisible, helsewhere]
  · have hnone : (l.nodes.any fun n => n.factory == some (stored name)) = false :=
      List.any_eq_false.mpr fun n hn => by simpa using hfactory n hn
    rw [reference, hnone, if_neg Bool.false_ne_true, helsewhere]
  · rw [receiver, hvisible]
    dsimp only
    rw [h]
  · let new := l.newNode (scopedName scope name) .router line
    have hnodes := nodes_modify_add (n := new) (has_of_visible?_none hvisible) fun n =>
      { n with stands := some r }
    have hparent : l.parent scope name line =
        ((l.add new).modify new.name fun n => { n with stands := some r }, new.name) := by
      rw [parent, hvisible]
      dsimp only
      rw [h]
      rfl
    rw [hparent, hnodes]
    exact ⟨{ new with stands := some r }, by simp, rfl, rfl⟩

end Lowering

/-! ### References to modules -/

namespace Meaning

/-- Including the name includes the table of the module: the name was imported as a module, or else
from a package below the root and without an ending by which it would be a table itself. -/
def IncludesModule : Meaning → Prop
  | member above name => above ≠ [] ∧ endsWith name "patterns" = false
  | module _ => True

end Meaning

theorem stored_dotted (xs ys : List Char) :
    stored xs ++ "." ++ stored ys = stored (xs ++ '.' :: ys) := by
  have hdot : "." = String.ofList ['.'] := rfl
  rw [stored, stored, stored, hdot, ← String.ofList_append, ← String.ofList_append,
    List.append_assoc]
  rfl

theorem stored_joinParts {path : List (List Char)} (hne : path ≠ []) (hpath : ∀ s ∈ path, IsWord s)
    (name : List Char) : stored (ImportTable.joinParts path) ++ "." ++ stored name =
      stored (ImportTable.joinParts (path ++ [name])) := by
  rw [← ImportTable.joinModule_joinParts hpath, ImportTable.joinModule,
    if_neg (by simpa using ImportTable.joinParts_ne_nil hne hpath), stored_dotted]

namespace Lowering

variable {l : Lowering} {scope : List (List Char)} {name member : List Char} {meaning : Meaning}

/-- A member of a module. -/
theorem imported?_member (hget : l.imports.get? name = some meaning.imported) (hname : IsWord name)
    (hparts : ∀ s ∈ meaning.parts, IsWord s) (hmember : IsWord member) :
    l.imported? (name ++ '.' :: member) =
      some (.external (stored (ImportTable.joinParts meaning.parts)) (stored member)) := by
  rw [imported?, ImportTable.resolve?_member hget hname hparts hmember]
  rfl

/-- A member that is included is a table, by its ending, or a module with a table. -/
theorem tableReference_member (hget : l.imports.get? name = some meaning.imported)
    (hname : IsWord name) (hparts : ∀ s ∈ meaning.parts, IsWord s) (hmember : IsWord member) :
    l.tableReference (name ++ '.' :: member) =
      if endsWith member "patterns" then .external (stored (ImportTable.joinParts meaning.parts))
        (stored member)
      else .external (stored (ImportTable.joinParts meaning.parts ++ '.' :: member))
        "urlpatterns" := by
  rw [tableReference, ImportTable.resolve?_member hget hname hparts hmember]
  dsimp only
  rw [stored_dotted]

/-- A name that was imported with the ending of tables. -/
theorem tableReference_table {above : List (List Char)} {last : List Char}
    (hget : l.imports.get? name = some (Meaning.member above last).imported) (hname : IsWord name)
    (hending : endsWith last "patterns" = true) :
    l.tableReference name = .external (stored (ImportTable.joinParts above)) (stored last) := by
  rw [tableReference, ImportTable.resolve?_name hget hname]
  dsimp only [Meaning.imported]
  rw [if_pos hending]

/-- The table of a module. -/
theorem tableReference_module (hget : l.imports.get? name = some meaning.imported)
    (hname : IsWord name) (hparts : ∀ s ∈ meaning.parts, IsWord s)
    (hmodule : meaning.IncludesModule) :
    l.tableReference name = .external (stored (ImportTable.joinParts meaning.parts))
      "urlpatterns" := by
  rw [tableReference, ImportTable.resolve?_name hget hname]
  cases meaning with
  | module parts => rfl
  | member above last =>
    obtain ⟨hne, hending⟩ := hmodule
    have habove : ∀ s ∈ above, IsWord s := fun s hs => hparts s (List.mem_append_left _ hs)
    dsimp only [Meaning.imported]
    rw [hending, if_neg Bool.false_ne_true, stored_joinParts hne habove]
    rfl

end Lowering

/-! ### Stages of lowering -/

namespace SourceUnit

/-- The lowering of a unit before its first node. -/
def lowering (u : SourceUnit) (flag : Bool) : Lowering where
  identity := u.identity
  module := u.moduleName
  imports := (u.reading flag).imports

/-- A stage of the lowering of a unit, whose sightings are declared, given their bases
and attached one by one. -/
inductive Lowers (u : SourceUnit) (flag : Bool) : Lowering → Prop
  | start : Lowers u flag (u.lowering flag)
  | declare {l : Lowering} {s : Sighting} : Lowers u flag l → s ∈ (u.reading flag).sightings →
      Lowers u flag (l.declare s)
  | addBases {l : Lowering} {s : Sighting} : Lowers u flag l → s ∈ (u.reading flag).sightings →
      Lowers u flag (l.addBases s)
  | attach {l : Lowering} {s : Sighting} : Lowers u flag l → s ∈ (u.reading flag).sightings →
      Lowers u flag (l.attach s).1

variable {u : SourceUnit} {flag : Bool}

/-- Lowering leaves the imports of a unit as they were read. -/
theorem Lowers.imports {l : Lowering} (h : u.Lowers flag l) :
    l.imports = (u.reading flag).imports := by
  induction h with
  | start => rfl
  | declare _ _ ih => rw [Lowering.imports_declare, ih]
  | addBases _ _ ih => rw [Lowering.imports_addBases, ih]
  | attach _ _ ih => rw [Lowering.imports_attach, ih]

theorem Lowers.foldl {l : Lowering} (h : u.Lowers flag l) {step : Lowering → Sighting → Lowering}
    (hstep : ∀ l, u.Lowers flag l → ∀ s ∈ (u.reading flag).sightings, u.Lowers flag (step l s))
    {ss : List Sighting} (hss : ∀ s ∈ ss, s ∈ (u.reading flag).sightings) :
    u.Lowers flag (ss.foldl step l) := by
  induction ss generalizing l with
  | nil => exact h
  | cons s ss ih =>
    obtain ⟨hs, hrest⟩ := List.forall_mem_cons.mp hss
    exact ih (hstep l h s hs) hrest

theorem Lowers.attachAll {l : Lowering} (h : u.Lowers flag l) {ss : List Sighting}
    (hss : ∀ s ∈ ss, s ∈ (u.reading flag).sightings) : u.Lowers flag (l.attachAll ss).1 := by
  induction ss generalizing l with
  | nil => exact h
  | cons s ss ih =>
    obtain ⟨hs, hrest⟩ := List.forall_mem_cons.mp hss
    exact ih (h.attach hs) hrest

/-- The last stage, whose nodes the report holds. -/
theorem Lowers.lower : u.Lowers flag ((u.lowering flag).lower (u.reading flag).sightings).1 := by
  have hstart : u.Lowers flag (u.lowering flag) := .start
  have hdeclared := hstart.foldl (fun _ hl _ hs => hl.declare hs) fun _ hs => hs
  exact (hdeclared.foldl (fun _ hl _ hs => hl.addBases hs) fun _ hs => hs).attachAll fun _ hs => hs

theorem nodes_report (u : SourceUnit) (flag : Bool) :
    (u.report flag).nodes = ((u.lowering flag).lower (u.reading flag).sightings).1.nodes := by
  rw [report, lowering, reading, readStatements]

end SourceUnit

namespace Lowering

/-- A name leads to a module: its members lead to the members, and one that is included leads to a
table of the module or to a module below it. -/
structure LeadsToModule (l : Lowering) (name module : List Char) : Prop where
  member : ∀ (scope : List (List Char)) (member : List Char), IsWord member →
    l.visible? scope (name ++ '.' :: member) = none →
      l.LeadsTo scope (name ++ '.' :: member) (.external (stored module) (stored member))
  included : ∀ (scope : List (List Char)) (member : List Char), IsWord member →
    member ≠ "urls".toList → l.visible? scope (name ++ '.' :: member) = none →
      l.reference scope (UrlTable.includedName (name ++ '.' :: member)) =
        if endsWith member "patterns" then .external (stored module) (stored member)
        else .external (stored (module ++ '.' :: member)) "urlpatterns"

end Lowering

namespace SourceUnit

variable {u : SourceUnit} {flag : Bool}

/-- A name that Python makes denote the module of a file leads to that module, at every stage
of lowering. Including the name includes the table of the module, or the table that was
imported under the name. -/
theorem leadsTo_moduleName {dirs dirs' : List (List Char)} {stem stem' name : List Char}
    {meaning : Meaning} {l : Lowering} (hidentity : u.identity.toList = Path.pythonFile dirs stem)
    (hlanguage : u.language = .python) (hfile : ∀ n ∈ dirs ++ [stem], IsWord n)
    (hfile' : ∀ n ∈ dirs' ++ [stem'], IsWord n) (hindex : stem' ≠ "index".toList)
    (hname : IsWord name) (himports : u.Imports dirs name meaning)
    (hmeaning : meaning.parts = Path.pythonModule dirs' stem') (hl : u.Lowers flag l) :
    l.LeadsToModule name (Path.moduleName (Path.pythonFile dirs' stem')) ∧
      (∀ (site : UrlTable.Site) (fuel : Nat) (first : Expr) (route : List Char) (line : Nat),
        first.namePath? = some name →
          site.included (fuel + 1) first route line =
            [.link site.table (.table name) .inclusion route {} line]) ∧
      ∀ scope, l.visible? scope name = none →
        (meaning.IncludesModule → l.reference scope (.table name) =
          .external (stored (Path.moduleName (Path.pythonFile dirs' stem'))) "urlpatterns") ∧
        ∀ above last, meaning = .member above last → endsWith last "patterns" = true →
          l.reference scope (.table name) = .external (stored (ImportTable.joinParts above))
            (stored last) := by
  have hpackage : (ImportTable.empty u.identity.toList u.language).package = dirs := by
    rw [hidentity]
    exact ImportTable.package_pythonFile hfile _
  have hget : l.imports.get? name = some meaning.imported := by
    rw [hl.imports]
    exact himports.get?_reading hlanguage hpackage flag
  have hparts : ∀ n ∈ meaning.parts, IsWord n := by
    rw [hmeaning, Path.pythonModule]
    split
    · exact fun n hn => hfile' n (List.mem_append_left _ hn)
    · exact hfile'
  rw [Path.moduleName_pythonFile hfile' hindex, ← hmeaning]
  refine ⟨⟨fun scope member hmember hvisible => ?_, fun scope member hmember hurls hvisible => ?_⟩,
    fun site fuel first route line hfirst => ?_, fun scope hvisible => ⟨fun hincludes => ?_, ?_⟩⟩
  · exact Lowering.leadsTo_of_imported? hvisible (Lowering.imported?_member hget hname hparts hmember)
  · rw [UrlTable.includedName_member (hmember.not_mem (by decide)) hurls, Lowering.reference,
      hvisible]
    exact Lowering.tableReference_member hget hname hparts hmember
  · rw [UrlTable.Site.included_name site fuel hfirst,
      UrlTable.includedName_of_not_mem (hname.not_mem (by decide))]
    rfl
  · rw [Lowering.reference, hvisible]
    exact Lowering.tableReference_module hget hname hparts hincludes
  · rintro above last rfl hending
    rw [Lowering.reference, hvisible]
    exact Lowering.tableReference_table hget hname hending

/-- A unit of a package with views beside it. -/
def viewsUnit : SourceUnit where
  identity := "api/urls.py"
  language := .python
  text :=
  "from . import views\nfrom a.b import c, d\nurlpatterns = [path('', views.f), path('', include(views))]\n"

theorem written_viewsUnit :
    ImportForm.Written (.names 1 [] [⟨"views".toList, none⟩]) "from . import views".toList ∧
      ImportForm.Written (.names 0 ["a".toList, "b".toList] [⟨"c".toList, none⟩, ⟨"d".toList, none⟩])
        "from a.b import c, d".toList := by
  have hgap : IsGap [' '] := by decide
  have hplain {name : List Char} (hname : IsWord name) : Alias.Written ⟨name, none⟩ name :=
    .plain (.of_isWord hname)
  have hviews : Listed [⟨"views".toList, none⟩] "views".toList :=
    .last ⟨[], "views".toList, [], hplain (by decide), by simp, by simp, rfl⟩
  have hlast : Listed [⟨"d".toList, none⟩] " d".toList :=
    .last ⟨[' '], "d".toList, [], hplain (by decide), hgap.2, by simp, rfl⟩
  have hboth : Listed [⟨"c".toList, none⟩, ⟨"d".toList, none⟩] "c, d".toList :=
    .more ⟨[], "c".toList, [], hplain (by decide), by simp, by simp, rfl⟩ hlast
  exact ⟨.names (.inl (by decide)) (by simp) (by simp) (by decide) hgap hgap hgap hviews
    (.bare (by decide)), .names (.inr (by simp)) (by decide) (by simp)
    (by decide) hgap hgap hgap hboth (.bare (by decide))⟩

theorem imports_viewsUnit :
    viewsUnit.Imports ["api".toList] "views".toList (.member ["api".toList] "views".toList) := by
  have hmasked : (readStatements viewsUnit.language viewsUnit.text.toList).statements.map
      (fun s => trim s.masked) = ["from . import views".toList, "from a.b import c, d".toList,
        "urlpatterns = [path('', views.f), path('', include(views))]".toList] := by
    rw [show viewsUnit.text = String.ofList _ from rfl, String.toList_ofList]
    decide +kernel
  obtain ⟨s, after, hstatements, hs, hrest⟩ := List.map_eq_cons_iff.mp hmasked
  obtain ⟨s₁, after₁, rfl, hs₁, hrest₁⟩ := List.map_eq_cons_iff.mp hrest
  obtain ⟨s₂, after₂, rfl, hs₂, hrest₂⟩ := List.map_eq_cons_iff.mp hrest₁
  obtain rfl := List.map_eq_nil_iff.mp hrest₂
  refine ⟨[], s, [s₁, s₂], .names 1 [] [⟨"views".toList, none⟩], hstatements, ?_, ?_, ?_⟩
  · exact hs ▸ written_viewsUnit.1
  · have hlast : ∀ b ∈ ([] : List Alias), b.bound ≠ "views".toList := by simp
    have hdenotes : ImportForm.Denotes ["api".toList] "views".toList
        (.names 1 [] ([] ++ [⟨"views".toList, none⟩]))
        (.member (ImportForm.origin ["api".toList] 1 []) "views".toList) :=
      .member (by decide) rfl hlast
    exact hdenotes
  · have hother : s₁.LeavesAlone "views".toList :=
      Statement.leavesAlone_written (hs₁ ▸ written_viewsUnit.2) (by decide)
    have hpatterns : s₂.LeavesAlone "views".toList :=
      Statement.leavesAlone_of_no_import (hs₂ ▸ by decide) (hs₂ ▸ by decide)
    exact List.forall_mem_cons.mpr ⟨hother, by simpa using hpatterns⟩

theorem leadsTo_moduleName_views :
    let l := ((viewsUnit.lowering false).lower (viewsUnit.reading false).sightings).1
    viewsUnit.Imports ["api".toList] "views".toList (.member ["api".toList] "views".toList) ∧
      viewsUnit.Lowers false l ∧ l.visible? [] "views.f".toList = none ∧
      l.visible? [] "views".toList = none ∧ (viewsUnit.report false).nodes = l.nodes ∧
      l.reference [] (.name "views.f".toList) = .external "api.views" "f" ∧
      l.reference [] (.table "views".toList) = .external "api.views" "urlpatterns" := by
  intro l
  have hlowers : viewsUnit.Lowers false l := .lower
  obtain ⟨hmember, hname⟩ : l.visible? [] "views.f".toList = none ∧
      l.visible? [] "views".toList = none := by
    unfold l
    rw [reading, show viewsUnit.text = String.ofList _ from rfl, String.toList_ofList]
    decide +kernel
  have hidentity : viewsUnit.identity.toList = Path.pythonFile ["api".toList] "urls".toList := by
    decide
  have hfile : ∀ n ∈ ["api".toList] ++ ["urls".toList], IsWord n := by decide
  have hfile' : ∀ n ∈ ["api".toList] ++ ["views".toList], IsWord n := by decide
  have hmodule : Path.moduleName (Path.pythonFile ["api".toList] "views".toList) =
      "api.views".toList := by decide
  obtain ⟨hmembers, -, htable⟩ :=
    leadsTo_moduleName hidentity rfl hfile hfile' (by decide)
      (by decide) imports_viewsUnit rfl hlowers
  rw [hmodule] at hmembers htable
  exact ⟨imports_viewsUnit, hlowers, hmember, hname, viewsUnit.nodes_report false,
    (hmembers.member [] "f".toList (by decide) hmember).target,
    (htable [] hname).1 ⟨by simp, by decide⟩⟩

/-- The targets of all links of a unit. -/
def linkTargets (u : SourceUnit) : List Reference :=
  (u.report false).nodes.flatMap fun n => n.links.map Link.target

/-- A file of URL patterns in a package. -/
def apiUnit (text : String) : SourceUnit := ⟨"api/urls.py", .python, text⟩

/-- Where a name that denotes a module does not lead to its module name. -/
theorem linkTargets_ne_moduleName :
    -- A module named like a table is taken for one, an included member for a module or for the
    -- router whose list it is, and an index has the module name of its directory.
    linkTargets (apiUnit ("from . import a_patterns as a, b, index\n" ++
        "urlpatterns=[path('',include(a)),path('',include(b.c)),path('',include(b.urls)),path('',index.d)]\n")) =
      [.external "api" "a_patterns", .external "api.b.c" "urlpatterns", .external "api" "b",
        .external "api.index" "d"] ∧
    Path.moduleName "api/a_patterns.py".toList = "api.a_patterns".toList ∧
    Path.moduleName "api/index.py".toList = "api".toList ∧
    -- The imports of a unit are those at its end, and an imported parent has a node in the unit.
    linkTargets (apiUnit
        ("from . import a,b\nb.c.include_router(d)\nd.include_router(b.c)\nd.include_router(a.e)\n" ++
          "from f import a\n")) =
      [.inUnit "api/urls.py" "api.urls" "d", .inUnit "api/urls.py" "api.urls" "b.c",
        .external "f.a" "e"] ∧
    -- An import statement is known by its first word and by its white space.
    linkTargets (apiUnit ("if c: from . import a\nfrom .import b\n" ++
        "urlpatterns=[path('',include(a)),path('',include(b))]\n")) =
      [.inUnit "api/urls.py" "api.urls" "a", .inUnit "api/urls.py" "api.urls" "b"] := by
  -- The characters of a text are given as they are, since decoding it takes most of the evaluation.
  have hchars {first second : String} {cs ds : List Char} {targets : List Reference}
      (hfirst : first = String.ofList cs) (hsecond : second = String.ofList ds)
      (h : linkTargets (apiUnit (String.ofList (cs ++ ds))) = targets) :
      linkTargets (apiUnit (first ++ second)) = targets := by
        rwa [hfirst, hsecond, ← String.ofList_append]
  have htext (cs : List Char) : (apiUnit (String.ofList cs)).text.toList = cs :=
    String.toList_ofList
  refine ⟨hchars rfl rfl ?_, by decide, by decide, hchars rfl rfl ?_, hchars rfl rfl ?_⟩
  all_goals
    rw [linkTargets, report, htext]
    decide +kernel

/-- A module beside a unit at the root, where the package has no name, is looked for under a name
that begins with a dot, although its module name does not. -/
example :
    linkTargets ⟨"urls.py", .python, "from . import a\nurlpatterns=[path('',include(a))]\n"⟩ =
      [.external ".a" "urlpatterns"] ∧
    Path.moduleName "a.py".toList = "a".toList := by
  decide +kernel

end SourceUnit

end EndpointCensus
