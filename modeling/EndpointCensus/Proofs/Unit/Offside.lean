import EndpointCensus.Proofs.Unit.Enclosure

/-! The offside rule. A declaration of Python is open at a statement as long as all that follows
it, down to that statement, is indented deeper. The scopes that are open when a statement is
looked at are those of just these declarations, one each and the outermost first; a statement
belongs to the class that is the innermost of them, and what is read there is noted with the
function that is the outermost one. -/

namespace EndpointCensus

/-! ### Declarations -/

namespace Statement

variable {s : Statement} {name : List Char}

/-- The statement is an import of Python, whatever has been imported before it. -/
def isImport (s : Statement) : Bool := ((ImportTable.empty [] .python).scan s).2

theorem snd_scan {t : ImportTable} (h : t.language = .python) (s : Statement) :
    (t.scan s).2 = s.isImport := by
  rw [isImport, ImportTable.scan_python h, ImportTable.scan_python rfl, ImportTable.scanPython,
    ImportTable.scanPython]
  split
  · rfl
  · split <;> rfl

theorem isImport_of_scope? {scope : Scope} (h : s.scope? = some scope) : s.isImport = false := by
  rw [Bool.eq_false_iff]
  intro himport
  rw [isImport, ImportTable.scan_python rfl] at himport
  rw [scope?_of_scanPython himport] at h
  contradiction

/-- No statement declares a function and a class. -/
theorem defName?_of_className? (h : s.className? = some name) : s.defName? = none := by
  rw [Option.eq_none_iff_forall_ne_some]
  intro other hother
  obtain ⟨c, hc, hhead⟩ := head?_of_defName? hother
  rw [head?_of_className? h, Option.some.injEq] at hhead
  subst hhead
  contradiction

theorem scope?_of_className? (h : s.className? = some name) :
    s.scope? = some ⟨s.indent, name, .classBody⟩ := by
  simp only [scope?, defName?_of_className? h, h, Option.map_some]

theorem className?_iff : s.className? = some name ↔ ∃ scope, s.scope? = some scope ∧
    scope.kind = .classBody ∧ scope.name = name := by
  constructor
  · intro h
    exact ⟨_, scope?_of_className? h, rfl, rfl⟩
  · rintro ⟨scope, hscope, hkind, rfl⟩
    rw [scope?] at hscope
    split at hscope
    · cases hscope
      contradiction
    · obtain ⟨name, hname, rfl⟩ := Option.map_eq_some_iff.mp hscope
      exact hname

theorem defName?_iff : s.defName? = some name ↔ ∃ scope, s.scope? = some scope ∧
    scope.kind = .functionBody ∧ scope.name = name := by
  constructor
  · intro h
    exact ⟨⟨s.indent, name, .functionBody⟩, by simp only [scope?, h], rfl, rfl⟩
  · rintro ⟨scope, hscope, hkind, rfl⟩
    rw [scope?] at hscope
    split at hscope
    · next hname =>
      cases hscope
      exact hname
    · obtain ⟨name, -, rfl⟩ := Option.map_eq_some_iff.mp hscope
      contradiction

end Statement

/-- Statement `j` of those before `s` is a declaration and no import, and all that follows it, down
to `s`, is indented deeper. -/
def IsOpenAt (before : List Statement) (s : Statement) (j : Nat) : Prop :=
  ∃ d ∈ before[j]?, d.isImport = false ∧ d.scope?.isSome ∧
  ∀ x ∈ before.drop (j + 1) ++ [s], d.indent < x.indent

instance (before : List Statement) (s : Statement) : DecidablePred (IsOpenAt before s) :=
  fun j => inferInstanceAs (Decidable (∃ d ∈ before[j]?, _))

/-- The places of the declarations that are open at `s`, among the statements before it. -/
def openAt (before : List Statement) (s : Statement) : List Nat :=
  (List.range before.length).filter fun j => IsOpenAt before s j

def scopeAt? (before : List Statement) (j : Nat) : Option Scope := before[j]?.bind Statement.scope?

/-- The scopes of the declarations that are open at `s`, the outermost first. -/
def openScopes (before : List Statement) (s : Statement) : List Scope :=
  (openAt before s).filterMap (scopeAt? before)

section

variable {before : List Statement} {s d : Statement} {j : Nat}

theorem isSome_scopeAt? (h : j ∈ openAt before s) : (scopeAt? before j).isSome := by
  simp only [openAt, List.mem_filter, decide_eq_true_eq] at h
  obtain ⟨-, d, hd, -, hscope, -⟩ := h
  rw [scopeAt?, hd, Option.bind_some]
  exact hscope

/-- Each open declaration has one scope. -/
theorem map_some_openScopes (before : List Statement) (s : Statement) :
    (openScopes before s).map some = (openAt before s).map (scopeAt? before) := by
  rw [openScopes, List.map_filterMap_some_eq_filter_map_isSome, List.filter_eq_self]
  intro scope hscope
  obtain ⟨j, hj, rfl⟩ := List.mem_map.mp hscope
  exact isSome_scopeAt? hj

/-- A declaration stays open at a later statement unless that one is indented as it is or less. -/
theorem isOpenAt_concat (hj : j < before.length) :
    IsOpenAt (before ++ [d]) s j ↔ IsOpenAt before d j ∧ ∃ x ∈ before[j]?, x.indent < s.indent := by
  have hdrop : (before ++ [d]).drop (j + 1) = before.drop (j + 1) ++ [d] :=
    List.drop_append_of_le_length hj
  simp only [IsOpenAt, List.getElem?_append_left hj, hdrop, List.forall_mem_append,
    List.forall_mem_singleton]
  constructor
  · rintro ⟨x, hx, himport, hscope, hinner, hs⟩
    exact ⟨⟨x, hx, himport, hscope, hinner⟩, x, hx, hs⟩
  · rintro ⟨⟨x, hx, himport, hscope, hinner⟩, y, hy, hs⟩
    obtain rfl := Option.mem_unique hx hy
    exact ⟨x, hx, himport, hscope, hinner, hs⟩

theorem lt_of_mem_openAt (h : j ∈ openAt before s) : j < before.length :=
  List.mem_range.mp (List.mem_filter.mp h).1

theorem isOpenAt_last : IsOpenAt (before ++ [d]) s before.length ↔
    d.isImport = false ∧ d.scope?.isSome ∧ d.indent < s.indent := by
  simp [IsOpenAt]

/-- Behind one more statement the declarations that are open at it are still open, and it may be one
itself; of these only those indented less than the next statement stay open. -/
theorem openAt_concat (before : List Statement) (d s : Statement) :
    openAt (before ++ [d]) s = (openAt before d).filter (fun j => ∃ x ∈ before[j]?, x.indent <
      s.indent) ++
      if d.isImport = false ∧ d.scope?.isSome ∧ d.indent < s.indent then [before.length]
        else [] := by
  have hearlier : (List.range before.length).filter (fun j => IsOpenAt (before ++ [d]) s j) =
      (openAt before d).filter (fun j => ∃ x ∈ before[j]?, x.indent < s.indent) := by
    rw [openAt, List.filter_filter]
    apply List.filter_congr
    intro j hj
    simp only [isOpenAt_concat (List.mem_range.mp hj), Bool.decide_and, Bool.and_comm]
  have hlast : [before.length].filter (fun j => IsOpenAt (before ++ [d]) s j) =
      if d.isImport = false ∧ d.scope?.isSome ∧ d.indent < s.indent then [before.length]
        else [] := by
    simp only [List.filter_singleton, isOpenAt_last, Bool.cond_decide]
  rw [openAt, List.length_append, List.length_singleton, List.range_succ, List.filter_append,
    hearlier, hlast]

theorem openScopes_concat (before : List Statement) (d s : Statement) :
    openScopes (before ++ [d]) s =
      (openScopes before d ++ d.scope?.toList).filter fun scope => scope.indent < s.indent := by
  have hearlier : ((openAt before d).filter (fun j => ∃ x ∈ before[j]?, x.indent <
      s.indent)).filterMap (scopeAt? (before ++ [d])) = (openScopes before d).filter fun scope =>
        scope.indent < s.indent := by
    rw [openScopes, List.filterMap_filter, List.filter_filterMap]
    apply List.filterMap_congr
    intro j hj
    have hlt := lt_of_mem_openAt hj
    obtain ⟨scope, hscope⟩ := Option.isSome_iff_exists.mp (isSome_scopeAt? hj)
    obtain ⟨x, hx, hopens⟩ := Option.bind_eq_some_iff.mp hscope
    simp only [scopeAt?, List.getElem?_append_left hlt, hx, Option.bind_some, hopens,
      Option.mem_def, Option.some.injEq, exists_eq_left', Option.filter_some, decide_eq_true_eq,
      Statement.indent_of_scope? hopens]
  have hlast : (if d.isImport = false ∧ d.scope?.isSome ∧ d.indent < s.indent then [before.length]
      else []).filterMap (scopeAt? (before ++ [d])) = d.scope?.toList.filter fun scope =>
        scope.indent < s.indent := by
    cases hscope : d.scope? with
    | none => simp
    | some scope =>
      have himport : d.isImport = false := Statement.isImport_of_scope? hscope
      by_cases hlt : d.indent < s.indent <;>
        simp [himport, hlt, scopeAt?, hscope, Statement.indent_of_scope? hscope]
  rw [openScopes, openAt_concat, List.filterMap_append, List.filter_append, hearlier, hlast]

theorem indent_lt_of_mem_openScopes {scope : Scope} (h : scope ∈ openScopes before s) :
    scope.indent < s.indent := by
  obtain ⟨j, hj, hscope⟩ := List.mem_filterMap.mp h
  simp only [openAt, List.mem_filter, decide_eq_true_eq] at hj
  obtain ⟨-, x, hx, -, -, hinner⟩ := hj
  rw [scopeAt?, hx, Option.bind_some] at hscope
  rw [Statement.indent_of_scope? hscope]
  exact hinner s (List.mem_concat_self ..)

theorem pairwise_append_scope? {scopes : List Scope}
    (hscopes : scopes.Pairwise fun outer inner => outer.indent < inner.indent)
    (hd : ∀ scope ∈ scopes, scope.indent < d.indent) :
    (scopes ++ d.scope?.toList).Pairwise fun outer inner => outer.indent < inner.indent := by
  rw [List.pairwise_append]
  refine ⟨hscopes, Option.pairwise_toList, fun outer houter inner hinner => ?_⟩
  rw [Statement.indent_of_scope? (Option.mem_toList.mp hinner)]
  exact hd outer houter

/-- The indentation grows inwards. -/
theorem pairwise_openScopes (before : List Statement) (s : Statement) :
    (openScopes before s).Pairwise fun outer inner => outer.indent < inner.indent := by
  induction before using List.reverseRecOn generalizing s with
  | nil => exact List.Pairwise.nil
  | append_singleton before d ih =>
    rw [openScopes_concat]
    apply List.Pairwise.filter
    exact pairwise_append_scope? (ih d) fun _ => indent_lt_of_mem_openScopes

end

namespace Reading

/-- Where the indentation grows inwards, closing scopes leaves all those that are indented less. -/
theorem closeScopes_eq_filter {scopes : List Scope}
    (h : scopes.Pairwise fun inner outer => outer.indent < inner.indent) (indent : Nat) :
    closeScopes scopes indent = scopes.filter fun scope => scope.indent < indent := by
  induction scopes with
  | nil => rfl
  | cons scope scopes ih =>
    obtain ⟨houter, hscopes⟩ := List.pairwise_cons.mp h
    rw [closeScopes_cons]
    split
    · next hclosed => rw [ih hscopes, List.filter_cons_of_neg (by simpa using hclosed)]
    · next hopen =>
      have hall : ∀ x ∈ scope :: scopes, x.indent < indent := by
        rw [List.forall_mem_cons]
        exact ⟨by omega, fun x hx => by have := houter x hx; omega⟩
      rw [List.filter_eq_self.mpr fun x hx => by simpa using hall x hx]

variable {u : SourceUnit} {flag : Bool} {r : Reading}

/-- When a statement is looked at, the scopes of the declarations that are open at it
are open, and no others. -/
theorem closeScopes_readFront (hpython : u.language = .python)
    (himports : r.imports.language = .python) (hr : r.scopes = []) (before rest : List Statement)
    (s : Statement) :
    closeScopes (readFront u flag r before rest).scopes s.indent =
      (openScopes before s).reverse := by
  induction before using List.reverseRecOn generalizing rest s with
  | nil =>
    rw [readFront, hr]
    rfl
  | append_singleton before d ih =>
    have hscopes : (readFront u flag r (before ++ [d]) rest).scopes =
        (openScopes before d ++ d.scope?.toList).reverse := by
      rw [readFront_concat, scopes_readOne hpython (language_readFront himports _ _), ih,
        List.reverse_append]
      cases d.scope? <;> rfl
    have hgrows := pairwise_append_scope? (pairwise_openScopes before d) fun _ =>
      indent_lt_of_mem_openScopes
    rw [hscopes, closeScopes_eq_filter (List.pairwise_reverse.mpr hgrows), List.filter_reverse,
      openScopes_concat]

end Reading

/-! ### What is handed on -/

/-- Where a statement belongs is told by its innermost scope. -/
theorem Reading.owner?_eq_some_iff {r : Reading} {name : List Char} :
    r.owner? = some name ↔ ∃ scope, r.scopes.head? = some scope ∧ scope.kind = .classBody ∧
    scope.name = name := by
  rw [owner?]
  cases r.scopes with
  | nil => simp
  | cons scope scopes =>
    cases hkind : scope.kind <;> simp [hkind]

/-- What is noted as the factory is told by the outermost scope. -/
theorem Reading.factory?_eq_some_iff {r : Reading} {name : List Char} :
    r.factory? = some name ↔
      ∃ scope, r.scopes.getLast? = some scope ∧ scope.kind = .functionBody ∧ scope.name = name := by
  simp only [factory?, Option.map_eq_some_iff, Option.filter_eq_some_iff, beq_iff_eq, and_assoc]

/-- What is true of the scope at one end is true of the scope of the declaration at that end. -/
theorem exists_scope_iff {before : List Statement} {found : Option Scope} {place : Option Nat}
    (h : found.map some = place.map (scopeAt? before)) (p : Scope → Prop) :
    (∃ scope, found = some scope ∧ p scope) ↔
      ∃ j ∈ place, ∃ d ∈ before[j]?, ∃ scope, d.scope? = some scope ∧ p scope := by
  cases place with
  | none => cases found <;> simp at h ⊢
  | some j =>
    cases found with
    | none => contradiction
    | some scope =>
      obtain ⟨d, hd, hscope⟩ := Option.bind_eq_some_iff.mp (Option.some.inj h).symm
      simp [hd, hscope]

namespace Reading

theorem noted_of_mem_readOne {u : SourceUnit} {flag : Bool} {r : Reading} {s : Statement}
    {rest : List Statement} {x : Sighting} (h : x ∈ (r.readOne u flag s rest).sightings) :
    x ∈ r.sightings ∨ x.scope = (r.arriveAt u s).scopes.reverse.map Scope.name ∧
      x.factory = (r.arriveAt u s).factory? := by
  rw [sightings_readOne, List.mem_append] at h
  apply h.imp_right
  intro h
  rw [sighted] at h
  split at h
  · contradiction
  · split at h
    · obtain ⟨e, -, rfl⟩ := List.mem_map.mp h
      exact ⟨List.map_reverse.symm, rfl⟩
    · contradiction

end Reading

namespace SourceUnit

/-- When a statement of Python is looked at, a declaration before it has its scope open just if all
that follows the declaration, down to the statement, is indented deeper. The statement belongs to
the innermost one if that is a class, and the factory noted for what is read there is the outermost
one if that is a function. -/
theorem scopes_follow_indentation {u : SourceUnit} (hpython : u.language = .python) (flag : Bool)
    (before : List Statement) (s : Statement) (after : List Statement) :
    let earlier := u.readingBefore flag before (s :: after)
    let here := earlier.arriveAt u s
    (earlier.imports.scan s).2 = s.isImport ∧
      here.scopes.reverse.map some = (openAt before s).map (scopeAt? before) ∧
      here.scopes.reverse.Pairwise (fun outer inner => outer.indent < inner.indent) ∧
      (∀ name, (here.context u.language s after).owner? = some name ↔
        ∃ j ∈ (openAt before s).getLast?, ∃ d ∈ before[j]?, d.className? = some name) ∧
      (∀ name, here.factory? = some name ↔ ∃ j ∈ (openAt before s).head?, ∃ d ∈ before[j]?,
        d.defName? = some name) ∧
      ∀ x ∈ (earlier.readOne u flag s after).sightings,
        x ∈ earlier.sightings ∨ x.scope = here.scopes.reverse.map Scope.name ∧
        x.factory = here.factory? := by
  intro earlier here
  have hscopes : here.scopes.reverse = openScopes before s := by
    have hclosed : here.scopes = Reading.closeScopes earlier.scopes s.indent :=
      if_pos (by simp [hpython])
    have hopen : Reading.closeScopes earlier.scopes s.indent = (openScopes before s).reverse :=
      Reading.closeScopes_readFront hpython hpython rfl before (s :: after) s
    rw [hclosed, hopen, List.reverse_reverse]
  have hplaces := map_some_openScopes before s
  refine ⟨?_, ?_, ?_, fun name => ?_, fun name => ?_, fun x hx => Reading.noted_of_mem_readOne hx⟩
  · exact Statement.snd_scan (language_readingBefore hpython flag before (s :: after)) s
  · rw [hscopes, hplaces]
  · rw [hscopes]
    exact pairwise_openScopes before s
  · have hinner := congrArg List.getLast? hplaces
    rw [List.getLast?_map, List.getLast?_map] at hinner
    show here.owner? = some name ↔ _
    simp only [Reading.owner?_eq_some_iff, ← List.getLast?_reverse, hscopes, exists_scope_iff hinner,
      Statement.className?_iff]
  · have houter := congrArg List.head? hplaces
    rw [List.head?_map, List.head?_map] at houter
    simp only [Reading.factory?_eq_some_iff, ← List.head?_reverse, hscopes, exists_scope_iff houter,
      Statement.defName?_iff]

/-- An import that is indented less than the method above it ends the method, so the statement below
it is a member of the class although it is indented deeper than the method. -/
def irregularUnit : SourceUnit := ⟨"a.py", .python,
  "def make():\n    class A:\n        def g(self):\n            pass\n      from os import path\n          x = 1\n"⟩

theorem scopes_follow_indentation_irregular : ∃ before s after,
    (readStatements .python irregularUnit.text.toList).statements = before ++ s :: after ∧
      s.indent = 10 ∧ openAt before s = [0, 1] ∧
      let here := (irregularUnit.readingBefore true before (s :: after)).arriveAt irregularUnit s
      here.scopes.reverse = [⟨0, "make".toList, .functionBody⟩, ⟨4, "A".toList, .classBody⟩] ∧
        (here.context .python s after).owner? = some "A".toList ∧
        here.factory? = some "make".toList := by
  let statements := (readStatements .python irregularUnit.text.toList).statements
  let before := statements.take 5
  let s := statements.get ⟨5, by decide +kernel⟩
  obtain ⟨hstatements, hindent, hopen, hplaces, hclass, hfunction⟩ : statements =
      before ++ s :: statements.drop 6 ∧ s.indent = 10 ∧ openAt before s = [0, 1] ∧
      [0, 1].map (scopeAt? before) = [⟨0, "make".toList, .functionBody⟩,
        ⟨4, "A".toList, .classBody⟩].map some ∧
      before[1]?.bind Statement.className? = some "A".toList ∧
      before[0]?.bind Statement.defName? = some "make".toList := by
    decide +kernel
  obtain ⟨-, hscopes, -, howner, hfactory, -⟩ :=
    @scopes_follow_indentation irregularUnit rfl true before s (statements.drop 6)
  rw [hopen] at hscopes howner hfactory
  refine ⟨before, s, statements.drop 6, hstatements, hindent, hopen, ?_, ?_, ?_⟩
  · exact List.map_injective_iff.mpr (Option.some_injective Scope) (hscopes.trans hplaces)
  · exact (howner _).mpr ⟨1, rfl, Option.bind_eq_some_iff.mp hclass⟩
  · exact (hfactory _).mpr ⟨0, rfl, Option.bind_eq_some_iff.mp hfunction⟩

end SourceUnit

end EndpointCensus
