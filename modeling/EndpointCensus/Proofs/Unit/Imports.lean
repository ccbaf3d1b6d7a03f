import EndpointCensus.Proofs.Import.Denotation
import EndpointCensus.Proofs.Unit.DeadText

/-!
Imports of a Python unit. What an import statement binds is kept until another one binds the name,
so at the end of a unit a name stands for what the last of its imports made it denote. A dotted name
is resolved from its first part.
-/

namespace EndpointCensus

open Text

/-! ### Imports of a unit -/

namespace ImportTable

theorem scan_python {t : ImportTable} (h : t.language = .python) (s : Statement) :
    t.scan s = t.scanPython s := by
  rw [scan, h]

/-- The imports after some statements. -/
def scanAll (t : ImportTable) (statements : List Statement) : ImportTable :=
  statements.foldl (fun t s => (t.scan s).1) t

theorem scanAll_append (t : ImportTable) (xs ys : List Statement) :
    t.scanAll (xs ++ ys) = (t.scanAll xs).scanAll ys :=
  List.foldl_append

theorem scanAll_bindings {t : ImportTable} (h : t.language = .python)
    (statements : List Statement) : ∃ bindings, t.scanAll statements = { t with bindings } := by
  induction statements generalizing t with
  | nil => exact ⟨t.bindings, rfl⟩
  | cons s rest ih =>
    obtain ⟨first, hfirst⟩ := t.scanPython_bindings s
    have hlanguage : (t.scan s).1.language = .python := by
      rw [scan_python h, language_scanPython, h]
    obtain ⟨bindings, hrest⟩ := ih hlanguage
    refine ⟨bindings, ?_⟩
    rw [scanAll, List.foldl_cons, ← scanAll, hrest, scan_python h, hfirst]

end ImportTable

/-- What was imported under the name before, if anything, the statement leaves as it is. -/
def Statement.LeavesAlone (name : List Char) (s : Statement) : Prop :=
  ∀ t : ImportTable, t.language = .python → (t.scan s).1.get? name = t.get? name

namespace ImportTable

variable {t : ImportTable} {name : List Char}

theorem get?_scanAll (h : t.language = .python) {statements : List Statement}
    (hleaves : ∀ s ∈ statements, s.LeavesAlone name) :
    (t.scanAll statements).get? name = t.get? name := by
  induction statements generalizing t with
  | nil => rfl
  | cons s rest ih =>
    obtain ⟨hs, hrest⟩ := List.forall_mem_cons.mp hleaves
    have hlanguage : (t.scan s).1.language = .python := by
      rw [scan_python h, language_scanPython, h]
    exact (ih hlanguage hrest).trans (hs t h)

end ImportTable

namespace Statement

variable {name : List Char} {s : Statement}

theorem leavesAlone_of_no_import (hfrom : ImportTable.fromImport? (trim s.masked) = none)
    (himport : ImportTable.afterImport? (trim s.masked) = none) :
    s.LeavesAlone name := fun t ht => by
  rw [ImportTable.scan_python ht, ImportTable.scanPython, hfrom]
  dsimp only
  rw [himport]

theorem leavesAlone_written {form : ImportForm} (h : form.Written (trim s.masked))
    (hname : name ∉ form.locals) : s.LeavesAlone name := fun t ht => by
  rw [ImportTable.scan_python ht, ImportForm.scanPython_written t h]
  exact t.get?_bindAll_of_not_mem (by rwa [ImportForm.map_fst_bindings])

end Statement

namespace Reading

theorem imports_readAll (u : SourceUnit) (flag : Bool) (r : Reading) (statements : List Statement) :
    (r.readAll u flag statements).imports = r.imports.scanAll statements := by
  induction statements generalizing r with
  | nil => rfl
  | cons s rest ih =>
    rw [readAll, ih, imports_readOne]
    rfl

end Reading

namespace SourceUnit

def reading (u : SourceUnit) (flag : Bool) : Reading :=
  Reading.readAll u flag { imports := .empty u.identity.toList u.language }
    (readStatements u.language u.text.toList).statements

/-- A statement of the unit makes the name denote a module, relative to the package, and no later
one imports anything under the name. -/
def Imports (u : SourceUnit) (package : List (List Char)) (name : List Char) (meaning : Meaning) :
    Prop :=
  ∃ (before : List Statement) (s : Statement) (after : List Statement) (form : ImportForm),
    (readStatements u.language u.text.toList).statements = before ++ s :: after ∧
      form.Written (trim s.masked) ∧ form.Denotes package name meaning ∧
      ∀ s' ∈ after, s'.LeavesAlone name

/-- At the end of a unit, a name is still bound to what an import statement made it denote. -/
theorem Imports.get?_reading {u : SourceUnit} (hlanguage : u.language = .python)
    {package : List (List Char)}
    (hpackage : (ImportTable.empty u.identity.toList u.language).package = package)
    {name : List Char} {meaning : Meaning} (h : u.Imports package name meaning) (flag : Bool) :
    (u.reading flag).imports.get? name = some meaning.imported := by
  obtain ⟨before, s, after, form, hstatements, hform, hdenotes, hafter⟩ := h
  let start := ImportTable.empty u.identity.toList u.language
  have hstart : start.language = .python := hlanguage
  obtain ⟨earlier, hearlier⟩ := ImportTable.scanAll_bindings hstart before
  let t := start.scanAll before
  have ht : t.language = .python := (congrArg ImportTable.language hearlier).trans hstart
  have hdirs : t.package = package := (congrArg ImportTable.package hearlier).trans hpackage
  have hscan : (t.scan s).1 = t.bindAll (form.bindings package) := by
    rw [ImportTable.scan_python ht, ImportForm.scanPython_written t hform, hdirs]
  have hnext : (t.scan s).1.language = .python := by
    rw [ImportTable.scan_python ht, ImportTable.language_scanPython, ht]
  have himports : (u.reading flag).imports = (t.scan s).1.scanAll after := by
    rw [reading, Reading.imports_readAll, hstatements, ImportTable.scanAll_append]
    rfl
  rw [himports, ImportTable.get?_scanAll hnext hafter, hscan]
  exact hdenotes.get?_bindAll t

end SourceUnit

/-! ### Resolution -/

namespace ImportTable

variable {t : ImportTable} {name : List Char} {meaning : Meaning}

/-- A member of what a name denotes is a member of its module. -/
theorem resolve?_member (hget : t.get? name = some meaning.imported) (hname : IsWord name)
    (hparts : ∀ s ∈ meaning.parts, IsWord s) {member : List Char} (hmember : IsWord member) :
    t.resolve? (name ++ '.' :: member) = some (joinParts meaning.parts, some member) := by
  have hcut : splitFirst? '.' (name ++ '.' :: member) = some (name, member) :=
    splitFirst?_append (hname.not_mem (by decide)) member
  have hlast : splitLast? '.' member = none := splitLast?_eq_none (hmember.not_mem (by decide))
  rw [resolve?, hcut]
  dsimp only
  rw [hget, Option.map_some, hlast]
  cases meaning with
  | module parts => rfl
  | member above last =>
    have habove : ∀ s ∈ above, IsWord s := fun s hs => hparts s (List.mem_append_left _ hs)
    exact congrArg (fun base => some (base, some member)) (joinModule_joinParts habove last)

theorem resolve?_name (hget : t.get? name = some meaning.imported) (hname : IsWord name) :
    t.resolve? name = some (meaning.imported.module, meaning.imported.member) := by
  rw [resolve?, splitFirst?_eq_none (hname.not_mem (by decide))]
  dsimp only
  rw [hget, Option.map_some]

end ImportTable

end EndpointCensus
