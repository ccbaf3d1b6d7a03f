import EndpointCensus.Proofs.Import.Grammar
import EndpointCensus.Proofs.Path.ModuleName

/-!
Files of Python, whose directories and stems are words. The module name of a file is dotted from
the parts that Python gives the module, unless the stem is that of an index, and the package of a
unit is its directory.
-/

open EndpointCensus.Text
open EndpointCensus.ImportTable

namespace EndpointCensus.Path

def pythonFile (dirs : List (List Char)) (stem : List Char) : List Char :=
  ofSegments (dirs ++ [stem ++ ".py".toList])

/-- The parts of the module that Python makes of the file. The initial file of a
package is the package. -/
def pythonModule (dirs : List (List Char)) (stem : List Char) : List (List Char) :=
  if stem = "__init__".toList then dirs else dirs ++ [stem]

variable {dirs : List (List Char)} {stem : List Char}

theorem isName_of_isWord {s : List Char} (h : IsWord s) : IsName s :=
  ⟨h.1, h.not_mem (by decide), h.ne (by decide) List.mem_cons_self,
    h.ne (by decide) List.mem_cons_self⟩

theorem isName_pythonFile (h : IsWord stem) : IsName (stem ++ ".py".toList) := by
  have hlength : 2 < (stem ++ ".py".toList).length := by
    have : (".py".toList).length = 3 := rfl
    simp only [List.length_append]
    omega
  refine ⟨by simp, ?_, ?_, ?_⟩
  · rw [List.mem_append, not_or]
    exact ⟨h.not_mem (by decide), by decide⟩
  · exact fun heq => by rw [heq] at hlength; simp at hlength
  · exact fun heq => by rw [heq] at hlength; simp [parentStep] at hlength

theorem components_pythonFile (h : ∀ n ∈ dirs ++ [stem], IsWord n) :
    components (pythonFile dirs stem) = dirs ++ [stem ++ ".py".toList] := by
  refine components_ofSegments fun n hn => ?_
  rcases List.mem_append.mp hn with hn | hn
  · exact isName_of_isWord (h n (List.mem_append_left _ hn))
  · rw [List.mem_singleton.mp hn]
    exact isName_pythonFile (h stem (by simp))

theorem cutExtension_pythonFile (h : IsWord stem) :
    cutExtension (stem ++ ".py".toList) = (stem, some "py".toList) :=
  cutExtension_append h.1 (by decide)

theorem moduleParts_pythonFile (h : ∀ n ∈ dirs ++ [stem], IsWord n) :
    moduleParts (pythonFile dirs stem) = if isMarker stem then dirs else dirs ++ [stem] := by
  have hstem : IsWord stem := h stem (by simp)
  have hwords : (dirs ++ [stem]).filter (fun s => s != ['.'] && s != parentStep) =
      dirs ++ [stem] := by
    refine List.filter_eq_self.mpr fun n hn => ?_
    obtain ⟨-, -, hdot, hstep⟩ := isName_of_isWord (h n hn)
    simp [hdot, hstep]
  rw [moduleParts_of_components (components_pythonFile h) (isName_pythonFile hstem).2.2.2,
    cutExtension_pythonFile hstem, hwords, withoutMarker]
  simp

theorem isPackageMarker_pythonFile (h : ∀ n ∈ dirs ++ [stem], IsWord n) :
    isPackageMarker (pythonFile dirs stem) = isMarker stem := by
  have hstem : IsWord stem := h stem (by simp)
  rw [isPackageMarker, stem?, fileName?_eq (components_pythonFile h)
    (isName_pythonFile hstem).2.2.2, Option.map_some, cutExtension_pythonFile hstem]
  rfl

/-- A file has the module name that Python gives it, unless it is an index. -/
theorem moduleName_pythonFile (h : ∀ n ∈ dirs ++ [stem], IsWord n)
    (hindex : stem ≠ "index".toList) :
    moduleName (pythonFile dirs stem) = joinParts (pythonModule dirs stem) := by
  have hmarker : isMarker stem = (stem == "__init__".toList) := by
    rw [isMarker, beq_eq_false_iff_ne.mpr hindex, Bool.or_false]
  rw [moduleName, moduleParts_pythonFile h, hmarker, joinParts, pythonModule]
  by_cases hinit : stem = "__init__".toList
  · rw [if_pos (beq_iff_eq.mpr hinit), if_pos hinit]
  · rw [if_neg (mt beq_iff_eq.mp hinit), if_neg hinit]

end EndpointCensus.Path

open EndpointCensus.Path

namespace EndpointCensus.ImportTable

/-- Relative imports of a file start from its directory. -/
theorem package_pythonFile {dirs : List (List Char)} {stem : List Char}
    (h : ∀ n ∈ dirs ++ [stem], IsWord n) (language : Language) :
    (ImportTable.empty (pythonFile dirs stem) language).package = dirs := by
  have hdirs : ∀ n ∈ dirs, IsWord n := fun n hn => h n (List.mem_append_left _ hn)
  have hparts : dottedParts (Path.moduleName (pythonFile dirs stem)) =
      if isMarker stem then dirs else dirs ++ [stem] := by
    have hname : Path.moduleName (pythonFile dirs stem) =
        joinParts (moduleParts (pythonFile dirs stem)) := rfl
    rw [hname, moduleParts_pythonFile h]
    split
    · exact dottedParts_joinParts hdirs
    · exact dottedParts_joinParts h
  rw [empty, isPackageMarker_pythonFile h, hparts]
  dsimp only
  split
  · rfl
  · exact List.dropLast_concat

end EndpointCensus.ImportTable
