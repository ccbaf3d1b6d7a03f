import EndpointCensus.Language
import EndpointCensus.Path.Join
import EndpointCensus.Source

/-! Module names of unit identities. An identity is a path; its directories and the stem of its file
are the parts of the module name, and a package marker names its directory. -/

namespace EndpointCensus.Path

def components (cs : List Char) : List (List Char) :=
  (segments cs).filter fun s => s != ['.']

/-- The component that goes one directory up. -/
def parentStep : List Char := ['.', '.']

def fileName? (cs : List Char) : Option (List Char) :=
  (components cs).getLast?.filter (· != parentStep)

/-- A file name cut at its last dot; a dot at the very start does not count. -/
def cutExtension (name : List Char) : List Char × Option (List Char) :=
  match Text.splitLast? '.' name with
  | some (stem, extension) => if stem.isEmpty then (name, none) else (stem, some extension)
  | none => (name, none)

def stem? (cs : List Char) : Option (List Char) := (fileName? cs).map fun n => (cutExtension n).1

def extension? (cs : List Char) : Option (List Char) :=
  (fileName? cs).bind fun n => (cutExtension n).2

/-- File stems that stand for their directory. -/
def isMarker (name : List Char) : Bool := name == "__init__".toList || name == "index".toList

def isPackageMarker (cs : List Char) : Bool := (stem? cs).any isMarker

/-- The path's components with the extension of the file removed, without steps up. -/
def moduleParts (cs : List Char) : List (List Char) :=
  let parts := components cs
  let cut := match stem? cs with
    | some stem => parts.dropLast ++ [stem]
    | none => parts
  let named := cut.filter fun s => s != ['.'] && s != parentStep
  if named.getLast?.any isMarker then named.dropLast else named

/-- The dotted module name of a path. -/
def moduleName (cs : List Char) : List Char := ['.'].intercalate (moduleParts cs)

/-- Segments with every step up taken, one at the top having no effect; `above` is the path so far,
last segment first. -/
def resolveSteps (above : List (List Char)) : List (List Char) → List (List Char)
  | [] => above.reverse
  | s :: rest =>
    if s == parentStep then resolveSteps above.tail rest else resolveSteps (s :: above) rest

/-- The path without steps up and empty components. -/
def normalize (cs : List Char) : List Char := ofSegments (resolveSteps [] (components cs))

end EndpointCensus.Path

namespace EndpointCensus

def Language.ofPath? (cs : List Char) : Option Language :=
  match (Path.extension? cs).map fun e => String.ofList (Text.lower e) with
  | some e =>
    if e == "py" then some .python
    else if ["js", "jsx", "mjs", "cjs", "ts", "tsx"].contains e then some .script
    else none
  | none => none

namespace SourceUnit

/-- A unit whose language is that of its identity, Python when the extension tells nothing. -/
def ofText (identity text : String) : SourceUnit :=
  ⟨identity, (Language.ofPath? identity.toList).getD .python, text⟩

def moduleName (u : SourceUnit) : String := String.ofList (Path.moduleName u.identity.toList)

end SourceUnit

end EndpointCensus
