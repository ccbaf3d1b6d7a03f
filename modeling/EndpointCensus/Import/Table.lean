import EndpointCensus.Path.ModuleName

/-! Imported names: which module, and which member of it, a local name of a unit stands for. -/

namespace EndpointCensus

/-- Where a local name points. -/
structure Imported where
  module : List Char
  /-- The imported member; none when the name is the module itself. -/
  member : Option (List Char)
  /-- The module is a package outside the corpus. -/
  external : Bool
  deriving DecidableEq, Repr

structure ImportTable where
  identity : List Char
  language : Language
  /-- Parts of the package that relative imports start from. -/
  package : List (List Char)
  /-- Local names, the latest import first. -/
  bindings : List (List Char × Imported)
  deriving DecidableEq, Repr

namespace ImportTable

/-- The parts of a dotted name that have characters. -/
def dottedParts (cs : List Char) : List (List Char) :=
  (Text.splitOn '.' cs).filter fun s => !s.isEmpty

def joinParts (parts : List (List Char)) : List Char := ['.'].intercalate parts

/-- A dotted name below a module, which may be the nameless one. -/
def joinModule (base tail : List Char) : List Char :=
  if base.isEmpty then tail else base ++ '.' :: tail

/-- The table of a unit before its first import. A package marker is its own package. -/
def empty (identity : List Char) (language : Language) : ImportTable :=
  let parts := dottedParts (Path.moduleName identity)
  { identity, language, bindings := []
    package := if Path.isPackageMarker identity then parts else parts.dropLast }

def get? (t : ImportTable) (name : List Char) : Option Imported := t.bindings.lookup name

/-- The name was imported from a file of the corpus. -/
def isLocal (t : ImportTable) (name : List Char) : Bool := (t.get? name).any (!·.external)

def bind (t : ImportTable) (name : List Char) (target : Imported) : ImportTable :=
  { t with bindings := (name, target) :: t.bindings }

/-- The module and member that a dotted name means, read through the import of its first part. -/
def resolve? (t : ImportTable) (dotted : List Char) : Option (List Char × Option (List Char)) :=
  match Text.splitFirst? '.' dotted with
  | none => (t.get? dotted).map fun b => (b.module, b.member)
  | some (head, rest) => (t.get? head).map fun b =>
    let base := match b.member with
      | some member => joinModule b.module member
      | none => b.module
    match Text.splitLast? '.' rest with
    | some (middle, last) => (joinModule base middle, some last)
    | none => (base, some rest)

/-- File extensions that a script specifier may spell out. -/
def scriptExtensions : List String := [".js", ".jsx", ".mjs", ".cjs", ".ts", ".tsx"]

/-- The directory of a path, with slashes for backslashes. -/
def directory (identity : List Char) : List Char :=
  (Path.ofSegments (Path.components identity).dropLast).map fun c => if c == '\\' then '/' else c

/-- The module that a relative specifier names; none for a package. -/
def resolveSpecifier? (t : ImportTable) (spec : List Char) : Option (List Char) :=
  if spec.head? == some '.' then
    let joined := Path.normalize (directory t.identity ++ '/' :: spec)
    some (Path.moduleName ((scriptExtensions.findSome? (Text.before? · joined)).getD joined))
  else none

/-- The module of a specifier, and whether it is a package outside the corpus. -/
def specifierModule (t : ImportTable) (spec : List Char) : List Char × Bool :=
  match t.resolveSpecifier? spec with
  | some module => (module, false)
  | none => (spec, true)

/-- The module of a relative import with so many dots; one dot is the package itself. -/
def relativeModule (t : ImportTable) (dots : Nat) (tail : List Char) : List Char :=
  joinParts (t.package.take (t.package.length - (dots - 1)) ++ dottedParts tail)

end ImportTable

end EndpointCensus
