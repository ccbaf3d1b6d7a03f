import EndpointCensus.Expr.Value
import EndpointCensus.Import.Table

/-! Recognition of import statements. -/

namespace EndpointCensus

structure Alias where
  name : List Char
  rename : Option (List Char)
  deriving DecidableEq, Repr

namespace ImportTable

open Text

/-! ### Python -/

/-- An imported item: a dotted name or a star, and a new name after `as`. -/
def alias? (cs : List Char) : Option Alias :=
  let isPart (c : Char) := isWord c || c == '.' || c == '*' || c == '$'
  let name := cs.takeWhile isPart
  let rest := cs.dropWhile isPart
  if name.isEmpty then none
  else if rest.isEmpty then some ⟨name, none⟩
  else ((blanks? rest).bind (afterWord? ["as"])).bind fun rename =>
    if !rename.isEmpty && rename.all isNamePart then some ⟨name, some rename⟩ else none

/-- The parts of a comma-separated list, white space around them dropped. -/
def listItems (cs : List Char) : List (List Char) := (splitOn ',' cs).map trim

/-- A module with its leading dots counted, and the names imported from it. -/
structure FromImport where
  dots : Nat
  module : List Char
  names : List Char
  deriving DecidableEq, Repr

/-- What follows the word `import` and white space. -/
def afterImport? (cs : List Char) : Option (List Char) :=
  (afterWord? ["import"] cs).filter fun names => !names.isEmpty

/-- A statement that imports names from a module. The module may be left out where two spaces
stand for it. -/
def fromImport? (cs : List Char) : Option FromImport :=
  (after? "from" cs).bind fun rest =>
    let named := (blanks? rest).bind fun start =>
      let module := start.dropWhile (· == '.')
      let isPart (c : Char) := isWord c || c == '.'
      ((blanks? (module.dropWhile isPart)).bind afterImport?).map fun names =>
        { dots := (start.takeWhile (· == '.')).length, module := module.takeWhile isPart, names }
    let nameless := ((blanks? rest.tail).bind afterImport?).map fun names =>
      { dots := 0, module := [], names }
    named.or (if rest.head?.any isBlank then nameless else none)

/-- Binds the items of a list imported from a module; a star binds nothing. -/
def bindFrom (t : ImportTable) (module : List Char) (names : List Char) : ImportTable :=
  (((listItems (stripRuns '(' ')' (trim names))).filter (!·.isEmpty)).filterMap alias?).foldl
    (fun t a =>
      if a.name == ['*'] then t
      else t.bind (a.rename.getD a.name) ⟨module, some a.name, false⟩) t

def bindModules (t : ImportTable) (names : List Char) : ImportTable :=
  ((listItems names).filterMap alias?).foldl
    (fun t a => match a.rename with
      | some rename => t.bind rename ⟨a.name, none, false⟩
      | none => t.bind (firstSegment a.name) ⟨firstSegment a.name, none, false⟩) t

def scanPython (t : ImportTable) (s : Statement) : ImportTable × Bool :=
  let masked := trim s.masked
  match fromImport? masked with
  | some f =>
    (t.bindFrom (if f.dots == 0 then f.module else t.relativeModule f.dots f.module) f.names, true)
  | none =>
    match afterImport? masked with
    | some names => (t.bindModules names, true)
    | none => (t, false)

/-! ### Scripts -/

def bindFields (t : ImportTable) (clause : List Char) (separator : String) (module : List Char)
    (external : Bool) : ImportTable :=
  let items := (listItems (stripRuns '{' '}' (trim clause))).filter (!·.isEmpty)
  items.foldl (fun t item =>
    let (name, rename) := match cutAt? separator.toList item with
      | some (a, b) => (trim a, trim b)
      | none => (item, item)
    t.bind rename ⟨module, some name, external⟩) t
where
  /-- The text before and after the first occurrence of a word. -/
  cutAt? (word : List Char) : List Char → Option (List Char × List Char)
    | [] => none
    | c :: cs =>
      if word.isPrefixOf (c :: cs) then some ([], (c :: cs).drop word.length)
      else (cutAt? word cs).map fun r => (c :: r.1, r.2)

/-- The target of a declaration: a name, or fields in braces. -/
def declared? (cs : List Char) : Option (List Char × List Char) :=
  match cs with
  | '{' :: rest =>
    let fields := rest.takeWhile (· != '}')
    match rest.dropWhile (· != '}') with
    | close :: rest => some ('{' :: fields ++ [close], rest)
    | [] => none
  | _ => identifier? cs

/-- A declaration whose value requires a module: the target, and the bytes of the argument. -/
def requireCall? (masked : List Char) : Option (List Char × Nat × Nat) := do
  let start := ((after? "export" masked).bind blanks?).getD masked
  let (target, rest) ← (afterWord? ["const", "let", "var"] start).bind declared?
  let value ← afterMark? '=' rest
  let argument ← (after? "require" (trimStart value)).bind (afterMark? '(')
  let inner := argument.takeWhile (· != ')')
  if inner.length < argument.length then
    let first := width masked - width argument
    some (target, first, first + width inner)
  else none

/-- The clause between `import` and the last `from`, which one word follows. -/
def importClause? (masked : List Char) : Option (List Char) := do
  let beforeWord := dropEndWhile (!isBlank ·) masked
  let beforeFrom ← before? "from" (trimEnd beforeWord)
  let inner ← after? "import" beforeFrom
  let clause := trim inner
  let framed := inner.head?.any isBlank && inner.getLast?.any isBlank
  if beforeWord.length < masked.length && beforeWord.getLast?.any isBlank && framed &&
      (!clause.isEmpty || 3 ≤ inner.length) then some clause
  else none

def clauseParts (clause : List Char) : List Char × List Char :=
  let before := clause.takeWhile (· != '{')
  let named := clause.dropWhile (· != '{')
  if named.isEmpty then (clause, []) else (dropEndWhile (· == ',') (trim before), named)

def defaultName : List Char := "default".toList

def bindClause (t : ImportTable) (clause module : List Char) (external : Bool) : ImportTable :=
  let (whole, named) := clauseParts clause
  let t := match after? "* as " whole with
    | some space => t.bind (trim space) ⟨module, none, external⟩
    | none => if whole.isEmpty then t else t.bind whole ⟨module, some defaultName, external⟩
  if named.isEmpty then t else t.bindFields named " as " module external

def scanScript (t : ImportTable) (s : Statement) : ImportTable × Bool :=
  let e := Expr.ofStatement s
  let masked := s.masked
  match requireCall? masked with
  | some (target, start, stop) =>
    match (e.slice start stop).stringValue? with
    | some spec =>
      let (module, external) := t.specifierModule spec
      if target.head? == some '{' then (t.bindFields target ":" module external, true)
      else (t.bind target ⟨module, some defaultName, external⟩, true)
    | none => (t, false)
  | none =>
    match importClause? masked with
    | some clause =>
      match s.literals.getLast?.bind fun r => (e.slice r.1 r.2).stringValue? with
      | some spec =>
        let (module, external) := t.specifierModule spec
        (t.bindClause clause module external, true)
      | none => (t, false)
    | none => (t, false)

/-- Records the bindings of an import statement; other statements change nothing. -/
def scan (t : ImportTable) (s : Statement) : ImportTable × Bool :=
  match t.language with
  | .python => t.scanPython s
  | .script => t.scanScript s

end ImportTable

end EndpointCensus
