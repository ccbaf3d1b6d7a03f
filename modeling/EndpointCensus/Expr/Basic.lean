import EndpointCensus.Statement.Basic
import EndpointCensus.Text.Bracket

/-! Expressions: trimmed stretches of a statement. Structure is read from the masked text, so
nothing inside a literal can split or end an argument; values are read back from the characters at
the same byte offsets. -/

namespace EndpointCensus

structure Expr where
  glyphs : List Glyph
  /-- Byte offset within the statement. -/
  offset : Nat
  deriving DecidableEq, Repr

structure Arg where
  keyword : Option (List Char)
  value : Expr
  deriving DecidableEq, Repr

structure Args where
  items : List Arg
  /-- Offset just past the closing parenthesis, relative to the expression that was parsed. -/
  stop : Nat
  deriving DecidableEq, Repr

structure Call where
  callee : List Char
  args : Args
  deriving DecidableEq, Repr

namespace Args

def positionals (a : Args) : List Expr :=
  (a.items.filter (·.keyword.isNone)).map Arg.value

def positional? (a : Args) (n : Nat) : Option Expr := a.positionals[n]?

def keyword? (a : Args) (name : String) : Option Expr :=
  (a.items.find? fun i => i.keyword == some name.toList).map Arg.value

end Args

/-- The glyphs from the first one that starts at byte `n` or later. -/
def dropGlyphs : Nat → List Glyph → List Glyph
  | 0, gs => gs
  | _, [] => []
  | n, g :: gs => dropGlyphs (n - g.char.utf8Size) gs

/-- The glyphs that start before byte `n`. -/
def takeGlyphs : Nat → List Glyph → List Glyph
  | 0, _ => []
  | _, [] => []
  | n, g :: gs => g :: takeGlyphs (n - g.char.utf8Size) gs

/-- Byte `n` lies between two characters of the text, or at either end of it. -/
def isBoundary : List Char → Nat → Bool
  | _, 0 => true
  | [], _ => false
  | c :: cs, n => c.utf8Size ≤ n && isBoundary cs (n - c.utf8Size)

namespace Expr

def ofStatement (s : Statement) : Expr := ⟨s.glyphs, 0⟩

def text (e : Expr) : List Char := plainText e.glyphs

def masked (e : Expr) : List Char := maskedText e.glyphs

def width (e : Expr) : Nat := glyphWidth e.glyphs

def isEmpty (e : Expr) : Bool := e.glyphs.isEmpty

/-- The expression in the bytes from `start` to `stop`, without white space at either end. -/
def slice (e : Expr) (start stop : Nat) : Expr :=
  let raw := takeGlyphs (stop - start) (dropGlyphs start e.glyphs)
  { glyphs := Text.dropEndWhile Glyph.isBlank (raw.dropWhile Glyph.isBlank)
    offset := e.offset + start + glyphWidth (raw.takeWhile Glyph.isBlank) }

/-- The bounds are in order, inside the expression and between characters. -/
def hasRange (e : Expr) (start stop : Nat) : Bool :=
  start ≤ stop && isBoundary e.text start && isBoundary e.text stop

/-- The slice, where its bounds are a range of the expression. -/
def slice? (e : Expr) (start stop : Nat) : Option Expr :=
  if e.hasRange start stop then some (e.slice start stop) else none

/-- The expression from byte `start` on, empty where there is nothing left. -/
def tail (e : Expr) (start : Nat) : Expr := e.slice (min start e.width) e.width

def tail? (e : Expr) (start : Nat) : Option Expr := e.slice? (min start e.width) e.width

def slices (e : Expr) (ranges : List (Nat × Nat)) : List Expr :=
  ranges.map fun r => e.slice r.1 r.2

/-- The slices between separators at bracket depth zero. -/
def split (e : Expr) (sep : Char) (start stop : Nat) : List Expr :=
  e.slices (Text.splitTopLevel sep e.masked start stop)

/-- An argument in two parts, when it reads as an ASCII name, spaces and a single equals sign. -/
def toArg (e : Expr) : Arg :=
  let masked := e.masked
  let name := masked.takeWhile Text.isAsciiWord
  let after := (masked.drop name.length).dropWhile (· == ' ')
  match name, after with
  | c :: _, '=' :: rest =>
    if !Text.isAsciiDigit c && rest.head? != some '=' then
      { keyword := some (plainText (takeGlyphs (Text.width name) e.glyphs))
        value := e.slice (e.width - Text.width rest) e.width }
    else ⟨none, e⟩
  | _, _ => ⟨none, e⟩

/-- The argument list whose opening parenthesis stands at `start` of the masked text. -/
def argsIn? (e : Expr) (masked : List Char) (start : Nat) : Option Args :=
  if Text.charAt? masked start == some '(' then
    (Text.findMatching masked start).map fun close =>
      let parts := e.slices (Text.splitTopLevel ',' masked (start + 1) close)
      { items := (parts.filter (!·.isEmpty)).map toArg, stop := close + 1 }
  else none

/-- The argument list whose opening parenthesis stands at `start`. -/
def argsAt? (e : Expr) (start : Nat) : Option Args := e.argsIn? e.masked start

/-- The offset of the parenthesis of a call whose callee ends at `start`, over white space and a
list of type arguments. -/
def callOpen? (e : Expr) (start : Nat) : Option Nat :=
  let masked := e.masked
  let first := Text.skipAsciiBlanks masked start
  let second :=
    if Text.charAt? masked first == some '<' then
      (Text.skipTypeArgs masked first).map (Text.skipAsciiBlanks masked)
    else some first
  second.filter fun i => Text.charAt? masked i == some '('

/-- A dotted name and, after white space, a parenthesis: the name and the text from the parenthesis
on. -/
def namedCall? (cs : List Char) : Option (List Char × List Char) :=
  match Text.dottedName? cs with
  | some (name, rest) =>
    let rest := Text.trimStart rest
    if rest.head? == some '(' then some (name, rest) else none
  | none => none

/-- The byte offsets of the callee's start, its end and the parenthesis of a call that opens a
masked text; the word that asks for a new object may stand before the callee. -/
def callHead? (masked : List Char) : Option (Nat × Nat × Nat) :=
  let at? (cs : List Char) := (namedCall? cs).map fun (name, rest) =>
    let start := Text.width masked - Text.width cs
    (start, start + Text.width name, Text.width masked - Text.width rest)
  (((Text.after? "new" masked).bind Text.blanks?).bind at?).or (at? masked)

def chars (e : Expr) (start stop : Nat) : List Char :=
  plainText (takeGlyphs (stop - start) (dropGlyphs start e.glyphs))

/-- A call at the start of the expression, whatever follows it. -/
def callPrefix? (e : Expr) : Option Call :=
  let masked := e.masked
  match callHead? masked with
  | some (start, stop, paren) =>
    (e.argsIn? masked paren).map fun args => ⟨e.chars start stop, args⟩
  | none => none

def call? (e : Expr) : Option Call := e.callPrefix?.filter fun c => c.args.stop == e.width

end Expr

end EndpointCensus
