import EndpointCensus.Text.Blank
import EndpointCensus.Text.Number

/-! Logical statements: source text joined over line breaks, as a sequence of code and literal
pieces. Every character remembers the physical line it was copied from. The glyphs of a statement
show its code and the delimiters of its literals, and veil what stands inside a literal. -/

namespace EndpointCensus

/-- A character of a statement. The space that joins two physical lines comes from no line. -/
structure Cell where
  char : Char
  line : Option Nat
  deriving DecidableEq, Repr

namespace Cell

def isBlank (c : Cell) : Bool := Text.isBlank c.char

def joint : Cell := ⟨' ', none⟩

end Cell

/-- A stretch of a statement, of code or of one literal with its delimiters. -/
inductive Piece where
  | code (cells : List Cell)
  | literal (cells : List Cell)
  deriving DecidableEq, Repr

/-- A character and whether it is hidden inside a literal. -/
structure Glyph where
  char : Char
  veiled : Bool
  deriving DecidableEq, Repr

namespace Glyph

/-- What shows of a glyph: the character itself, or an underscore for each byte of a hidden one. -/
def shown (g : Glyph) : List Char :=
  if g.veiled then List.replicate g.char.utf8Size '_' else [g.char]

/-- White space that shows. -/
def isBlank (g : Glyph) : Bool := !g.veiled && Text.isBlank g.char

end Glyph

def plainText (gs : List Glyph) : List Char := gs.map Glyph.char

/-- The text of glyphs with literal interiors hidden; it is as many bytes wide as the characters. -/
def maskedText : List Glyph → List Char
  | [] => []
  | g :: gs => g.shown ++ maskedText gs

def glyphWidth : List Glyph → Nat
  | [] => 0
  | g :: gs => g.char.utf8Size + glyphWidth gs

/-- Three for a text that begins with a quote written three times, else one. -/
def delimiterLength (cs : List Char) : Nat :=
  if ['\x22', '\x22', '\x22'].isPrefixOf cs || ['\x27', '\x27', '\x27'].isPrefixOf cs then 3 else 1

/-- Veils the characters that start between bytes `first` and `last`, the text starting at `pos`. -/
def veilFrom (first last : Nat) : Nat → List Char → List Glyph
  | _, [] => []
  | pos, c :: cs =>
    ⟨c, first ≤ pos && pos < last⟩ :: veilFrom first last (pos + c.utf8Size) cs

/-- The glyphs of a literal: all but a delimiter's width at either end is veiled. -/
def veilLiteral (cs : List Char) : List Glyph :=
  veilFrom (delimiterLength cs) (Text.width cs - delimiterLength cs) 0 cs

namespace Piece

def cells : Piece → List Cell
  | code cells | literal cells => cells

def chars (p : Piece) : List Char := p.cells.map Cell.char

def glyphs : Piece → List Glyph
  | code cells => cells.map fun c => ⟨c.char, false⟩
  | literal cells => veilLiteral (cells.map Cell.char)

/-- Byte ranges of the literals among the pieces, the first piece starting at `start`. -/
def literalsFrom : Nat → List Piece → List (Nat × Nat)
  | _, [] => []
  | start, p :: rest =>
    let stop := start + Text.width p.chars
    match p with
    | code _ => literalsFrom stop rest
    | literal _ => (start, stop) :: literalsFrom stop rest

end Piece

structure Statement where
  startLine : Nat
  endLine : Nat
  /-- Columns of white space before the statement, a tab counting as four. -/
  indent : Nat
  pieces : List Piece
  maxDepth : Nat
  /-- Byte offsets at which physical lines were entered, with the lines. -/
  lineStarts : Array (Nat × Nat)
  deriving DecidableEq, Repr

namespace Statement

def cells (s : Statement) : List Cell := s.pieces.flatMap Piece.cells

def glyphs (s : Statement) : List Glyph := s.pieces.flatMap Piece.glyphs

def text (s : Statement) : List Char := s.cells.map Cell.char

def masked (s : Statement) : List Char := maskedText s.glyphs

/-- Byte ranges of the literals, delimiters included. -/
def literals (s : Statement) : List (Nat × Nat) := Piece.literalsFrom 0 s.pieces

def inLiteral (s : Statement) (offset : Nat) : Bool :=
  s.literals.any fun r => r.1 ≤ offset && offset < r.2

/-- Halving search in the window of `size` entries from `base` on: the last entry known to start at
or before `offset`, for a window whose starts increase. -/
def halve (starts : Array (Nat × Nat)) (offset base size : Nat) : Nat :=
  if 1 < size then
    let half := size / 2
    let base' := match starts[base + half]? with
      | some (start, _) => if start ≤ offset then base + half else base
      | none => base
    halve starts offset base' (size - half)
  else base
termination_by size
decreasing_by omega

/-- The physical line of the byte at `offset`: that of the last line entered at or before it. -/
def lineAt (s : Statement) (offset : Nat) : Nat :=
  match s.lineStarts[halve s.lineStarts offset 0 s.lineStarts.size]? with
  | some (start, line) => if start ≤ offset then line else s.startLine
  | none => s.startLine

/-- The same statement some lines further down. Line numbers are machine words and wrap around. -/
def shift (s : Statement) (lines : Nat) : Statement :=
  let down (line : Nat) : Nat := (line + lines) % (Text.maxWord + 1)
  { s with
    startLine := down s.startLine
    endLine := down s.endLine
    lineStarts := s.lineStarts.map fun e => (e.1, down e.2) }

end Statement

end EndpointCensus
