import EndpointCensus.Line.Basic
import EndpointCensus.Statement.Basic

/-! A statement under construction. Chunks of code and literals are appended line by line; lines are
joined by one space, and code is trimmed before the join but never into a literal. -/

namespace EndpointCensus

structure Draft where
  startLine : Nat
  endLine : Nat
  indent : Nat
  /-- What is settled, up to and including the last closed literal, newest first. -/
  settled : List Piece := []
  /-- The code after it, in reverse. -/
  tail : List Cell := []
  /-- The literal after the tail in reverse, if one is open across lines. -/
  openLiteral : Option (List Cell) := none
  /-- The number of bytes of the text so far. -/
  width : Nat := 0
  /-- Where physical lines were entered, newest first. -/
  lineStarts : List (Nat × Nat) := []
  depth : Nat := 0
  maxDepth : Nat := 0
  deriving DecidableEq, Repr

/-- Columns of the white space at the start of a line, a tab counting as four. -/
def indentWidth : List Char → Nat
  | [] => 0
  | c :: cs => if Text.isBlank c then (if c == '\t' then 4 else 1) + indentWidth cs else 0

def cellWidth (cells : List Cell) : Nat := Text.width (cells.map Cell.char)

namespace Draft

def ofLine (l : Line) : Draft :=
  { startLine := l.number, endLine := l.number, indent := indentWidth l.text }

def cells (d : Draft) : List Cell :=
  d.settled.reverse.flatMap Piece.cells ++ d.tail.reverse ++ (d.openLiteral.getD []).reverse

def lastLine (d : Draft) : Option Nat := d.lineStarts.head?.map Prod.snd

def append (d : Draft) (cells : List Cell) : Draft :=
  let wider := { d with width := d.width + cellWidth cells }
  match d.openLiteral with
  | some literal => { wider with openLiteral := some (cells.reverse ++ literal) }
  | none => { wider with tail := cells.reverse ++ d.tail }

/-- Drops the white space at the end of the code, unless a literal is open. -/
def trimCode (d : Draft) : Draft :=
  match d.openLiteral with
  | some _ => d
  | none => { d with
    tail := d.tail.dropWhile Cell.isBlank
    width := d.width - cellWidth (d.tail.takeWhile Cell.isBlank) }

/-- Records that the following characters stand on `line`, joining it to what is there. -/
def enterLine (d : Draft) (line : Nat) : Draft :=
  if d.lastLine == some line then d
  else
    let joined := if d.width == 0 then d else d.trimCode.append [.joint]
    { joined with lineStarts := (joined.width, line) :: joined.lineStarts, endLine := line }

def cellsOf (line : Nat) (chunk : List Char) : List Cell := chunk.map fun c => ⟨c, some line⟩

/-- Appends code; the first chunk of a line loses its leading white space. -/
def pushCode (d : Draft) (line : Nat) (chunk : List Char) : Draft :=
  (d.enterLine line).append <|
    cellsOf line (if d.lastLine == some line then chunk else Text.trimStart chunk)

def closeLiteral (d : Draft) : Draft :=
  match d.openLiteral with
  | some literal => { d with
    settled := .literal literal.reverse :: .code d.tail.reverse :: d.settled
    tail := []
    openLiteral := none }
  | none => d

/-- Appends a chunk of a literal, which goes on past the line if `continues`. -/
def pushLiteral (d : Draft) (line : Nat) (chunk : List Char) (continues : Bool) : Draft :=
  let e := d.enterLine line
  let grown := { e with openLiteral := some (e.openLiteral.getD []) }.append (cellsOf line chunk)
  if continues then grown else grown.closeLiteral

def openBracket (d : Draft) : Draft :=
  { d with depth := d.depth + 1, maxDepth := max d.maxDepth (d.depth + 1) }

/-- A closer at depth zero changes nothing. -/
def closeBracket (d : Draft) : Draft := { d with depth := d.depth - 1 }

def isOpen (d : Draft) : Bool := d.depth != 0 || d.openLiteral.isSome

/-- The draft without the backslash that ends its code, and without the white space after it. -/
def withoutContinuation? (d : Draft) : Option Draft :=
  match d.tail.dropWhile Cell.isBlank with
  | [] => none
  | c :: before =>
    if c.char == '\\' then
      some { d with
        tail := before
        width := d.width - cellWidth (c :: d.tail.takeWhile Cell.isBlank) }
    else none

def pieces (d : Draft) : List Piece :=
  d.settled.reverse ++ [.code (d.tail.reverse ++ (d.openLiteral.getD []).reverse)]

/-- The finished statement, unless it is blank. -/
def finish (d : Draft) : Option Statement :=
  let e := d.trimCode
  if e.pieces.all fun p => p.cells.all Cell.isBlank then none
  else some {
    startLine := e.startLine
    endLine := e.endLine
    indent := e.indent
    pieces := e.pieces
    maxDepth := e.maxDepth
    lineStarts := e.lineStarts.reverse.toArray }

end Draft

end EndpointCensus
