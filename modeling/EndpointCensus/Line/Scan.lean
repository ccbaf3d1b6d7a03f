import EndpointCensus.Language
import EndpointCensus.Line.Basic

/-! The lexical scan of a source text. A line is read character by character in a mode that says
what the scanner is inside of; triple-quoted literals, templates and block comments carry their mode
over to the next line, together with the line they opened on. -/

namespace EndpointCensus

inductive Mode where
  | code
  /-- A comment that ends with its line. -/
  | remark
  /-- A literal that ends with its line at the latest. -/
  | quoted (quote : Char)
  | triple (quote : Char) (since : Nat)
  | template (since : Nat)
  | block (since : Nat)
  deriving DecidableEq, Repr

namespace Mode

def kind : Mode → SegmentKind
  | code => .code
  | remark | block _ => .comment
  | quoted _ | triple _ _ | template _ => .literal

/-- The mode at the start of the next line. -/
def nextLine : Mode → Mode
  | remark | quoted _ => code
  | m => m

/-- A literal that goes on over the end of its line. -/
def isOpenLiteral : Mode → Bool
  | triple _ _ | template _ => true
  | _ => false

/-- The construct that is open in the mode across lines, and the line it opened on. -/
def unclosed : Mode → Option (Nat × Unclosed)
  | triple _ since | template since => some (since, .literal)
  | block since => some (since, .comment)
  | _ => none

end Mode

def isQuote (c : Char) : Bool := c == '\x27' || c == '\x22'

def backtick : Char := '\x60'

/-- What the characters at hand do to the mode. -/
inductive Lexeme where
  | plain
  /-- A backslash in a literal: the next character is passed over. -/
  | escape
  /-- A marker of `size` characters that opens `mode`. -/
  | opens (mode : Mode) (size : Nat)
  /-- A marker of `size` characters that closes the mode. -/
  | closes (size : Nat)
  deriving DecidableEq, Repr

/-- The marker that opens a literal or a comment at character `c` of a line of code. -/
def opening (language : Language) (number : Nat) (c : Char) (rest : List Char) : Lexeme :=
  match language with
  | .python =>
    if c == '#' then .opens .remark 1
    else if isQuote c then
      if [c, c].isPrefixOf rest then .opens (.triple c number) 3 else .opens (.quoted c) 1
    else .plain
  | .script =>
    if c == '/' && rest.head? == some '/' then .opens .remark 1
    else if c == '/' && rest.head? == some '*' then .opens (.block number) 2
    else if isQuote c then .opens (.quoted c) 1
    else if c == backtick then .opens (.template number) 1
    else .plain

/-- What character `c`, followed by `rest`, does in a mode. -/
def lexeme (language : Language) (number : Nat) (c : Char) (rest : List Char) : Mode → Lexeme
  | .code => opening language number c rest
  | .remark => .plain
  | .quoted q => if c == '\\' then .escape else if c == q then .closes 1 else .plain
  | .triple q _ =>
    if c == '\\' then .escape
    else if c == q && [q, q].isPrefixOf rest then .closes 3
    else .plain
  | .template _ => if c == '\\' then .escape else if c == backtick then .closes 1 else .plain
  | .block _ => if c == '*' && rest.head? == some '/' then .closes 2 else .plain

/-- The segment of the characters in `seen`, last one first; none when there are none. -/
def cut (kind : SegmentKind) (seen : List Char) : List Segment :=
  if seen.isEmpty then [] else [⟨kind, seen.reverse⟩]

/-- Where the scan stands in a line: the mode, the characters of the current segment in reverse,
the number of characters still to pass over, and whether the segment ends after them. -/
structure Cursor where
  mode : Mode
  seen : List Char := []
  passing : Nat := 0
  closing : Bool := false
  deriving DecidableEq, Repr

namespace Cursor

/-- One more character in the current segment, with `left` of its marker still to come. A closing
marker that is complete ends the segment. -/
def take (k : Cursor) (c : Char) (left : Nat) (closing : Bool) : List Segment × Cursor :=
  if left == 0 && closing then (cut k.mode.kind (c :: k.seen), { mode := .code })
  else ([], { k with seen := c :: k.seen, passing := left, closing := closing })

/-- One character: the segments it completes and the cursor after it. -/
def step (language : Language) (number : Nat) (k : Cursor) (c : Char) (rest : List Char) :
    List Segment × Cursor :=
  match k.passing with
  | left + 1 => k.take c left k.closing
  | 0 =>
    match lexeme language number c rest k.mode with
    | .plain => k.take c 0 false
    | .escape => k.take c 1 false
    | .closes size => k.take c (size - 1) true
    | .opens mode size => (cut k.mode.kind k.seen, { mode, seen := [c], passing := size - 1 })

end Cursor

/-- The segments of the rest of a line, and the mode at its end. -/
def scanFrom (language : Language) (number : Nat) (k : Cursor) : List Char → List Segment × Mode
  | [] => (cut k.mode.kind k.seen, k.mode.nextLine)
  | c :: rest =>
    let next := k.step language number c rest
    let tail := scanFrom language number next.2 rest
    (next.1 ++ tail.1, tail.2)

/-- A line that was entered in `mode` and left in `mode'`. -/
def Line.ofSegments (number : Nat) (mode mode' : Mode) (segments : List Segment) : Line where
  number
  tag :=
    if mode.isOpenLiteral then .literalBody
    else if !segments.any Segment.hasContent && segments.any (·.kind == .comment) then .comment
    else .code
  segments
  literalOpen := mode'.isOpenLiteral

/-- The lines of a text from line `number` on, entered in `mode`, and the mode after the last. -/
def scanLines (language : Language) : Nat → Mode → List (List Char) → List Line × Mode
  | _, mode, [] => ([], mode)
  | number, mode, cs :: rest =>
    let scanned := scanFrom language number { mode } cs
    let tail := scanLines language (number + 1) scanned.2 rest
    (Line.ofSegments number mode scanned.2 scanned.1 :: tail.1, tail.2)

/-- The lines of a text, `seen` being the current one in reverse. A line break is a line feed with
the carriage return before it, if there is one; a final line break starts no further line. -/
def linesFrom (seen : List Char) : List Char → List (List Char)
  | [] => if seen.isEmpty then [] else [seen.reverse]
  | c :: cs =>
    if c == '\n' then
      (if seen.head? == some '\r' then seen.tail else seen).reverse :: linesFrom [] cs
    else linesFrom (c :: seen) cs

def physicalLines (cs : List Char) : List (List Char) := linesFrom [] cs

def classify (language : Language) (cs : List Char) : LineTable :=
  let scanned := scanLines language 1 .code (physicalLines cs)
  { lines := scanned.1, unterminated := scanned.2.unclosed }

end EndpointCensus
