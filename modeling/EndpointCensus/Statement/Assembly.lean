import EndpointCensus.Line.Scan
import EndpointCensus.Text.Name
import EndpointCensus.Statement.Draft

/-! Assembly of classified lines into logical statements. A statement goes on while a bracket or a
literal is open or its code ends in a backslash; a semicolon outside brackets ends it. In scripts a
closed statement is held back, for the next line may continue it with a leading dot. -/

namespace EndpointCensus

structure Assembly where
  /-- Finished statements, newest first. -/
  finished : List Statement := []
  current : Option Draft := none
  /-- A closed statement that a leading dot may still continue. -/
  pending : Option Draft := none
  deriving DecidableEq, Repr

namespace Assembly

def emit (a : Assembly) (d : Draft) : Assembly :=
  match d.finish with
  | some s => { a with finished := s :: a.finished }
  | none => a

def flushPending (a : Assembly) : Assembly :=
  match a.pending with
  | some d => { a with pending := none }.emit d
  | none => a

def leadsWithDot (chunk : List Char) : Bool := (Text.trimStart chunk).head? == some '.'

/-- Applies `f` to the statement that `chunk` of line `l` belongs to, which may be one held back
or a new one. -/
def modifyFor (language : Language) (l : Line) (chunk : List Char) (f : Draft → Draft)
    (a : Assembly) : Assembly :=
  match a.current, a.pending with
  | some d, _ => { a with current := some (f d) }
  | none, some d =>
    if language == .script && leadsWithDot chunk then
      { a with current := some (f d), pending := none }
    else { a.flushPending with current := some (f (.ofLine l)) }
  | none, none => { a with current := some (f (.ofLine l)) }

/-- Applies `f` to the statement that is open, if there is one. -/
def modifyCurrent (f : Draft → Draft) (a : Assembly) : Assembly :=
  { a with current := a.current.map f }

def depth (a : Assembly) : Nat := (a.current.map Draft.depth).getD 0

/-- Appends code; blank code opens no statement. -/
def pushCode (language : Language) (l : Line) (chunk : List Char) (a : Assembly) : Assembly :=
  if Text.allBlank chunk then a.modifyCurrent (·.pushCode l.number chunk)
  else a.modifyFor language l chunk (·.pushCode l.number chunk)

/-- A semicolon: the open statement is finished. -/
def endStatement (a : Assembly) : Assembly :=
  match a.current with
  | some d => { a with current := none }.flushPending.emit d
  | none => a

/-- A code segment. `chunk` is what of it follows the last semicolon and `seen` how much of that was
read, in reverse. -/
def feedCode (language : Language) (l : Line) (chunk seen : List Char) (a : Assembly) :
    List Char → Assembly
  | [] => a.pushCode language l chunk
  | c :: rest =>
    if Text.isOpener c then
      feedCode language l chunk (c :: seen) (a.modifyFor language l chunk .openBracket) rest
    else if Text.isCloser c then
      feedCode language l chunk (c :: seen) (a.modifyCurrent .closeBracket) rest
    else if c == ';' && a.depth == 0 then
      feedCode language l rest [] (a.pushCode language l seen.reverse).endStatement rest
    else feedCode language l chunk (c :: seen) a rest

/-- The segments of a line in order. The last literal goes on past a line that leaves one open. -/
def feedSegments (language : Language) (l : Line) (a : Assembly) : List Segment → Assembly
  | [] => a
  | s :: rest =>
    let next := match s.kind with
      | .comment => a
      | .code => a.feedCode language l s.chars [] s.chars
      | .literal =>
        let continues := l.literalOpen && !rest.any (·.kind == .literal)
        a.modifyFor language l s.chars (·.pushLiteral l.number s.chars continues)
    feedSegments language l next rest

/-- The end of a line: the open statement goes on, is held back or is finished. -/
def endLine (language : Language) (a : Assembly) : Assembly :=
  match a.current with
  | none => a
  | some d =>
    if d.isOpen then a
    else match d.withoutContinuation? with
      | some e => { a with current := some e }
      | none =>
        match language with
        | .script => { { a with current := none }.flushPending with pending := some d }
        | .python => { a with current := none }.emit d

/-- One line: comment lines are passed over, and so are lines without content between statements. -/
def feedLine (language : Language) (a : Assembly) (l : Line) : Assembly :=
  if l.tag == .comment || (a.current.isNone && !l.hasContent) then a
  else (a.feedSegments language l l.segments).endLine language

end Assembly

/-- The statements of a text, and the line of one that never closes. -/
structure StatementTable where
  statements : List Statement
  unclosed : Option Nat
  deriving DecidableEq, Repr

/-- Assembles the lines before the first construct that never closes. -/
def LineTable.assemble (language : Language) (table : LineTable) : StatementTable :=
  let lines := match table.unterminated with
    | some (limit, _) => table.lines.takeWhile fun (l : Line) => l.number < limit
    | none => table.lines
  let a := (lines.foldl (Assembly.feedLine language) {}).flushPending
  { statements := a.finished.reverse, unclosed := a.current.map Draft.startLine }

def readStatements (language : Language) (cs : List Char) : StatementTable :=
  (classify language cs).assemble language

def Statement.ofText? (language : Language) (number : Nat) (cs : List Char) : Option Statement :=
  (readStatements language cs).statements.head?.map (·.shift (number - 1))

end EndpointCensus
