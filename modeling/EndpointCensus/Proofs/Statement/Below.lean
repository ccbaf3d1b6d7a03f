import EndpointCensus.Proofs.Line.Concatenation
import EndpointCensus.Statement.Assembly

/-!
Statements of lines that stand further down. Assembly compares line numbers only with each other, so
lines that are moved down together give the same statements, moved down. Statements that were
finished before stay where they are, below all that follows.
-/

namespace EndpointCensus

variable (n : Nat)

def Cell.below (c : Cell) : Cell := { c with line := c.line.map (· + n) }

def Piece.below : Piece → Piece
  | code cells => code (cells.map (Cell.below n))
  | literal cells => literal (cells.map (Cell.below n))

def Statement.below (s : Statement) : Statement :=
  { s with
    startLine := s.startLine + n
    endLine := s.endLine + n
    pieces := s.pieces.map (Piece.below n)
    lineStarts := s.lineStarts.map fun e => (e.1, e.2 + n) }

def Draft.below (d : Draft) : Draft :=
  { d with
    startLine := d.startLine + n
    endLine := d.endLine + n
    settled := d.settled.map (Piece.below n)
    tail := d.tail.map (Cell.below n)
    openLiteral := d.openLiteral.map (List.map (Cell.below n))
    lineStarts := d.lineStarts.map fun e => (e.1, e.2 + n) }

theorem cellWidth_below (cells : List Cell) :
    cellWidth (cells.map (Cell.below n)) = cellWidth cells := by
  rw [cellWidth, List.map_map]
  rfl

theorem dropWhile_below (cells : List Cell) :
    (cells.map (Cell.below n)).dropWhile Cell.isBlank =
      (cells.dropWhile Cell.isBlank).map (Cell.below n) :=
  List.dropWhile_map

theorem takeWhile_below (cells : List Cell) :
    (cells.map (Cell.below n)).takeWhile Cell.isBlank =
      (cells.takeWhile Cell.isBlank).map (Cell.below n) :=
  List.takeWhile_map

/-! ### Drafts -/

namespace Draft

theorem below_append (d : Draft) (cells : List Cell) :
    (d.append cells).below n = (d.below n).append (cells.map (Cell.below n)) := by
  unfold append
  cases h : d.openLiteral <;> simp [below, h, cellWidth_below]

theorem below_trimCode (d : Draft) : d.trimCode.below n = (d.below n).trimCode := by
  unfold trimCode
  cases h : d.openLiteral <;> simp [below, h, cellWidth_below, dropWhile_below, takeWhile_below]

theorem lastLine_below (d : Draft) (line : Nat) :
    ((d.below n).lastLine == some (line + n)) = (d.lastLine == some line) := by
  unfold lastLine below
  cases d.lineStarts with
  | nil => rfl
  | cons e rest =>
    rw [Bool.eq_iff_iff]
    simp

theorem below_enterLine (d : Draft) (line : Nat) :
    (d.enterLine line).below n = (d.below n).enterLine (line + n) := by
  have hjoint : [Cell.joint].map (Cell.below n) = [Cell.joint] := rfl
  have hwidth (e : Draft) : (e.below n).width = e.width := rfl
  have hstart (e : Draft) :
      ({ e with lineStarts := (e.width, line) :: e.lineStarts, endLine := line } : Draft).below n =
        { e.below n with
          lineStarts := ((e.below n).width, line + n) :: (e.below n).lineStarts,
          endLine := line + n } := rfl
  unfold enterLine
  rw [lastLine_below]
  split
  · rfl
  · dsimp only
    rw [hwidth]
    split
    · exact hstart d
    · rw [hstart, below_append, below_trimCode, hjoint]

theorem cellsOf_below (line : Nat) (chunk : List Char) :
    cellsOf (line + n) chunk = (cellsOf line chunk).map (Cell.below n) := by
  rw [cellsOf, cellsOf, List.map_map]
  rfl

theorem below_pushCode (d : Draft) (line : Nat) (chunk : List Char) :
    (d.pushCode line chunk).below n = (d.below n).pushCode (line + n) chunk := by
  unfold pushCode
  rw [below_append, below_enterLine, lastLine_below, cellsOf_below]

theorem below_closeLiteral (d : Draft) : d.closeLiteral.below n = (d.below n).closeLiteral := by
  unfold closeLiteral
  cases h : d.openLiteral <;> simp [below, h, Piece.below]

theorem below_pushLiteral (d : Draft) (line : Nat) (chunk : List Char) (continues : Bool) :
    (d.pushLiteral line chunk continues).below n =
      (d.below n).pushLiteral (line + n) chunk continues := by
  have hopen (e : Draft) : ({ e with openLiteral := some (e.openLiteral.getD []) } : Draft).below n =
      { e.below n with openLiteral := some ((e.below n).openLiteral.getD []) } := by
    cases h : e.openLiteral <;> simp [below, h]
  unfold pushLiteral
  dsimp only
  split <;> simp only [below_closeLiteral, below_append, hopen, below_enterLine, cellsOf_below]

theorem below_withoutContinuation? (d : Draft) :
    (d.below n).withoutContinuation? = d.withoutContinuation?.map (below n) := by
  have htail : (d.below n).tail = d.tail.map (Cell.below n) := rfl
  unfold withoutContinuation?
  rw [htail, dropWhile_below]
  cases d.tail.dropWhile Cell.isBlank with
  | nil => rfl
  | cons c before =>
    have hchar : (c.below n).char = c.char := rfl
    simp only [List.map_cons, hchar]
    split
    · have hwidth := cellWidth_below n (c :: d.tail.takeWhile Cell.isBlank)
      rw [List.map_cons] at hwidth
      rw [takeWhile_below, hwidth]
      rfl
    · rfl

theorem isOpen_below (d : Draft) : (d.below n).isOpen = d.isOpen := by
  unfold isOpen below
  cases d.openLiteral <;> rfl

theorem pieces_below (d : Draft) : (d.below n).pieces = d.pieces.map (Piece.below n) := by
  unfold pieces
  cases h : d.openLiteral <;> simp [below, h, Piece.below]

theorem all_isBlank_below (p : Piece) :
    (p.below n).cells.all Cell.isBlank = p.cells.all Cell.isBlank := by
  cases p <;> exact List.all_map

theorem finish_below (d : Draft) : (d.below n).finish = d.finish.map (Statement.below n) := by
  have hblank (e : Draft) : (e.pieces.map (Piece.below n)).all (fun p => p.cells.all Cell.isBlank) =
      e.pieces.all fun p => p.cells.all Cell.isBlank := by
    rw [List.all_map]
    congr 1
    funext p
    exact all_isBlank_below n p
  unfold finish
  rw [← below_trimCode]
  dsimp only
  rw [pieces_below, hblank]
  split
  · rfl
  · simp [Statement.below, below]

end Draft

/-! ### Assemblies -/

namespace Assembly

/-- The assembly `n` lines further down, with the statements of `base` finished before it. -/
def after (base : List Statement) (a : Assembly) : Assembly where
  finished := a.finished.map (Statement.below n) ++ base
  current := a.current.map (Draft.below n)
  pending := a.pending.map (Draft.below n)

variable (base : List Statement) (a : Assembly) (language : Language) (l : Line)

theorem after_emit (d : Draft) : (a.emit d).after n base = (a.after n base).emit (d.below n) := by
  unfold emit
  rw [Draft.finish_below]
  cases d.finish <;> rfl

theorem after_flushPending : a.flushPending.after n base = (a.after n base).flushPending := by
  unfold flushPending
  cases h : a.pending with
  | none => simp [after, h]
  | some d =>
    rw [after_emit]
    simp [after, h]

theorem after_modifyFor (chunk : List Char) {f g : Draft → Draft}
    (hf : ∀ d, (f d).below n = g (d.below n)) :
    (a.modifyFor language l chunk f).after n base =
      (a.after n base).modifyFor language (l.below n) chunk g := by
  have hnew : (f (.ofLine l)).below n = g (.ofLine (l.below n)) := hf (.ofLine l)
  unfold modifyFor
  cases hcurrent : a.current with
  | some d => simp [after, hcurrent, hf]
  | none =>
    cases hpending : a.pending with
    | none => simp [after, hcurrent, hpending, hnew]
    | some d =>
      have hflush := after_flushPending n base a
      have hwait : (a.after n base).pending = some (d.below n) := by simp [after, hpending]
      have hopen : (a.after n base).current = none := by simp [after, hcurrent]
      simp only [hwait, hopen]
      split
      · simp [after, hf]
      · rw [← hflush]
        simp [after, hnew]

theorem after_modifyCurrent {f g : Draft → Draft} (hf : ∀ d, (f d).below n = g (d.below n)) :
    (a.modifyCurrent f).after n base = (a.after n base).modifyCurrent g := by
  unfold modifyCurrent
  cases h : a.current <;> simp [after, h, hf]

theorem depth_after : (a.after n base).depth = a.depth := by
  unfold depth after
  cases a.current <;> rfl

theorem after_pushCode (chunk : List Char) :
    (a.pushCode language l chunk).after n base =
      (a.after n base).pushCode language (l.below n) chunk := by
  have hpush (d : Draft) : (d.pushCode l.number chunk).below n =
      (d.below n).pushCode (l.below n).number chunk :=
    d.below_pushCode n l.number chunk
  unfold pushCode
  split
  · exact after_modifyCurrent n base a hpush
  · exact after_modifyFor n base a language l chunk hpush

theorem after_endStatement : a.endStatement.after n base = (a.after n base).endStatement := by
  unfold endStatement
  cases h : a.current with
  | none => simp [after, h]
  | some d =>
    rw [after_emit, after_flushPending]
    simp [after, h]

theorem after_feedCode (chunk seen rest : List Char) :
    (a.feedCode language l chunk seen rest).after n base =
      (a.after n base).feedCode language (l.below n) chunk seen rest := by
  induction rest generalizing a chunk seen with
  | nil => exact after_pushCode n base a language l chunk
  | cons c rest ih =>
    unfold feedCode
    rw [depth_after]
    split
    · rw [ih, after_modifyFor n base a language l chunk (g := .openBracket) fun _ => rfl]
    · split
      · rw [ih, after_modifyCurrent n base a (g := .closeBracket) fun _ => rfl]
      · split
        · rw [ih, after_endStatement, after_pushCode]
        · exact ih a chunk (c :: seen)

theorem after_feedSegments (segments : List Segment) :
    (a.feedSegments language l segments).after n base =
      (a.after n base).feedSegments language (l.below n) segments := by
  induction segments generalizing a with
  | nil => rfl
  | cons s rest ih =>
    unfold feedSegments
    cases s.kind with
    | comment => exact ih a
    | code =>
      dsimp only
      rw [ih, after_feedCode]
    | literal =>
      dsimp only
      rw [ih, after_modifyFor n base a language l s.chars
        (g := (·.pushLiteral (l.below n).number s.chars _)) fun d =>
          d.below_pushLiteral n l.number s.chars _]
      rfl

theorem after_endLine : (a.endLine language).after n base = (a.after n base).endLine language := by
  unfold endLine
  cases h : a.current with
  | none => simp [after, h]
  | some d =>
    have hcurrent : (a.after n base).current = some (d.below n) := by simp [after, h]
    simp only [hcurrent, Draft.isOpen_below, Draft.below_withoutContinuation?]
    split
    · rfl
    · have hclosed : ({ a with current := none } : Assembly).after n base =
          { a.after n base with current := none } := rfl
      cases d.withoutContinuation? with
      | some e => rfl
      | none =>
        cases language with
        | python => rw [← hclosed, ← after_emit]; rfl
        | script => rw [← hclosed, Option.map_none, ← after_flushPending]; rfl

theorem after_feedLine :
    (a.feedLine language l).after n base = (a.after n base).feedLine language (l.below n) := by
  have hnone : (a.after n base).current.isNone = a.current.isNone := by
    unfold after
    cases a.current <;> rfl
  have hcontent : (l.below n).hasContent = l.hasContent := rfl
  have htag : (l.below n).tag = l.tag := rfl
  unfold feedLine
  rw [hnone, hcontent, htag]
  split
  · rfl
  · rw [after_endLine, after_feedSegments]
    rfl

/-- Lines that are moved down give what they give by themselves, moved down. -/
theorem after_foldl_feedLine (lines : List Line) :
    (lines.foldl (feedLine language) a).after n base =
      (lines.map (Line.below n)).foldl (feedLine language) (a.after n base) := by
  induction lines generalizing a with
  | nil => rfl
  | cons l rest ih => rw [List.foldl_cons, List.map_cons, List.foldl_cons, ih, after_feedLine]

end Assembly

end EndpointCensus
