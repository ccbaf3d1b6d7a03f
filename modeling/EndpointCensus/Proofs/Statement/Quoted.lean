import EndpointCensus.Proofs.Statement.Literal

/-!
Statements that begin with a literal. Two drafts that begin with literals of the same quote and
agree in all that assembly looks at stay so, whatever is read next, and end in statements that begin
with a quote. Beside them stand drafts that are equal but for the indentation of those that start on
certain lines. Both kinds of likeness are kept by every step of assembly in Python.
-/

namespace EndpointCensus

def Statement.BeginsWithQuote (s : Statement) : Prop := s.masked.head?.any isQuote = true

namespace Draft

/-- What is settled begins with a literal of quote `q`. -/
def BeginsWith (q : Char) (d : Draft) : Prop :=
  ∃ later cells, d.settled = later ++ [.literal cells, .code []] ∧
  cells.head?.map Cell.char = some q

/-- Two drafts that begin with a literal and agree in all that assembly looks at. -/
structure Hushed (q : Char) (d d' : Draft) : Prop where
  startLine : d'.startLine = d.startLine
  indent : d'.indent = d.indent
  tail : d'.tail = d.tail
  openLiteral : d'.openLiteral = d.openLiteral
  depth : d'.depth = d.depth
  lastLine : d'.lastLine = d.lastLine
  begins : d.BeginsWith q ∧ d'.BeginsWith q
  width : cellWidth d.tail < d.width ∧ cellWidth d'.tail < d'.width

theorem cellWidth_append (xs ys : List Cell) :
    cellWidth (xs ++ ys) = cellWidth xs + cellWidth ys := by
  rw [cellWidth, List.map_append, Text.width_append]
  rfl

theorem cellWidth_reverse (xs : List Cell) : cellWidth xs.reverse = cellWidth xs := by
  induction xs with
  | nil => rfl
  | cons c xs ih =>
    rw [List.reverse_cons, cellWidth_append, ih, ← List.singleton_append (x := c) (l := xs),
      cellWidth_append, Nat.add_comm]

theorem cellWidth_takeWhile (xs : List Cell) :
    cellWidth xs = cellWidth (xs.takeWhile Cell.isBlank) + cellWidth
      (xs.dropWhile Cell.isBlank) := by
  rw [← cellWidth_append, List.takeWhile_append_dropWhile]

namespace Hushed

variable {q : Char} {d d' : Draft}

theorem append (h : Hushed q d d') (cells : List Cell) :
    Hushed q (d.append cells) (d'.append cells) := by
  have htail := h.tail
  have hopen := h.openLiteral
  obtain ⟨hwidth, hwidth'⟩ := h.width
  unfold Draft.append
  rw [hopen]
  cases d.openLiteral with
  | some literal =>
    exact ⟨h.startLine, h.indent, htail, rfl, h.depth, h.lastLine, h.begins, by dsimp only; omega,
      by dsimp only; omega⟩
  | none =>
    refine ⟨h.startLine, h.indent, by rw [htail], rfl, h.depth, h.lastLine, h.begins, ?_, ?_⟩
    · dsimp only
      rw [cellWidth_append, cellWidth_reverse]
      omega
    · dsimp only
      rw [cellWidth_append, cellWidth_reverse]
      omega

theorem trimCode (h : Hushed q d d') : Hushed q d.trimCode d'.trimCode := by
  have hopen := h.openLiteral
  have htail := h.tail
  obtain ⟨hwidth, hwidth'⟩ := h.width
  unfold Draft.trimCode
  rw [hopen]
  cases hd : d.openLiteral with
  | some literal => exact h
  | none =>
    refine ⟨h.startLine, h.indent, by rw [htail], rfl, h.depth, h.lastLine, h.begins, ?_, ?_⟩
    · have := cellWidth_takeWhile d.tail
      dsimp only
      omega
    · have := cellWidth_takeWhile d'.tail
      dsimp only
      omega

theorem enterLine (h : Hushed q d d') (line : Nat) :
    Hushed q (d.enterLine line) (d'.enterLine line) := by
  have hne : (d.width == 0) = false ∧ (d'.width == 0) = false := by
    obtain ⟨hwidth, hwidth'⟩ := h.width
    rw [beq_eq_false_iff_ne, beq_eq_false_iff_ne]
    omega
  unfold Draft.enterLine
  rw [h.lastLine, hne.1, hne.2]
  split
  · exact h
  · have hjoined := h.trimCode.append [.joint]
    exact ⟨hjoined.startLine, hjoined.indent, hjoined.tail, hjoined.openLiteral, hjoined.depth, rfl,
      hjoined.begins, hjoined.width⟩

theorem pushCode (h : Hushed q d d') (line : Nat) (chunk : List Char) :
    Hushed q (d.pushCode line chunk) (d'.pushCode line chunk) := by
  unfold Draft.pushCode
  rw [h.lastLine]
  exact (h.enterLine line).append _

theorem BeginsWith.settle {d : Draft} (h : d.BeginsWith q) (pieces : List Piece) (e : Draft)
    (he : e.settled = pieces ++ d.settled) : e.BeginsWith q := by
  obtain ⟨later, cells, hsettled, hfirst⟩ := h
  exact ⟨pieces ++ later, cells, by rw [he, hsettled, List.append_assoc], hfirst⟩

theorem closeLiteral (h : Hushed q d d') : Hushed q d.closeLiteral d'.closeLiteral := by
  have hopen := h.openLiteral
  obtain ⟨hwidth, hwidth'⟩ := h.width
  unfold Draft.closeLiteral
  rw [hopen]
  cases hd : d.openLiteral with
  | none => exact h
  | some literal =>
    have hzero : cellWidth [] = 0 := rfl
    refine ⟨h.startLine, h.indent, rfl, rfl, h.depth, h.lastLine, ⟨?_, ?_⟩, ?_, ?_⟩
    · exact BeginsWith.settle h.begins.1 [_, _] _ rfl
    · exact BeginsWith.settle h.begins.2 [_, _] _ rfl
    · dsimp only
      omega
    · dsimp only
      omega

theorem pushLiteral (h : Hushed q d d') (line : Nat) (chunk : List Char) (continues : Bool) :
    Hushed q (d.pushLiteral line chunk continues) (d'.pushLiteral line chunk continues) := by
  have hline := h.enterLine line
  have hopened : Hushed q { d.enterLine line
      with openLiteral := some ((d.enterLine line).openLiteral.getD []) } { d'.enterLine line
        with openLiteral := some ((d'.enterLine line).openLiteral.getD []) } :=
    ⟨hline.startLine, hline.indent, hline.tail, by rw [hline.openLiteral], hline.depth,
      hline.lastLine, hline.begins, hline.width⟩
  have hgrown := hopened.append (cellsOf line chunk)
  unfold Draft.pushLiteral
  cases continues with
  | true => exact hgrown
  | false => exact hgrown.closeLiteral

theorem openBracket (h : Hushed q d d') : Hushed q d.openBracket d'.openBracket :=
  ⟨h.startLine, h.indent, h.tail, h.openLiteral, by simp [Draft.openBracket, h.depth], h.lastLine,
    h.begins, h.width⟩

theorem closeBracket (h : Hushed q d d') : Hushed q d.closeBracket d'.closeBracket :=
  ⟨h.startLine, h.indent, h.tail, h.openLiteral, by simp [Draft.closeBracket, h.depth], h.lastLine,
    h.begins, h.width⟩

theorem isOpen (h : Hushed q d d') : d'.isOpen = d.isOpen := by
  unfold Draft.isOpen
  rw [h.depth, h.openLiteral]

theorem withoutContinuation? (h : Hushed q d d') :
    Option.Rel (Hushed q) d.withoutContinuation? d'.withoutContinuation? := by
  obtain ⟨hwidth, hwidth'⟩ := h.width
  have htail := h.tail
  have hsum := cellWidth_takeWhile d.tail
  unfold Draft.withoutContinuation?
  rw [htail] at hwidth' ⊢
  cases hdrop : d.tail.dropWhile Cell.isBlank with
  | nil => exact .none
  | cons c before =>
    dsimp only
    split
    · rw [hdrop, ← List.singleton_append, cellWidth_append] at hsum
      have hcell : cellWidth (c :: d.tail.takeWhile Cell.isBlank) =
          cellWidth [c] + cellWidth (d.tail.takeWhile Cell.isBlank) := cellWidth_append [c] _
      refine .some ⟨h.startLine, h.indent, rfl, h.openLiteral, h.depth, h.lastLine, h.begins, ?_,
        ?_⟩
      · dsimp only
        omega
      · dsimp only
        omega
    · exact .none

end Hushed

/-! ### Finished statements -/

theorem maskedText_append (xs ys : List Glyph) :
    maskedText (xs ++ ys) = maskedText xs ++ maskedText ys := by
  induction xs with
  | nil => rfl
  | cons g xs ih => simp [maskedText, ih]

/-- The delimiter of a literal shows. -/
theorem head?_maskedText_veilLiteral (q : Char) (cs : List Char) :
    (maskedText (veilLiteral (q :: cs))).head? = some q := by
  have hfirst : 0 < delimiterLength (q :: cs) := by
    unfold delimiterLength
    split <;> decide
  have hshown : (decide (delimiterLength (q :: cs) ≤ 0) &&
      decide (0 < Text.width (q :: cs) - delimiterLength (q :: cs))) = false := by
    rw [Bool.and_eq_false_iff]
    left
    rw [decide_eq_false_iff_not]
    omega
  rw [veilLiteral, veilFrom, hshown]
  rfl

theorem startLine_trimCode (d : Draft) : d.trimCode.startLine = d.startLine := by
  unfold trimCode
  cases d.openLiteral <;> rfl

theorem indent_trimCode (d : Draft) : d.trimCode.indent = d.indent := by
  unfold trimCode
  cases d.openLiteral <;> rfl

/-- A draft that begins with a literal is finished as a statement that begins with a quote. -/
theorem exists_finish {q : Char} (hq : isQuote q = true) {d : Draft} (h : d.trimCode.BeginsWith q) :
    ∃ s, d.finish = some s ∧ s.BeginsWithQuote ∧ s.startLine = d.startLine ∧
    s.indent = d.indent := by
  obtain ⟨later, cells, hsettled, hfirst⟩ := h
  obtain ⟨c, rest, rfl, rfl⟩ : ∃ c rest, cells = c :: rest ∧ c.char = q := by
    cases cells with
    | nil => contradiction
    | cons c rest => exact ⟨c, rest, rfl, Option.some.inj hfirst⟩
  have hpieces : ∃ more, d.trimCode.pieces = .code [] :: .literal (c :: rest) :: more := by
    exact ⟨_, by rw [pieces, hsettled, List.reverse_append]; rfl⟩
  obtain ⟨more, hpieces⟩ := hpieces
  have hvisible : (d.trimCode.pieces.all fun p => p.cells.all Cell.isBlank) = false := by
    have hblank : c.isBlank = false := isBlank_of_isQuote hq
    simp [hpieces, Piece.cells, hblank]
  unfold finish
  dsimp only
  rw [hvisible, if_neg Bool.false_ne_true]
  refine ⟨_, rfl, ?_, d.startLine_trimCode, d.indent_trimCode⟩
  have hhead := head?_maskedText_veilLiteral c.char (rest.map Cell.char)
  unfold Statement.BeginsWithQuote Statement.masked Statement.glyphs
  dsimp only
  rw [hpieces, List.flatMap_cons, List.flatMap_cons, maskedText_append, maskedText_append]
  rw [show maskedText (Piece.code []).glyphs = [] from rfl, List.nil_append, List.head?_append,
    show (Piece.literal (c :: rest)).glyphs = veilLiteral (c.char :: rest.map Cell.char) from rfl,
    hhead]
  exact hq

/-! ### Drafts that are alike -/

/-- The draft of a statement that starts at another column. -/
def withIndent (i : Nat) (d : Draft) : Draft := { d with indent := i }

/-- The drafts are equal but for the indentation of those that start on a free line, or
both begin with a literal. -/
inductive Alike (free : Nat → Prop) : Draft → Draft → Prop
  | indent {d : Draft} {i : Nat} : (¬free d.startLine → i = d.indent) →
    Alike free d (d.withIndent i)
  | hushed {q : Char} {d d' : Draft} : isQuote q = true → Hushed q d d' → Alike free d d'

section WithIndent

variable (i : Nat) (d : Draft)

theorem append_withIndent (cells : List Cell) :
    (d.withIndent i).append cells = (d.append cells).withIndent i := by
  unfold append withIndent
  cases d.openLiteral <;> rfl

theorem trimCode_withIndent : (d.withIndent i).trimCode = d.trimCode.withIndent i := by
  cases h : d.openLiteral <;> simp [trimCode, withIndent, h]

theorem enterLine_withIndent (line : Nat) :
    (d.withIndent i).enterLine line = (d.enterLine line).withIndent i := by
  unfold enterLine
  rw [trimCode_withIndent, append_withIndent, show (d.withIndent i).lastLine = d.lastLine from rfl,
    show (d.withIndent i).width = d.width from rfl]
  split
  · rfl
  · split <;> rfl

theorem pushCode_withIndent (line : Nat) (chunk : List Char) :
    (d.withIndent i).pushCode line chunk = (d.pushCode line chunk).withIndent i := by
  unfold pushCode
  rw [enterLine_withIndent, append_withIndent]
  rfl

theorem pushLiteral_withIndent (line : Nat) (chunk : List Char) (continues : Bool) :
    (d.withIndent i).pushLiteral line chunk continues =
      (d.pushLiteral line chunk continues).withIndent i := by
  cases continues with
  | true => rw [pushLiteral_true, pushLiteral_true, enterLine_withIndent]; rfl
  | false => rw [pushLiteral_false, pushLiteral_false, enterLine_withIndent]; rfl

theorem withoutContinuation?_withIndent :
    (d.withIndent i).withoutContinuation? = d.withoutContinuation?.map (withIndent i) := by
  unfold withoutContinuation?
  rw [show (d.withIndent i).tail = d.tail from rfl]
  cases d.tail.dropWhile Cell.isBlank with
  | nil => rfl
  | cons c before =>
    dsimp only
    split <;> rfl

theorem finish_withIndent :
    (d.withIndent i).finish = d.finish.map fun s => { s with indent := i } := by
  unfold finish
  rw [trimCode_withIndent]
  dsimp only
  rw [show (d.trimCode.withIndent i).pieces = d.trimCode.pieces from rfl]
  split <;> rfl

end WithIndent

theorem append_keeps (d : Draft) (cells : List Cell) :
    (d.append cells).startLine = d.startLine ∧ (d.append cells).indent = d.indent := by
  unfold append
  cases d.openLiteral <;> exact ⟨rfl, rfl⟩

theorem enterLine_keeps (d : Draft) (line : Nat) :
    (d.enterLine line).startLine = d.startLine ∧ (d.enterLine line).indent = d.indent := by
  unfold enterLine
  split
  · exact ⟨rfl, rfl⟩
  · dsimp only
    split
    · exact ⟨rfl, rfl⟩
    · rw [(append_keeps _ _).1, (append_keeps _ _).2, startLine_trimCode, indent_trimCode]
      exact ⟨rfl, rfl⟩

namespace Alike

variable {free : Nat → Prop} {d d' : Draft}

theorem refl (d : Draft) : Alike free d d := .indent fun _ => rfl

theorem startLine (h : Alike free d d') : d'.startLine = d.startLine := by
  cases h with
  | indent _ => rfl
  | hushed _ h => exact h.startLine

theorem depth (h : Alike free d d') : d'.depth = d.depth := by
  cases h with
  | indent _ => rfl
  | hushed _ h => exact h.depth

theorem isOpen (h : Alike free d d') : d'.isOpen = d.isOpen := by
  cases h with
  | indent _ => rfl
  | hushed _ h => exact h.isOpen

theorem pushCode (h : Alike free d d') (line : Nat) (chunk : List Char) :
    Alike free (d.pushCode line chunk) (d'.pushCode line chunk) := by
  cases h with
  | hushed hq h => exact .hushed hq (h.pushCode line chunk)
  | indent hi =>
    rw [pushCode_withIndent]
    refine .indent ?_
    have hkeeps :=
      (d.enterLine line).append_keeps (cellsOf line (if d.lastLine == some line then chunk else
      Text.trimStart chunk))
    rw [Draft.pushCode, hkeeps.1, hkeeps.2, (d.enterLine_keeps line).1, (d.enterLine_keeps line).2]
    exact hi

theorem pushLiteral (h : Alike free d d') (line : Nat) (chunk : List Char) (continues : Bool) :
    Alike free (d.pushLiteral line chunk continues) (d'.pushLiteral line chunk continues) := by
  cases h with
  | hushed hq h => exact .hushed hq (h.pushLiteral line chunk continues)
  | indent hi =>
    rw [pushLiteral_withIndent]
    refine .indent ?_
    obtain ⟨hstart, hindent⟩ := d.enterLine_keeps line
    cases continues with
    | true =>
      rw [pushLiteral_true]
      dsimp only
      rw [hstart, hindent]
      exact hi
    | false =>
      rw [pushLiteral_false]
      dsimp only
      rw [hstart, hindent]
      exact hi

theorem openBracket (h : Alike free d d') : Alike free d.openBracket d'.openBracket := by
  cases h with
  | hushed hq h => exact .hushed hq h.openBracket
  | indent hi => exact .indent (d := d.openBracket) hi

theorem closeBracket (h : Alike free d d') : Alike free d.closeBracket d'.closeBracket := by
  cases h with
  | hushed hq h => exact .hushed hq h.closeBracket
  | indent hi => exact .indent (d := d.closeBracket) hi

theorem withoutContinuation? (h : Alike free d d') :
    Option.Rel (Alike free) d.withoutContinuation? d'.withoutContinuation? := by
  cases h with
  | hushed hq h =>
    have hrel := h.withoutContinuation?
    generalize d.withoutContinuation? = x at hrel ⊢
    generalize d'.withoutContinuation? = x' at hrel ⊢
    cases hrel with
    | none => exact .none
    | some he => exact .some (.hushed hq he)
  | @indent _ i hi =>
    rw [withoutContinuation?_withIndent]
    unfold Draft.withoutContinuation?
    cases d.tail.dropWhile Cell.isBlank with
    | nil => exact .none
    | cons c before =>
      dsimp only
      split
      · exact .some (.indent hi)
      · exact .none

end Alike

end Draft

/-- The statements are equal but for the indentation of those that start on a free line, or
both begin with a quote. -/
inductive Statement.Alike (free : Nat → Prop) : Statement → Statement → Prop
  | indent {s : Statement} {i : Nat} : (¬free s.startLine → i = s.indent) →
    Alike free s { s with indent := i }
  | quoted {s s' : Statement} : s.BeginsWithQuote → s'.BeginsWithQuote → s'.indent = s.indent →
    Alike free s s'

theorem Draft.Alike.finish {free : Nat → Prop} {d d' : Draft} (h : Draft.Alike free d d') :
    Option.Rel (Statement.Alike free) d.finish d'.finish := by
  cases h with
  | @hushed q _ _ hq h =>
    obtain ⟨s, hs, hquote, -, hindent⟩ := exists_finish hq h.trimCode.begins.1
    obtain ⟨s', hs', hquote', -, hindent'⟩ := exists_finish hq h.trimCode.begins.2
    rw [hs, hs']
    exact .some (.quoted hquote hquote' (by rw [hindent, hindent', h.indent]))
  | @indent _ i hi =>
    rw [finish_withIndent]
    unfold Draft.finish
    dsimp only
    split
    · exact .none
    · refine .some (.indent ?_)
      dsimp only
      rw [startLine_trimCode, indent_trimCode]
      exact hi

end EndpointCensus
