import EndpointCensus.Proofs.Line.TripleQuoted
import EndpointCensus.Proofs.Statement.Alike
import EndpointCensus.Proofs.Statement.Concatenation

/-!
Assembly of a literal over several lines. While the literal is open its lines only make it
longer, whatever they say, and the line it closes on leaves a draft that is known up to the cells
of the literal. So a statement that a literal begins has the same start, indentation and
structure for every interior.
-/

namespace EndpointCensus

theorem isBlank_of_isQuote {q : Char} (hq : isQuote q = true) : Text.isBlank q = false :=
  isBlank_of_isDelimiter (by rw [isDelimiter, hq, Bool.true_or])

/-! ### Drafts -/

namespace Draft

/-- The draft `e`, with a literal open in it that quote `q` has begun or continued. -/
structure Inside (q : Char) (e d : Draft) : Prop where
  startLine : d.startLine = e.startLine
  indent : d.indent = e.indent
  settled : d.settled = e.settled
  tail : d.tail = e.tail
  depth : d.depth = e.depth
  literal : ∃ cells, d.openLiteral = some (cells ++ e.openLiteral.getD []) ∧
    cells.getLast?.map Cell.char = some q
  width : 0 < d.width

/-- The draft `e` after that literal was closed on a line. -/
structure Closed (q : Char) (e : Draft) (line : Nat) (d : Draft) : Prop where
  startLine : d.startLine = e.startLine
  indent : d.indent = e.indent
  depth : d.depth = e.depth
  settled : ∃ cells, d.settled = .literal (cells ++ e.openLiteral.getD []).reverse ::
    .code e.tail.reverse :: e.settled ∧ cells.getLast?.map Cell.char = some q
  tail : d.tail = []
  openLiteral : d.openLiteral = none
  lastLine : d.lastLine = some line
  width : 0 < d.width

theorem lastLine_enterLine (d : Draft) (line : Nat) : (d.enterLine line).lastLine = some line := by
  unfold enterLine
  split
  · next h => exact beq_iff_eq.mp h
  · rfl

theorem pushLiteral_true (d : Draft) (line : Nat) (chunk : List Char) :
    d.pushLiteral line chunk true = { d.enterLine line with
      openLiteral := some ((cellsOf line chunk).reverse ++ (d.enterLine line).openLiteral.getD [])
      width := (d.enterLine line).width + cellWidth (cellsOf line chunk) } := rfl

theorem pushLiteral_false (d : Draft) (line : Nat) (chunk : List Char) :
    d.pushLiteral line chunk false = { d.enterLine line with
      settled :=
    .literal ((cellsOf line chunk).reverse ++ (d.enterLine line).openLiteral.getD []).reverse ::
        .code (d.enterLine line).tail.reverse :: (d.enterLine line).settled
      tail := []
      openLiteral := none
      width := (d.enterLine line).width + cellWidth (cellsOf line chunk) } := rfl

theorem cellWidth_cellsOf_cons (line : Nat) (c : Char) (cs : List Char) :
    0 < cellWidth (cellsOf line (c :: cs)) := by
  have := Char.utf8Size_pos c
  simp only [cellWidth, cellsOf, List.map_cons, Text.width_cons]
  omega

variable {q : Char} {e d : Draft}

theorem getLast?_cellsOf_cons (line : Nat) (cs : List Char) :
    (cellsOf line (q :: cs)).reverse.getLast?.map Cell.char = some q := by
  rw [List.getLast?_reverse]
  rfl

/-- A delimiter begins the literal, or continues one that is open. -/
theorem inside_pushLiteral (d : Draft) (line : Nat) (cs : List Char) :
    (d.enterLine line).Inside q (d.pushLiteral line (q :: cs) true) := by
  have hwidth := cellWidth_cellsOf_cons line q cs
  rw [pushLiteral_true]
  exact ⟨rfl, rfl, rfl, rfl, rfl, ⟨_, rfl, getLast?_cellsOf_cons line cs⟩, Nat.add_pos_right _ hwidth⟩

theorem closed_pushLiteral (d : Draft) (line : Nat) (cs : List Char) :
    (d.enterLine line).Closed q line (d.pushLiteral line (q :: cs) false) := by
  have hwidth := cellWidth_cellsOf_cons line q cs
  rw [pushLiteral_false]
  exact ⟨rfl, rfl, rfl, ⟨_, rfl, getLast?_cellsOf_cons line cs⟩, rfl, rfl, d.lastLine_enterLine line,
    Nat.add_pos_right _ hwidth⟩

theorem getLast?_append_cells (xs : List Cell) {ys : List Cell}
    (h : ys.getLast?.map Cell.char = some q) : (xs ++ ys).getLast?.map Cell.char = some q := by
  rw [List.getLast?_append]
  cases hys : ys.getLast? with
  | none => simp [hys] at h
  | some c => rwa [hys] at h

theorem Inside.enterLine (h : Inside q e d) (line : Nat) : Inside q e (d.enterLine line) := by
  obtain ⟨cells, hopen, hfirst⟩ := h.literal
  have hne : (d.width == 0) = false := by
    have := h.width
    rw [beq_eq_false_iff_ne]
    omega
  unfold Draft.enterLine
  split
  · exact h
  · simp only [hne, Bool.false_eq_true, ↓reduceIte, trimCode, append, hopen]
    refine ⟨h.startLine, h.indent, h.settled, h.tail, h.depth, ⟨.joint :: cells, rfl, ?_⟩, ?_⟩
    · exact getLast?_append_cells [.joint] hfirst
    · exact Nat.add_pos_left h.width _

theorem Inside.pushLiteral (h : Inside q e d) (line : Nat) (chunk : List Char) :
    Inside q e (d.pushLiteral line chunk true) := by
  have hline := h.enterLine line
  obtain ⟨cells, hopen, hfirst⟩ := hline.literal
  rw [pushLiteral_true, hopen]
  refine ⟨hline.startLine, hline.indent, hline.settled, hline.tail, hline.depth,
    ⟨(cellsOf line chunk).reverse ++ cells, ?_, getLast?_append_cells _ hfirst⟩,
    Nat.add_pos_left hline.width _⟩
  rw [Option.getD_some, List.append_assoc]

theorem Inside.close (h : Inside q e d) (line : Nat) (chunk : List Char) :
    e.Closed q line (d.pushLiteral line chunk false) := by
  have hline := h.enterLine line
  obtain ⟨cells, hopen, hfirst⟩ := hline.literal
  rw [pushLiteral_false, hopen]
  refine ⟨hline.startLine, hline.indent, hline.depth, ⟨(cellsOf line chunk).reverse ++ cells, ?_,
    getLast?_append_cells _ hfirst⟩, rfl, rfl, d.lastLine_enterLine line,
    Nat.add_pos_left hline.width _⟩
  rw [Option.getD_some, List.append_assoc, hline.tail, hline.settled]

end Draft

/-! ### Lines -/

/-- The line that a literal begins on, with nothing of the literal but its quote. -/
def quoteLine (q : Char) (number : Nat) (mode : Mode) (front : List Segment) : Line :=
  .ofSegments number mode .code (front ++ [⟨.literal, [q]⟩])

theorem ofLine_quoteLine {q : Char} (hq : isQuote q = true) (number : Nat) (mode mode' : Mode)
    (front back : List Segment) (cs : List Char) :
    Draft.ofLine (quoteLine q number mode front) =
      .ofLine (.ofSegments number mode mode' (front ++ ⟨.literal, q :: cs⟩ :: back)) := by
  have hindent : indentWidth (Line.ofSegments number mode mode'
      (front ++ ⟨.literal, q :: cs⟩ :: back)).text =
        indentWidth (quoteLine q number mode front).text := by
    have hvisible := isBlank_of_isQuote hq
    simp only [Line.text, Line.ofSegments, quoteLine, List.flatMap_append, List.flatMap_cons,
      List.flatMap_nil, List.append_nil, List.cons_append]
    exact indentWidth_append hvisible _ _
  unfold Draft.ofLine
  rw [hindent]
  rfl

theorem indentWidth_append_singleton {c : Char} (h : Text.isBlank c = false) (cs : List Char) :
    indentWidth (cs ++ [c]) = indentWidth cs := by
  induction cs with
  | nil => simp [indentWidth, h]
  | cons d cs ih => simp [indentWidth, ih]

namespace LiteralLines

variable {q : Char} {number : Nat} {mode mode' : Mode} {front back : List Segment} {cs : List Char}
  {upto : List Line} {closing : Line}
  (h : LiteralLines q number mode mode' front back cs upto closing)

include h

theorem number_closing : closing.number = number + cs.count '\n' := by
  cases h with
  | single hcs =>
    rw [List.count_eq_zero.mpr hcs]
    rfl
  | several => rfl

theorem number_lt : ∀ l ∈ upto, l.number < number + cs.count '\n' := by
  intro l hl
  cases h with
  | single => exact absurd hl List.not_mem_nil
  | several _ hcs hbody =>
    have hpos := List.count_pos_iff.mpr hcs
    rcases List.mem_cons.mp hl with rfl | hl
    · simp only [Line.ofSegments]
      omega
    · exact (hbody l hl).2

theorem literalOpen : closing.literalOpen = mode'.isOpenLiteral := by
  cases h <;> rfl

/-- A literal over several lines closes on a line whose indentation is counted inside of it. -/
theorem indent (hq : isQuote q = true) :
    indentWidth closing.text =
      if '\n' ∈ cs then indentWidth (lastLine cs)
        else indentWidth (quoteLine q number mode front).text := by
  cases h with
  | single hcs =>
    rw [if_neg hcs]
    exact (congrArg Draft.indent (ofLine_quoteLine hq number mode mode' front back _)).symm
  | several _ hcs =>
    have hvisible := isBlank_of_isQuote hq
    have htext : (Line.ofSegments (number + cs.count '\n') (.triple q number) mode'
        (⟨.literal, lastLine cs ++ tripleQuote q⟩ :: back)).text =
          lastLine cs ++ q :: (q :: q :: back.flatMap Segment.chars) := by
      simp [Line.text, Line.ofSegments, tripleQuote]
    rw [if_pos hcs, htext, indentWidth_append hvisible, indentWidth_append_singleton hvisible]

theorem upto_ne_nil (hcs : '\n' ∈ cs) : upto ≠ [] := by
  cases h with
  | single hcs' => exact absurd hcs hcs'
  | several => exact List.cons_ne_nil _ _

theorem upto_eq_nil (hcs : '\n' ∉ cs) : upto = [] := by
  cases h with
  | single => rfl
  | several _ hcs' => exact absurd hcs' hcs

end LiteralLines

namespace Assembly

variable {q : Char} {e d : Draft} {a : Assembly}

theorem modifyFor_of_current (hd : a.current = some d) (language : Language) (l : Line)
    (chunk : List Char) (f : Draft → Draft) :
    a.modifyFor language l chunk f = { a with current := some (f d) } := by
  unfold modifyFor
  rw [hd]

/-- Where nothing is held back, a chunk goes to the open draft or to a new one. -/
theorem modifyFor_of_pending (h : a.pending = none) (language : Language) (l : Line)
    (chunk : List Char) (f : Draft → Draft) :
    a.modifyFor language l chunk f = { a with current := some (f (a.current.getD (.ofLine l))) } := by
  unfold modifyFor
  rw [h]
  cases hcurrent : a.current <;> rfl

theorem endLine_inside (h : Draft.Inside q e d) (b : Assembly) :
    ({ b with current := some d } : Assembly).endLine .python = { b with current := some d } := by
  obtain ⟨cells, hliteral, -⟩ := h.literal
  simp [endLine, Draft.isOpen, hliteral]

/-- A line inside of the literal makes it longer. -/
theorem feedLine_body (h : Draft.Inside q e d) {l : Line} (hl : l.IsBody) (b : Assembly) :
    ∃ d', Draft.Inside q e d' ∧
      ({ b with current := some d } : Assembly).feedLine .python l =
        { b with current := some d' } := by
  have htag : (l.tag == .comment) = false := by
    rw [hl.tag]
    rfl
  obtain ⟨seen, hsegments⟩ := hl.segments
  unfold feedLine
  simp only [htag, Option.isNone_some, Bool.false_and, Bool.or_self, Bool.false_eq_true, ↓reduceIte,
    hsegments]
  unfold cut
  split
  · exact ⟨d, h, endLine_inside h b⟩
  · refine ⟨d.pushLiteral l.number seen.reverse true, h.pushLiteral l.number seen.reverse, ?_⟩
    simp only [feedSegments, hl.literalOpen, List.any_nil, Bool.not_false, Bool.and_self]
    rw [modifyFor_of_current (d := d) rfl]
    exact endLine_inside (h.pushLiteral l.number seen.reverse) b

theorem foldl_feedLine_body (h : Draft.Inside q e d) {body : List Line}
    (hbody : ∀ l ∈ body, l.IsBody) (b : Assembly) :
    ∃ d', Draft.Inside q e d' ∧
      body.foldl (feedLine .python) { b with current := some d } =
        { b with current := some d' } := by
  induction body generalizing d with
  | nil => exact ⟨d, h, rfl⟩
  | cons l rest ih =>
    obtain ⟨d', hd', hline⟩ := feedLine_body h (hbody l (List.mem_cons_self ..)) b
    rw [List.foldl_cons, hline]
    exact ih hd' fun m hm => hbody m (List.mem_cons_of_mem l hm)

/-- What stands before the last literal of its line is read as if no literal stayed open. -/
theorem feedSegments_append {language : Language} {l l₀ : Line}
    (hdraft : Draft.ofLine l₀ = .ofLine l) (hclosed : l₀.literalOpen = false)
    {front back : List Segment}
    (hback : l.literalOpen = true → back.any (·.kind == .literal) = true) (a : Assembly) :
    a.feedSegments language l (front ++ back) =
      (a.feedSegments language l₀ front).feedSegments language l back := by
  have hnumber : l₀.number = l.number := congrArg Draft.startLine hdraft
  induction front generalizing a with
  | nil => rfl
  | cons s rest ih =>
    rw [List.cons_append]
    simp only [feedSegments]
    rw [ih]
    cases s.kind with
    | comment => rfl
    | code =>
      dsimp only
      rw [feedCode_congr hdraft]
    | literal =>
      have hends : (l.literalOpen && !(rest ++ back).any (·.kind == .literal)) = false := by
        cases hopen : l.literalOpen with
        | false => rfl
        | true => rw [List.any_append, hback hopen, Bool.or_true, Bool.not_true, Bool.and_false]
      dsimp only
      rw [hends, hclosed, hnumber, modifyFor_congr hdraft, Bool.false_and]

/-- The line that a literal begins on, which may also be the one it closes on. -/
theorem feedLine_quote (hq : isQuote q = true) (number : Nat) (mode mode' : Mode)
    (front back : List Segment) (cs : List Char) (ha : a.pending = none) :
    let l := Line.ofSegments number mode mode' (front ++ ⟨.literal, q :: cs⟩ :: back)
    let b := a.feedSegments .python (quoteLine q number mode front) front
    let d := b.current.getD (.ofLine (quoteLine q number mode front))
    let continues := mode'.isOpenLiteral && !back.any (·.kind == .literal)
    a.feedLine .python l =
      (({ b with current := some (d.pushLiteral number (q :: cs) continues) } :
        Assembly).feedSegments .python l back).endLine .python := by
  intro l b d continues
  have hcontent : Segment.hasContent ⟨.literal, q :: cs⟩ = true := by
    simp [Segment.hasContent, Text.allBlank, isBlank_of_isQuote hq]
  have hline : l.hasContent = true := by simp [Line.hasContent, l, Line.ofSegments, hcontent]
  have htag : (l.tag == .comment) = false := by
    have hany : (front ++ ⟨.literal, q :: cs⟩ :: back).any Segment.hasContent = true := hline
    simp only [l, Line.ofSegments, hany, Bool.not_true, Bool.false_and]
    cases mode.isOpenLiteral <;> rfl
  have hwaits : a.OnlyScriptsWait .python := fun _ => ha
  have hpending : b.pending = none := hwaits.feedSegments _ _ rfl
  have hdraft := ofLine_quoteLine hq number mode mode' front back cs
  unfold feedLine
  have hclosed : (quoteLine q number mode front).literalOpen = false := rfl
  rw [htag, hline, Bool.not_true, Bool.and_false, Bool.or_self, if_neg Bool.false_ne_true]
  rw [show l.segments = front ++ ⟨.literal, q :: cs⟩ :: back from rfl,
    feedSegments_append hdraft hclosed (fun _ => by simp) a, feedSegments]
  dsimp only
  rw [modifyFor_of_pending hpending, ← hdraft]
  rfl

/-- Up to the end of a literal, assembly depends on the lines before it and on
how the literal begins. -/
theorem feed_literalLines (hq : isQuote q = true) {number : Nat} {mode mode' : Mode}
    {front back : List Segment} {cs : List Char} {upto : List Line} {closing : Line}
    (hlines : LiteralLines q number mode mode' front back cs upto closing)
    (hback : mode'.isOpenLiteral = true → back.any (·.kind == .literal) = true)
    (ha : a.pending = none) :
    let b := a.feedSegments .python (quoteLine q number mode front) front
    let e := (b.current.getD (.ofLine (quoteLine q number mode front))).enterLine number
    (∃ d, Draft.Closed q e closing.number d ∧
      (upto.foldl (feedLine .python) a).feedLine .python closing =
        (({ b with current := some d } : Assembly).feedSegments .python closing back).endLine
            .python) ∧
      (upto = [] ∨ ∃ d, Draft.Inside q e d ∧ upto.foldl (feedLine .python) a =
        { b with current := some d }) := by
  intro b e
  have hcontinues : (mode'.isOpenLiteral && !back.any (·.kind == .literal)) = false := by
    cases hmode : mode'.isOpenLiteral with
    | false => rfl
    | true => rw [hback hmode]; rfl
  cases hlines with
  | single hcs =>
    refine ⟨⟨_, Draft.closed_pushLiteral _ number (q :: q :: (cs ++ tripleQuote q)), ?_⟩, .inl rfl⟩
    have hfeed :=
      feedLine_quote hq number mode mode' front back (q :: q :: (cs ++ tripleQuote q)) ha
    dsimp only at hfeed
    rw [hcontinues] at hfeed
    exact hfeed
  | @several ds body hcs hbody =>
    let first :=
      (b.current.getD (.ofLine (quoteLine q number mode front))).pushLiteral number
        (q :: q :: q :: ds) true
    have hinside : Draft.Inside q e first := Draft.inside_pushLiteral _ number (q :: q :: ds)
    have hfirst : a.feedLine .python
        (.ofSegments number mode (.triple q number) (front ++ [⟨.literal, tripleQuote q ++ ds⟩])) =
          { b with current := some first } := by
      rw [show tripleQuote q ++ ds = q :: q :: q :: ds from rfl, feedLine_quote hq _ _ _ _ _ _ ha]
      exact endLine_inside hinside b
    obtain ⟨d, hd, hfold⟩ := foldl_feedLine_body hinside (fun l hl => (hbody l hl).1) b
    rw [← hfirst] at hfold
    refine ⟨⟨_, hd.close (number + cs.count '\n') (lastLine cs ++ tripleQuote q), ?_⟩,
      .inr ⟨d, hd, hfold⟩⟩
    rw [List.foldl_cons, hfold]
    unfold feedLine
    have htag (s : Segment) :
        ((Line.ofSegments (number + cs.count '\n') (.triple q number) mode' (s :: back)).tag ==
          .comment) = false := rfl
    simp only [htag, Option.isNone_some, Bool.false_and, Bool.or_self, Bool.false_eq_true,
      ↓reduceIte]
    rw [show (Line.ofSegments (number + cs.count '\n') (.triple q number) mode'
      (⟨.literal, lastLine cs ++ tripleQuote q⟩ :: back)).segments =
        ⟨.literal, lastLine cs ++ tripleQuote q⟩ :: back from rfl, feedSegments]
    dsimp only
    rw [modifyFor_of_current (d := d) rfl,
      show (Line.ofSegments (number + cs.count '\n') (.triple q number) mode'
        (⟨.literal, lastLine cs ++ tripleQuote q⟩ :: back)).literalOpen =
          mode'.isOpenLiteral from rfl, hcontinues]
    rfl

end Assembly

end EndpointCensus
