import EndpointCensus.Proofs.Statement.Lockstep

/-!
The interior of a literal that forms a statement. Two texts that differ there have the same
statements, except that the literal itself says something else and that a statement behind it, on
the line where it closes, may be indented otherwise. For that line begins inside of the literal, and
its indentation is counted from there.
-/

namespace EndpointCensus

/-! ### A literal that is a whole statement -/

/-- The statement is one literal in triple quotes. -/
def Statement.isTripleQuoted (q : Char) (s : Statement) : Bool :=
  match s.pieces with
  | [.code [], .literal cells, .code []] => (tripleQuote q).isPrefixOf (cells.map Cell.char)
  | _ => false

theorem Statement.exists_of_isTripleQuoted {q : Char} {s : Statement}
    (h : s.isTripleQuoted q = true) :
    ∃ cells, s.pieces = [.code [], .literal cells, .code []] ∧
    tripleQuote q <+: cells.map Cell.char := by
  unfold isTripleQuoted at h
  split at h
  · next cells hpieces => exact ⟨cells, hpieces, List.isPrefixOf_iff_prefix.mp h⟩
  · contradiction

/-- A text whose last statement is one literal, with nothing left open. -/
def EndsInLiteral (q : Char) (cs : List Char) : Prop :=
  (readStatements .python cs).unclosed = none ∧
    ∃ s ∈ (readStatements .python cs).statements.getLast?, s.isTripleQuoted q = true

instance (q : Char) (cs : List Char) : Decidable (EndsInLiteral q cs) :=
  inferInstanceAs (Decidable (_ ∧ _))

namespace Draft

/-- Nothing stands in the draft yet, and a literal that is open in it was begun by quote `q`. -/
structure Fresh (q : Char) (e : Draft) : Prop where
  settled : e.settled = []
  tail : e.tail = []
  depth : e.depth = 0
  literal : ∀ c, (e.openLiteral.getD []).getLast? = some c → c.char = q

variable {q : Char} {e d d' : Draft} {line : Nat}

/-- Where the literal is all of the statement, nothing stood before it. -/
theorem Closed.fresh (h : Closed q e line d) {s : Statement} (hdepth : d.depth = 0)
    (hfinish : d.finish = some s) (hs : s.isTripleQuoted q = true) : Fresh q e := by
  obtain ⟨cells, hsettled, -⟩ := h.settled
  have hpieces : s.pieces = d.settled.reverse ++ [.code []] := by
    unfold finish at hfinish
    dsimp only at hfinish
    split at hfinish
    · contradiction
    · obtain rfl := Option.some.inj hfinish
      simp [pieces, trimCode, h.openLiteral, h.tail]
  obtain ⟨literal, hliteral, hquote⟩ := Statement.exists_of_isTripleQuoted hs
  rw [hpieces, hsettled] at hliteral
  have hempty : e.settled = [] := by
    have hlength := congrArg List.length hliteral
    simp only [List.length_append, List.length_reverse, List.length_cons, List.length_nil]
      at hlength
    exact List.eq_nil_of_length_eq_zero (by omega)
  rw [hempty] at hliteral
  simp only [List.reverse_cons, List.reverse_nil, List.nil_append, List.cons_append,
    List.cons.injEq, Piece.code.injEq, Piece.literal.injEq, List.reverse_eq_nil_iff, and_true]
      at hliteral
  obtain ⟨htail, hcells⟩ := hliteral
  refine ⟨hempty, htail, by rw [← h.depth, hdepth], fun c hc => ?_⟩
  have hlast : (cells ++ e.openLiteral.getD []).getLast? = some c := by
    rw [List.getLast?_append, hc, Option.some_or]
  rw [← List.head?_reverse] at hlast
  obtain ⟨more, hmore⟩ := hquote
  rw [← hcells] at hmore
  have hhead : ((cells ++ e.openLiteral.getD []).reverse.map Cell.char).head? = some q := by
    rw [← hmore]
    rfl
  rw [List.head?_map, hlast] at hhead
  exact Option.some.inj hhead

/-- A closed literal is not blank. -/
theorem Closed.exists_finish (hq : isQuote q = true) (h : Closed q e line d) :
    ∃ s, d.finish = some s := by
  obtain ⟨cells, hsettled, hfirst⟩ := h.settled
  obtain ⟨c, hc, rfl⟩ : ∃ c ∈ cells, c.char = q := by
    cases hlast : cells.getLast? with
    | none => simp [hlast] at hfirst
    | some c =>
      rw [hlast] at hfirst
      exact ⟨c, List.mem_of_getLast? hlast, Option.some.inj hfirst⟩
  have hvisible : (d.trimCode.pieces.all fun p => p.cells.all Cell.isBlank) = false := by
    have hblank : c.isBlank = false := isBlank_of_isQuote hq
    have hpiece : Piece.literal (cells ++ e.openLiteral.getD []).reverse ∈ d.trimCode.pieces := by
      simp [pieces, trimCode, h.openLiteral, hsettled]
    rw [List.all_eq_false]
    refine ⟨_, hpiece, ?_⟩
    rw [Bool.not_eq_true, List.all_eq_false]
    exact ⟨c, by simp [Piece.cells, hc], by simp [hblank]⟩
  unfold finish
  dsimp only
  rw [hvisible, if_neg Bool.false_ne_true]
  exact ⟨_, rfl⟩

/-- Two literals that were closed in the same fresh draft are alike to assembly. -/
theorem Closed.hushed (hfresh : Fresh q e) (h : Closed q e line d) (h' : Closed q e line d') :
    Hushed q d d' := by
  have hbegins {d : Draft} (h : Closed q e line d) : d.BeginsWith q := by
    obtain ⟨cells, hsettled, hfirst⟩ := h.settled
    refine ⟨[], (cells ++ e.openLiteral.getD []).reverse, ?_, ?_⟩
    · rw [hsettled, hfresh.settled, hfresh.tail]
      rfl
    · rw [List.head?_reverse, List.getLast?_append]
      cases hlast : (e.openLiteral.getD []).getLast? with
      | none => exact hfirst
      | some c => exact congrArg some (hfresh.literal c hlast)
  have hzero : cellWidth [] = 0 := rfl
  refine ⟨by rw [h.startLine, h'.startLine], by rw [h.indent, h'.indent], by rw [h.tail, h'.tail],
    by rw [h.openLiteral, h'.openLiteral], by rw [h.depth, h'.depth],
    by rw [h.lastLine, h'.lastLine], ⟨hbegins h, hbegins h'⟩, ?_, ?_⟩
  · rw [h.tail, hzero]
    exact h.width
  · rw [h'.tail, hzero]
    exact h'.width

end Draft

/-- What is left of an assembly where a text ends behind a literal tells that the
literal is a whole statement. -/
theorem Assembly.fresh_of_closed {q : Char} {e d : Draft} {line : Nat} (h : Draft.Closed q e line d)
    {b : Assembly}
    (hnone : (({ b with current := some d } : Assembly).endLine .python).current = none)
    {s : Statement}
    (hlast : (({ b with current := some d } : Assembly).endLine .python).finished.head? = some s)
    (hs : s.isTripleQuoted q = true) (hq : isQuote q = true) : Draft.Fresh q e := by
  have hcontinuation : d.withoutContinuation? = none := by
    unfold Draft.withoutContinuation?
    rw [h.tail]
    rfl
  unfold endLine at hnone hlast
  dsimp only at hnone hlast
  split at hnone
  · contradiction
  · next hopen =>
    rw [if_neg hopen, hcontinuation] at hlast
    have hdepth : d.depth = 0 := by
      simpa [Draft.isOpen, h.openLiteral] using hopen
    obtain ⟨s', hs'⟩ := h.exists_finish hq
    dsimp only at hlast
    unfold emit at hlast
    rw [hs'] at hlast
    obtain rfl := Option.some.inj hlast
    exact h.fresh hdepth hs' hs

/-! ### Lines -/

/-- The lines that can be read are those before the line of a construct that never closes. -/
theorem LineTable.readable_split {upper lower : List Line} {closing : Line}
    {unterminated : Option (Nat × Unclosed)} {n : Nat} (hclosing : closing.number = n)
    (hupper : ∀ l ∈ upper, l.number < n) (hopen : ∀ p, unterminated = some p → n ≤ p.1) :
    readable ⟨upper ++ closing :: lower, unterminated⟩ =
      if unterminated.map Prod.fst = some n then upper
      else upper ++ closing :: readable ⟨lower, unterminated⟩ := by
  subst hclosing
  cases unterminated with
  | none => rfl
  | some p =>
    have hle := hopen p rfl
    have hall : ∀ l ∈ upper, decide (l.number < p.1) = true := by
      intro l hl
      have := hupper l hl
      rw [decide_eq_true_eq]
      omega
    simp only [readable, Option.map_some, Option.some.injEq]
    rw [List.takeWhile_append_of_pos hall, List.takeWhile_cons]
    by_cases heq : p.1 = closing.number
    · rw [if_pos heq, if_neg (by simp [heq]), List.append_nil]
    · have hlt : decide (closing.number < p.1) = true := by
        rw [decide_eq_true_eq]
        omega
      rw [if_neg heq, if_pos hlt]

/-! ### The place of a literal -/

section Place

variable (q : Char) (earlier line : List Char)

/-- The line that a literal behind `earlier` and `line` begins on, with its quote. -/
def quoteSite : Line :=
  let number := (physicalLines earlier).length + 1
  let mode := (scanLines .python 1 .code (physicalLines earlier)).2
  quoteLine q number mode (segmentsBefore q number mode line)

def assemblyBefore : Assembly :=
  let number := (physicalLines earlier).length + 1
  let mode := (scanLines .python 1 .code (physicalLines earlier)).2
  ((classify .python earlier).lines.foldl (Assembly.feedLine .python) {}).feedSegments .python
    (quoteSite q earlier line) (segmentsBefore q number mode line)

def draftBefore : Draft :=
  ((assemblyBefore q earlier line).current.getD (.ofLine (quoteSite q earlier line))).enterLine
    ((physicalLines earlier).length + 1)

theorem pending_assemblyBefore : (assemblyBefore q earlier line).pending = none :=
  Assembly.OnlyScriptsWait.feedSegments
    (Assembly.onlyScriptsWait_lines .python (classify .python earlier).lines) _ _ rfl

end Place

/-- A place for a literal: behind `line` the scanner is in code, and `rest` is what stands on the
line behind the literal. -/
structure LiteralPlace (q : Char) (earlier line rest later : List Char) : Prop where
  quote : isQuote q = true
  above : EndsLine earlier
  front : '\n' ∉ line
  code :
    let mode := (scanLines .python 1 .code (physicalLines earlier)).2
    (({ mode } : Cursor).read .python ((physicalLines earlier).length + 1)
      (tripleQuote q) line).2.mode = .code
  back : '\n' ∉ rest
  below : later = [] ∨ ∃ more, later = '\n' :: more

variable {q : Char} {earlier line rest later cs : List Char}

/-- The same place where the text ends behind the literal. -/
theorem LiteralPlace.last (p : LiteralPlace q earlier line rest later) :
    LiteralPlace q earlier line [] [] :=
  ⟨p.quote, p.above, p.front, p.code, List.not_mem_nil, .inl rfl⟩

/-- How a text with the literal `cs` at a place is read: line `n` closes the literal, and
`upper` are those above. -/
structure LiteralRead (q : Char) (earlier line rest later cs : List Char) (n : Nat)
    (upper : List Line) (closing : Line) : Prop where
  table :
    let last := scanFrom .python n { mode := .code } (lineEnding later rest)
    let below := scanLines .python (n + 1) last.2 (physicalLines later.tail)
    classify .python (earlier ++ line ++
      (tripleQuote q ++ (cs ++ (tripleQuote q ++ (rest ++ later))))) =
        ⟨upper ++ closing :: below.1, below.2.unclosed⟩
  above : ∀ l ∈ upper, l.number < n
  number : closing.number = n
  literalOpen : closing.literalOpen =
    (scanFrom .python n { mode := .code } (lineEnding later rest)).2.isOpenLiteral
  indent : indentWidth closing.text =
    if '\n' ∈ cs then indentWidth (lastLine cs) else indentWidth (quoteSite q earlier line).text
  closed : ∃ d, Draft.Closed q (draftBefore q earlier line) n d ∧
    (upper.foldl (Assembly.feedLine .python) {}).feedLine .python closing =
      (({ assemblyBefore q earlier line with current := some d } : Assembly).feedSegments .python
        closing (scanFrom .python n { mode := .code } (lineEnding later rest)).1).endLine .python
  inside : if '\n' ∈ cs then
      ∃ d, Draft.Inside q (draftBefore q earlier line) d ∧
        upper.foldl (Assembly.feedLine .python) {} =
          { assemblyBefore q earlier line with current := some d }
    else upper = (classify .python earlier).lines

theorem LiteralPlace.exists_read (p : LiteralPlace q earlier line rest later)
    (h : IsInterior q cs) : ∃ upper closing,
      LiteralRead q earlier line rest later cs ((physicalLines earlier).length + 1 + cs.count '\n')
        upper closing := by
  have hstart : ({ mode := (scanLines .python 1 .code (physicalLines earlier)).2 } : Cursor).Sound :=
    sound_scanLines .python 1 (Cursor.sound_start fun _ _ hmode => by contradiction) _
  obtain ⟨upto, closing, hlines, hscan⟩ :=
    exists_literalLines p.quote p.back p.below hstart p.front p.code h
  have hback {n : Nat} (hopen : (scanFrom .python n { mode := .code }
      (lineEnding later rest)).2.isOpenLiteral = true) :
      (scanFrom .python n { mode := .code } (lineEnding later rest)).1.any (·.kind == .literal) =
        true := by
    have hcursor : ({ mode := .code } : Cursor).IsDelimited := fun hkind => by contradiction
    obtain ⟨s, hs, hkind⟩ := (scanFrom_delimited .python n hcursor (lineEnding later rest)).2 hopen
    exact List.any_eq_true.mpr ⟨s, hs, by simp [hkind]⟩
  have hpending : ((classify .python earlier).lines.foldl (Assembly.feedLine .python) {}).pending =
      none :=
    Assembly.onlyScriptsWait_lines .python (classify .python earlier).lines rfl
  obtain ⟨⟨d, hclosed, hfeed⟩, hupto⟩ := Assembly.feed_literalLines p.quote hlines hback hpending
  refine ⟨(classify .python earlier).lines ++ upto, closing, ?_, ?_, hlines.number_closing,
    hlines.literalOpen, hlines.indent p.quote, ?_, ?_⟩
  · have hphysical := physicalLines_append p.above
      (line ++ (tripleQuote q ++ (cs ++ (tripleQuote q ++ (rest ++ later)))))
    rw [List.append_assoc earlier, classify, hphysical, scanLines_append]
    dsimp only
    rw [Nat.add_comm 1, hscan, List.append_assoc]
    rfl
  · intro l hl
    rcases List.mem_append.mp hl with hl | hl
    · have := number_lt_of_mem_scanLines hl
      omega
    · exact hlines.number_lt l hl
  · rw [hlines.number_closing] at hclosed
    refine ⟨d, hclosed, ?_⟩
    rw [List.foldl_append]
    exact hfeed
  · split
    · next hcs =>
      rw [List.foldl_append]
      rcases hupto with hnil | hinside
      · exact absurd hnil (hlines.upto_ne_nil hcs)
      · exact hinside
    · next hcs => rw [hlines.upto_eq_nil hcs, List.append_nil]

end EndpointCensus
