import EndpointCensus.Proofs.Statement.Quoted
import EndpointCensus.Proofs.Statement.Substance

/-!
Where lines are entered. A draft notes the byte at which it enters each physical line. The
characters of the line stand behind that byte, and those of the lines before stand before it; so the
entries tell the line of every character.
-/

namespace EndpointCensus

/-- The characters among cells that were copied from a line. -/
def charsFrom (line : Nat) (cells : List Cell) : List Char :=
  (cells.filter (·.line == some line)).map Cell.char

/-! ### Entries -/

/-- Entries, newest first, tell where characters were copied from: the line of each is entered at
its first byte or before it, and the lines entered later are entered behind it. Only the spaces at
joins come from no line. -/
def Located (entries : List (Nat × Nat)) (cells : List Cell) : Prop :=
  ∀ before c after, cells = before ++ c :: after → c = .joint ∨
    ∃ later start line earlier, c.line = some line ∧ entries = later ++ (start, line) :: earlier ∧
      start ≤ cellWidth before ∧ ∀ e ∈ later, cellWidth (before ++ [c]) ≤ e.1

namespace Located

variable {entries : List (Nat × Nat)} {cells : List Cell}

theorem of_prefix (h : Located entries cells) {fewer : List Cell} (hfewer : fewer <+: cells) :
    Located entries fewer := by
  obtain ⟨rest, rfl⟩ := hfewer
  intro before c after hcells
  exact h before c (after ++ rest) (by simp [hcells])

/-- A line is entered behind all that is there. -/
theorem enter (h : Located entries cells) {start : Nat} (hstart : cellWidth cells ≤ start)
    (line : Nat) : Located ((start, line) :: entries) cells := by
  intro before c after hcells
  refine (h before c after hcells).imp_right ?_
  rintro ⟨later, start', line', earlier, hline, rfl, hle, hlater⟩
  refine ⟨(start, line) :: later, start', line', earlier, hline, rfl, hle, fun e he => ?_⟩
  rcases List.mem_cons.mp he with rfl | he
  · have hsplit : cells = (before ++ [c]) ++ after := by simp [hcells]
    rw [hsplit, Draft.cellWidth_append] at hstart
    omega
  · exact hlater e he

/-- What is appended comes from the line that was entered last, or from none. -/
theorem append (h : Located entries cells) {more : List Cell}
    (hmore : ∀ c ∈ more, c = .joint ∨ ∃ start line earlier, c.line = some line ∧
      entries = (start, line) :: earlier ∧ start ≤ cellWidth cells) :
    Located entries (cells ++ more) := by
  intro before c after hcells
  rcases List.append_eq_append_iff.mp hcells with ⟨front, rfl, hfront⟩ | ⟨front, rfl, hfront⟩
  · refine (hmore c (by simp [hfront])).imp_right ?_
    rintro ⟨start, line, earlier, hline, hentries, hstart⟩
    refine ⟨[], start, line, earlier, hline, hentries, ?_, fun _ he => absurd he List.not_mem_nil⟩
    rw [Draft.cellWidth_append]
    omega
  · cases front with
    | nil =>
      rw [List.nil_append] at hfront
      refine (hmore c (by simp [← hfront])).imp_right ?_
      rintro ⟨start, line, earlier, hline, hentries, hstart⟩
      rw [List.append_nil] at hstart
      exact ⟨[], start, line, earlier, hline, hentries, hstart,
        fun _ he => absurd he List.not_mem_nil⟩
    | cons d front =>
      obtain ⟨rfl, rfl⟩ := List.cons.inj hfront
      exact h before c front rfl

/-- Lines that were never entered have no characters. -/
theorem charsFrom_eq_nil (h : Located entries cells) {line : Nat}
    (hline : ∀ e ∈ entries, e.2 ≠ line) : charsFrom line cells = [] := by
  rw [charsFrom, List.map_eq_nil_iff, List.filter_eq_nil_iff]
  intro c hc hfrom
  obtain ⟨before, after, rfl⟩ := List.append_of_mem hc
  rcases h before c after rfl with rfl | ⟨later, start, line', earlier, hfrom', rfl, -⟩
  · contradiction
  · obtain rfl : line' = line := Option.some.inj (hfrom'.symm.trans (beq_iff_eq.mp hfrom))
    exact hline (start, line') (by simp) rfl

end Located

/-! ### Characters from a line -/

theorem charsFrom_append (line : Nat) (xs ys : List Cell) :
    charsFrom line (xs ++ ys) = charsFrom line xs ++ charsFrom line ys := by
  simp [charsFrom]

theorem charsFrom_cellsOf (line : Nat) (chunk : List Char) :
    charsFrom line (Draft.cellsOf line chunk) = chunk := by
  simp [charsFrom, Draft.cellsOf, List.filter_map, Function.comp_def]

theorem charsFrom_cellsOf_of_ne {line other : Nat} (h : other ≠ line) (chunk : List Char) :
    charsFrom other (Draft.cellsOf line chunk) = [] := by
  simp [charsFrom, Draft.cellsOf, List.filter_map, Function.comp_def, Ne.symm h]

theorem charsFrom_sublist (line : Nat) {xs ys : List Cell} (h : xs <+: ys) :
    (charsFrom line xs).Sublist (charsFrom line ys) := (h.sublist.filter _).map _

/-! ### Drafts -/

namespace Draft

variable {n : Nat} {d : Draft}

theorem cells_append (d : Draft) (cells : List Cell) :
    (d.append cells).cells = d.cells ++ cells := by
  cases h : d.openLiteral <;> simp [append, Draft.cells, h]

theorem width_append (d : Draft) (cells : List Cell) :
    (d.append cells).width = d.width + cellWidth cells := by
  cases h : d.openLiteral <;> simp [append, h]

theorem lineStarts_append (d : Draft) (cells : List Cell) :
    (d.append cells).lineStarts = d.lineStarts := by
  cases h : d.openLiteral <;> simp [append, h]

theorem lineStarts_trimCode (d : Draft) : d.trimCode.lineStarts = d.lineStarts := by
  cases h : d.openLiteral <;> simp [trimCode, h]

theorem cells_trimCode (d : Draft) : d.trimCode.cells <+: d.cells := by
  unfold trimCode
  split
  · exact List.prefix_rfl
  · next hopen =>
    refine ⟨(d.tail.takeWhile Cell.isBlank).reverse, ?_⟩
    have htail : (d.tail.dropWhile Cell.isBlank).reverse ++
        (d.tail.takeWhile Cell.isBlank).reverse = d.tail.reverse := by
      rw [← List.reverse_append, List.takeWhile_append_dropWhile]
    simp [cells, hopen, htail]

/-- The number of bytes is kept. -/
def Measured (d : Draft) : Prop := d.width = cellWidth d.cells

theorem Measured.append {d : Draft} (h : d.Measured) (cells : List Cell) :
    (d.append cells).Measured := by
  rw [Measured, width_append, cells_append, cellWidth_append, h]

theorem Measured.trimCode {d : Draft} (h : d.Measured) : d.trimCode.Measured := by
  unfold Draft.trimCode
  split
  · exact h
  · next hopen =>
    have hsplit := cellWidth_takeWhile d.tail
    have hcells := h
    simp only [Measured, Draft.cells, hopen, cellWidth_append, cellWidth_reverse] at hcells ⊢
    omega

/-- The number of bytes of what is settled. -/
def settledWidth (d : Draft) : Nat := cellWidth (d.settled.reverse.flatMap Piece.cells)

theorem Measured.width_of_none {d : Draft} (h : d.Measured) (hopen : d.openLiteral = none) :
    d.width = d.settledWidth + cellWidth d.tail := by
  have hempty : cellWidth [] = 0 := rfl
  rw [h, cells, hopen, cellWidth_append, cellWidth_append, cellWidth_reverse, settledWidth,
    Option.getD_none, List.reverse_nil, hempty, Nat.add_zero]

/-- What is known of a draft where lines up to `n` were entered. -/
structure Entered (n : Nat) (d : Draft) : Prop where
  measured : d.Measured
  located : Located d.lineStarts d.cells
  ascending : d.lineStarts.Pairwise fun e f => f.1 ≤ e.1 ∧ f.2 < e.2
  lines : ∀ e ∈ d.lineStarts, d.startLine ≤ e.2 ∧ e.2 ≤ d.endLine
  covered : d.startLine ≤ d.endLine ∧ d.endLine ≤ n

theorem Entered.mono (h : d.Entered n) {m : Nat} (hnm : n ≤ m) : d.Entered m :=
  ⟨h.measured, h.located, h.ascending, h.lines, h.covered.1, Nat.le_trans h.covered.2 hnm⟩

/-- What is appended comes from the line at hand, or from none. -/
theorem Entered.append (h : d.Entered n) {more : List Cell}
    (hmore : ∀ c ∈ more, c = .joint ∨ ∃ start line earlier, c.line = some line ∧
      d.lineStarts = (start, line) :: earlier ∧ start ≤ d.width) : (d.append more).Entered n := by
  have hlocated : Located d.lineStarts (d.cells ++ more) := by
    apply h.located.append
    rw [← h.measured]
    exact hmore
  have hkeeps : (d.append more).startLine = d.startLine ∧ (d.append more).endLine = d.endLine := by
    unfold Draft.append
    split <;> exact ⟨rfl, rfl⟩
  refine ⟨h.measured.append more, ?_, ?_, ?_, ?_⟩
  · rwa [lineStarts_append, cells_append]
  · rw [lineStarts_append]
    exact h.ascending
  · rw [lineStarts_append, hkeeps.1, hkeeps.2]
    exact h.lines
  · rw [hkeeps.1, hkeeps.2]
    exact h.covered

theorem Entered.trimCode (h : d.Entered n) : d.trimCode.Entered n := by
  have hlines : d.trimCode.endLine = d.endLine := by
    unfold Draft.trimCode
    split <;> rfl
  refine ⟨h.measured.trimCode, ?_, ?_, ?_, ?_⟩
  · rw [lineStarts_trimCode]
    exact h.located.of_prefix d.cells_trimCode
  · rw [lineStarts_trimCode]
    exact h.ascending
  · rw [lineStarts_trimCode, startLine_trimCode, hlines]
    exact h.lines
  · rw [startLine_trimCode, hlines]
    exact h.covered

/-- A backslash is cut off the code, with the white space behind. -/
theorem cells_cut (hopen : d.openLiteral = none) {c : Cell} {before : List Cell}
    (hdrop : d.tail.dropWhile Cell.isBlank = c :: before) (w : Nat) :
    ({ d with tail := before, width := w } : Draft).cells <+: d.cells := by
  refine ⟨(d.tail.takeWhile Cell.isBlank ++ [c]).reverse, ?_⟩
  have htail : d.tail = d.tail.takeWhile Cell.isBlank ++ c :: before := by
    rw [← hdrop, List.takeWhile_append_dropWhile]
  have hreverse : d.tail.reverse =
      before.reverse ++ (d.tail.takeWhile Cell.isBlank ++ [c]).reverse := by
    rw [← List.reverse_append, List.append_assoc, List.singleton_append, ← htail]
  simp only [Draft.cells, hopen, Option.getD_none, List.reverse_nil, List.append_nil]
  rw [hreverse, List.append_assoc]

theorem Measured.cut (h : d.Measured) (hopen : d.openLiteral = none) {c : Cell} {before : List Cell}
    (hdrop : d.tail.dropWhile Cell.isBlank = c :: before) :
    { d with
      tail := before
      width := d.width - cellWidth (c :: d.tail.takeWhile Cell.isBlank) }.Measured := by
  have hmeasure := h.width_of_none hopen
  have hsplit := cellWidth_takeWhile d.tail
  rw [hdrop] at hsplit
  simp only [Measured, Draft.cells, hopen, Option.getD_none, List.reverse_nil, List.append_nil,
    cellWidth_append, cellWidth_reverse]
  have hcons (cells : List Cell) : cellWidth (c :: cells) = c.char.utf8Size + cellWidth cells := rfl
  rw [hcons] at hsplit ⊢
  rw [settledWidth] at hmeasure
  omega

theorem Entered.cut (h : d.Entered n) (hopen : d.openLiteral = none) {c : Cell} {before : List Cell}
    (hdrop : d.tail.dropWhile Cell.isBlank = c :: before) :
    { d with
      tail := before
      width := d.width - cellWidth (c :: d.tail.takeWhile Cell.isBlank) }.Entered n :=
  ⟨h.measured.cut hopen hdrop, h.located.of_prefix (cells_cut hopen hdrop _), h.ascending, h.lines,
    h.covered⟩

/-! ### Joins -/

/-- The space at a join comes from no line. -/
theorem charsFrom_join (d : Draft) (m : Nat) :
    (charsFrom m (d.trimCode.append [.joint]).cells).Sublist (charsFrom m d.cells) := by
  have hjoint : charsFrom m [.joint] = [] := rfl
  rw [cells_append, charsFrom_append, hjoint, List.append_nil]
  exact charsFrom_sublist m d.cells_trimCode

theorem lineStarts_join (d : Draft) : (d.trimCode.append [.joint]).lineStarts = d.lineStarts := by
  rw [lineStarts_append, lineStarts_trimCode]

theorem Entered.join (h : d.Entered n) : (d.trimCode.append [.joint]).Entered n := by
  exact h.trimCode.append fun c hc => .inl (List.mem_singleton.mp hc)

theorem join_of_some {literal : List Cell} (hopen : d.openLiteral = some literal) :
    d.trimCode.append [.joint] =
      { d with openLiteral := some (.joint :: literal), width := d.width + 1 } := by
  simp only [trimCode, append, hopen]
  rfl

theorem join_of_none (hopen : d.openLiteral = none) :
    d.trimCode.append [.joint] = { d with
      tail := .joint :: d.tail.dropWhile Cell.isBlank
      width := d.width - cellWidth (d.tail.takeWhile Cell.isBlank) + 1 } := by
  simp only [trimCode, append, hopen]
  rfl

end Draft

end EndpointCensus
