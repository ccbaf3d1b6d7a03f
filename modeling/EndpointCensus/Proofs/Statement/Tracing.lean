import Mathlib.Data.List.DropRight
import EndpointCensus.Proofs.Statement.Balanced
import EndpointCensus.Proofs.Statement.Entry
import EndpointCensus.Proofs.Statement.Invariant

/-!
The order of entries. What a draft appends later stands behind the last entry, but text before it
may still be cut off: the white space before a join, and a backslash that continues a line. White
space is cut no deeper than the join puts back. A backslash is cut off the line at hand, unless that
line has nothing to show after another backslash was cut off before; so the entries stay in order as
long as no line ends in two backslashes.
-/

namespace EndpointCensus

/-- The text ends in two backslashes, with nothing but white space between them and after them. -/
def continuesTwice (code : List Char) : Bool :=
  match code.reverse.dropWhile Text.isBlank with
  | '\\' :: before => (before.dropWhile Text.isBlank).head? == some '\\'
  | _ => false

theorem continuesTwice_append (code : List Char) {fresh fresh' fresh'' : List Cell} {c x : Cell}
    (hfresh : fresh.dropWhile Cell.isBlank = c :: fresh') (hc : c.char = '\\')
    (hfresh' : fresh'.dropWhile Cell.isBlank = x :: fresh'') (hx : x.char = '\\') :
    continuesTwice (code ++ fresh.reverse.map Cell.char) = true := by
  have hdrop {cells : List Cell} {y : Cell} {rest : List Cell}
      (h : cells.dropWhile Cell.isBlank = y :: rest) (more : List Char) :
      (cells.map Cell.char ++ more).dropWhile Text.isBlank =
        y.char :: (rest.map Cell.char ++ more) := by
    have hchars : (cells.map Cell.char).dropWhile Text.isBlank = y.char :: rest.map Cell.char := by
      rw [← Text.trimStart, ← Draft.map_char_dropWhile, h, List.map_cons]
    rw [List.dropWhile_append, hchars]
    rfl
  have hreverse : (code ++ fresh.reverse.map Cell.char).reverse =
      fresh.map Cell.char ++ code.reverse := by simp
  have hbefore : ((fresh'.map Cell.char ++ code.reverse).dropWhile Text.isBlank).head? =
      some '\\' := by
    rw [hdrop hfresh', hx, List.head?_cons]
  rw [continuesTwice, hreverse, hdrop hfresh, hc]
  exact beq_iff_eq.mpr hbefore

def Line.lastCode (l : Line) : List Char := (({} : LinePart).segments l.segments).code

/-- The last character to be seen, the first in reverse, is no backslash. -/
def EndsPlain (cells : List Cell) : Prop :=
  ∀ c rest, cells.dropWhile Cell.isBlank = c :: rest → c.char ≠ '\\'

/-! ### A backslash that is cut off -/

section Cut

variable {older fresh fresh' before : List Cell} {c : Cell}

theorem isCloser_of_isBlank (h : c.isBlank = true) : Text.isCloser c.char = false :=
  (Assembly.not_mark_of_isBlank h).2.1

/-- Where the lines before end plainly, or a closer stands behind them, a backslash at the end
is of the line at hand. -/
theorem exists_of_cut
    (hplain : (∃ x ∈ fresh.map Cell.char, Text.isCloser x = true) ∨ EndsPlain older)
    (hdrop : (fresh ++ older).dropWhile Cell.isBlank = c :: before) (hc : c.char = '\\') :
    ∃ fresh', fresh.dropWhile Cell.isBlank = c :: fresh' ∧ before = fresh' ++ older := by
  rw [List.dropWhile_append] at hdrop
  split at hdrop
  · next hblank =>
    rw [List.isEmpty_iff, List.dropWhile_eq_nil_iff] at hblank
    rcases hplain with ⟨x, hx, hcloser⟩ | hplain
    · obtain ⟨y, hy, rfl⟩ := List.mem_map.mp hx
      rw [isCloser_of_isBlank (hblank y hy)] at hcloser
      contradiction
    · exact absurd hc (hplain c before hdrop)
  · next hne =>
    cases hfresh : fresh.dropWhile Cell.isBlank with
    | nil => simp [hfresh] at hne
    | cons x fresh' =>
      rw [hfresh] at hdrop
      obtain ⟨rfl, rfl⟩ := List.cons.inj hdrop
      exact ⟨fresh', rfl, rfl⟩

/-- What is left ends plainly, unless there was a second backslash. -/
theorem endsPlain_of_cut
    (hplain : (∃ x ∈ fresh.map Cell.char, Text.isCloser x = true) ∨ EndsPlain older)
    (hfresh : fresh.dropWhile Cell.isBlank = c :: fresh') (hc : c.char = '\\') {code : List Char}
    (hcode : continuesTwice (code ++ fresh.reverse.map Cell.char) = false) :
    EndsPlain (fresh' ++ older) := by
  have hkept : fresh = fresh.takeWhile Cell.isBlank ++ c :: fresh' := by
    rw [← hfresh, List.takeWhile_append_dropWhile]
  intro x rest hx
  rw [List.dropWhile_append] at hx
  split at hx
  · next hblank =>
    rw [List.isEmpty_iff, List.dropWhile_eq_nil_iff] at hblank
    rcases hplain with ⟨y, hy, hcloser⟩ | hplain
    · obtain ⟨z, hz, rfl⟩ := List.mem_map.mp hy
      have hnot : Text.isCloser z.char = false := by
        rw [hkept, List.mem_append, List.mem_cons] at hz
        rcases hz with hz | rfl | hz
        · exact isCloser_of_isBlank (List.all_eq_true.mp List.all_takeWhile z hz)
        · rw [hc]
          rfl
        · exact isCloser_of_isBlank (hblank z hz)
      rw [hcloser] at hnot
      contradiction
    · exact hplain x rest hx
  · next hne =>
    intro hx'
    refine Bool.eq_false_iff.mp hcode ?_
    cases hfresh' : fresh'.dropWhile Cell.isBlank with
    | nil => simp [hfresh'] at hne
    | cons y fresh'' =>
      rw [hfresh'] at hx
      obtain ⟨rfl, -⟩ := List.cons.inj hx
      exact continuesTwice_append code hfresh hc hfresh' hx'

end Cut

/-! ### Drafts -/

namespace Draft

/-- The byte at which a line may be entered at the earliest when the code is cut back to `base`, a
part of the tail in reverse. -/
def ground (d : Draft) (base : List Cell) : Nat :=
  if d.openLiteral.isSome then if d.width = 0 then 0 else d.width + 1
  else if d.settledWidth + cellWidth base = 0 then 0
  else d.settledWidth + cellWidth (base.dropWhile Cell.isBlank) + 1

theorem cellWidth_dropWhile_le (cells : List Cell) :
    cellWidth (cells.dropWhile Cell.isBlank) ≤ cellWidth cells := by
  have := cellWidth_takeWhile cells
  omega

theorem le_cellWidth_dropWhile_append (more base : List Cell) :
    cellWidth (base.dropWhile Cell.isBlank) ≤
      cellWidth ((more ++ base).dropWhile Cell.isBlank) := by
  rw [List.dropWhile_append]
  split
  · exact Nat.le_refl _
  · rw [cellWidth_append]
    have := cellWidth_dropWhile_le base
    omega

/-- The more code is kept, the later. -/
theorem ground_le_append (d : Draft) (more base : List Cell) :
    d.ground base ≤ d.ground (more ++ base) := by
  have hlonger := le_cellWidth_dropWhile_append more base
  unfold ground
  rw [cellWidth_append]
  split
  · exact Nat.le_refl _
  · split
    · exact Nat.zero_le _
    · rw [if_neg (by omega)]
      omega

/-- A draft between lines. `texts` are the lines that the characters were copied from. -/
structure Rested (texts : Nat → List Char) (n : Nat) (d : Draft) : Prop extends d.Entered n where
  ground : ∀ e ∈ d.lineStarts, e.1 ≤ d.ground d.tail
  plain : d.isOpen = true ∨ EndsPlain d.tail
  copied : ∀ m, (charsFrom m d.cells).Sublist (texts m)

/-- A draft on line `n`, of which `p` was read. What the line added to the code is
`fresh`, on top of `older`. -/
structure OnLine (texts : Nat → List Char) (n : Nat) (p : LinePart) (older fresh : List Cell)
    (d : Draft) : Prop extends d.Entered n where
  ground : ∀ e ∈ d.lineStarts, e.1 ≤ d.ground older
  plain : d.isOpen = true ∨ (∃ c ∈ fresh.map Cell.char ++ p.seen, Text.isCloser c = true) ∨
    EndsPlain older
  others : ∀ m ≠ n, (charsFrom m d.cells).Sublist (texts m)
  copied : ∃ live, p.live = live ++ p.seen.reverse ∧ (charsFrom n d.cells).Sublist live
  tail : d.tail = fresh ++ older
  code : d.openLiteral = none →
    ∃ code, p.code = code ++ (fresh.reverse.map Cell.char ++ p.seen.reverse)
  idle : d.lastLine ≠ some n → fresh = []
  entry : ∀ e earlier, d.lineStarts = e :: earlier → e.2 = n → e.1 ≤ d.width

variable {texts : Nat → List Char} {n : Nat} {p : LinePart} {older fresh : List Cell} {d : Draft}

theorem Rested.mono (h : d.Rested texts n) {m : Nat} (hnm : n ≤ m) : d.Rested texts m :=
  ⟨h.toEntered.mono hnm, h.ground, h.plain, h.copied⟩

/-- A line begins with nothing added to the code. -/
theorem Rested.onLine (h : d.Rested texts n) {m : Nat} (hnm : n < m) (hp : p.Consistent) :
    d.OnLine texts m p d.tail [] := by
  obtain ⟨live, code, hlive, hcode⟩ := hp
  have hnew : ∀ e ∈ d.lineStarts, e.2 ≠ m := by
    intro e he
    have := (h.lines e he).2
    have := h.covered.2
    omega
  refine ⟨h.toEntered.mono (Nat.le_of_lt hnm), h.ground, ?_, fun m _ => h.copied m,
    ⟨live, hlive, ?_⟩, rfl, fun _ => ⟨code, by simpa using hcode⟩, fun _ => rfl,
    fun e earlier hstarts he => ?_⟩
  · exact h.plain.imp_right .inr
  · rw [h.located.charsFrom_eq_nil hnew]
    exact List.nil_sublist live
  · exact absurd he (hnew e (by simp [hstarts]))

theorem onLine_ofLine (texts : Nat → List Char) (l : Line) (hp : p.Consistent) :
    (ofLine l).OnLine texts l.number p [] [] := by
  obtain ⟨live, code, hlive, hcode⟩ := hp
  have hnone : Located [] [] := fun before c after hcells => by simp at hcells
  refine ⟨⟨rfl, hnone, .nil, fun e he => absurd he List.not_mem_nil, Nat.le_refl _, Nat.le_refl _⟩,
    fun e he => absurd he List.not_mem_nil, .inr (.inr fun c rest hc => by simp at hc),
    fun m _ => List.nil_sublist _, ⟨live, hlive, List.nil_sublist _⟩, rfl, fun _ =>
      ⟨code, by simpa using hcode⟩,
    fun _ => rfl, fun e earlier hc => by contradiction⟩

theorem EndsPlain.join {cells : List Cell} (h : EndsPlain cells) :
    EndsPlain (.joint :: cells.dropWhile Cell.isBlank) := by
  intro c rest hc
  refine h c rest ?_
  rwa [List.dropWhile_cons_of_pos (by rfl), List.dropWhile_idempotent] at hc

namespace OnLine

/-- Reading a character changes what the draft waits for. -/
theorem read (h : d.OnLine texts n p older fresh) (c : Char) :
    d.OnLine texts n (p.read c) older fresh := by
  obtain ⟨live, hlive, hcopied⟩ := h.copied
  refine ⟨h.toEntered, h.ground, ?_, h.others, ⟨live, by simp [LinePart.read, hlive], hcopied⟩,
    h.tail, fun hopen => ?_, h.idle, h.entry⟩
  · rcases h.plain with hopen | ⟨e, he, hcloser⟩ | hplain
    · exact .inl hopen
    · refine .inr (.inl ⟨e, ?_, hcloser⟩)
      rcases List.mem_append.mp he with he | he
      · exact List.mem_append_left _ he
      · exact List.mem_append_right _ (List.mem_cons_of_mem c he)
    · exact .inr (.inr hplain)
  · obtain ⟨code, hcode⟩ := h.code hopen
    exact ⟨code, by simp [LinePart.read, hcode]⟩

theorem openBracket (h : d.OnLine texts n p older fresh) :
    d.openBracket.OnLine texts n p older fresh :=
  ⟨⟨h.measured, h.located, h.ascending, h.lines, h.covered⟩, h.ground,
    .inl (by simp [isOpen, Draft.openBracket]), h.others, h.copied, h.tail, h.code, h.idle, h.entry⟩

theorem closeBracket (h : d.OnLine texts n p older fresh) {c : Char} (hc : Text.isCloser c = true) :
    d.closeBracket.OnLine texts n (p.read c) older fresh := by
  have hread := h.read c
  exact ⟨⟨h.measured, h.located, h.ascending, h.lines, h.covered⟩, h.ground,
    .inr (.inl ⟨c, by simp [LinePart.read], hc⟩), hread.others, hread.copied, hread.tail,
    hread.code, hread.idle, hread.entry⟩

theorem ground_joint {d : Draft} (hopen : d.openLiteral = none) (w : Nat) :
    ({ d with tail := .joint :: d.tail.dropWhile Cell.isBlank, width := w } : Draft).ground
        (.joint :: d.tail.dropWhile Cell.isBlank) =
      d.settledWidth + cellWidth (d.tail.dropWhile Cell.isBlank) + 1 := by
  have hjoint : cellWidth [.joint] = 1 := rfl
  have hsplit := cellWidth_append [.joint] (d.tail.dropWhile Cell.isBlank)
  rw [List.singleton_append, hjoint] at hsplit
  rw [Draft.ground, if_neg (by simp [hopen]), if_neg (by omega),
    List.dropWhile_cons_of_pos (by rfl), List.dropWhile_idempotent]
  rfl

/-- Behind the space that joins the line to what is there, nothing of the lines
before is left to cut. -/
theorem join (h : d.OnLine texts n p older []) (hlast : d.lastLine ≠ some n)
    (hwidth : d.width ≠ 0) : ∃ older', (d.trimCode.append [.joint]).OnLine texts n p older' [] ∧
      (d.trimCode.append [.joint]).width ≤ (d.trimCode.append [.joint]).ground older' ∧
      ∀ e ∈ d.lineStarts, e.1 ≤ (d.trimCode.append [.joint]).width := by
  have hstarts := d.lineStarts_join
  have hlast' : (d.trimCode.append [.joint]).lastLine ≠ some n := by rwa [lastLine, hstarts]
  have hothers : ∀ m ≠ n, (charsFrom m (d.trimCode.append [.joint]).cells).Sublist (texts m) :=
    fun m hm => (d.charsFrom_join m).trans (h.others m hm)
  have hcopied : ∃ live, p.live = live ++ p.seen.reverse ∧
      (charsFrom n (d.trimCode.append [.joint]).cells).Sublist live := by
    obtain ⟨live, hlive, hcopied⟩ := h.copied
    exact ⟨live, hlive, (d.charsFrom_join n).trans hcopied⟩
  have hentry : ∀ e earlier, (d.trimCode.append [.joint]).lineStarts = e :: earlier → e.2 = n →
      e.1 ≤ (d.trimCode.append [.joint]).width := by
    intro e earlier hc he
    refine absurd ?_ hlast'
    rw [lastLine, hc, List.head?_cons, Option.map_some, he]
  have hground := h.ground
  have hentered := h.toEntered.join
  obtain rfl : d.tail = older := h.tail
  cases hopen : d.openLiteral with
  | some literal =>
    have hhere : d.ground d.tail = d.width + 1 := by simp [Draft.ground, hopen, hwidth]
    rw [hhere] at hground
    rw [join_of_some hopen] at hentered hothers hcopied hentry ⊢
    have hthere : ({ d with openLiteral := some (.joint :: literal), width := d.width + 1 } :
        Draft).ground d.tail = d.width + 1 + 1 := rfl
    refine ⟨d.tail, ⟨hentered, fun e he => ?_, .inl (by simp [isOpen]), hothers, hcopied, rfl,
      fun hnone => by contradiction, fun _ => rfl, hentry⟩, ?_, hground⟩
    · rw [hthere]
      exact Nat.le_succ_of_le (hground e he)
    · rw [hthere]
      exact Nat.le_succ _
  | none =>
    have hmeasure := h.measured.width_of_none hopen
    have hsplit := cellWidth_takeWhile d.tail
    have hhere : d.ground d.tail =
        d.settledWidth + cellWidth (d.tail.dropWhile Cell.isBlank) + 1 := by
      rw [Draft.ground, hopen, if_neg (by simp), if_neg (by omega)]
    rw [hhere] at hground
    have hwidth' : d.width - cellWidth (d.tail.takeWhile Cell.isBlank) + 1 =
        d.settledWidth + cellWidth (d.tail.dropWhile Cell.isBlank) + 1 := by omega
    rw [join_of_none hopen, hwidth'] at hentered hothers hcopied hentry ⊢
    refine ⟨.joint :: d.tail.dropWhile Cell.isBlank,
      ⟨hentered, fun e he => ?_, h.plain.imp_right ?_, hothers, hcopied, rfl,
        fun _ => h.code hopen, fun _ => rfl, hentry⟩, ?_, hground⟩
    · exact Nat.le_trans (hground e he) (Nat.le_of_eq (ground_joint hopen _).symm)
    · rintro (⟨c, hc, hcloser⟩ | hplain)
      · exact .inl ⟨c, hc, hcloser⟩
      · exact .inr (EndsPlain.join hplain)
    · exact Nat.le_of_eq (ground_joint hopen _).symm

/-- The line is entered behind all that is there. -/
theorem enter (h : d.OnLine texts n p older []) (hlast : d.lastLine ≠ some n)
    (hground : d.width ≤ d.ground older) (hstarts : ∀ e ∈ d.lineStarts, e.1 ≤ d.width) :
    { d with lineStarts := (d.width, n) :: d.lineStarts, endLine := n }.OnLine texts n p older
      [] := by
  have hbefore : ∀ e ∈ d.lineStarts, e.2 < n := by
    cases hentries : d.lineStarts with
    | nil => exact fun e he => absurd he List.not_mem_nil
    | cons e earlier =>
      have hne : e.2 ≠ n := by
        intro he
        apply hlast
        rw [lastLine, hentries, List.head?_cons, Option.map_some, he]
      have hle := (h.lines e (by simp [hentries])).2
      have hcovered := h.covered.2
      have hascending := h.ascending
      rw [hentries, List.pairwise_cons] at hascending
      intro f hf
      rcases List.mem_cons.mp hf with rfl | hf
      · omega
      · have := (hascending.1 f hf).2
        omega
  have hcovered := h.covered
  refine ⟨⟨h.measured, ?_, ?_, ?_, ⟨Nat.le_trans hcovered.1 hcovered.2, Nat.le_refl n⟩⟩, ?_,
    h.plain, h.others, h.copied, h.tail, h.code, fun _ => rfl, ?_⟩
  · exact h.located.enter (Nat.le_of_eq h.measured.symm) n
  · exact List.pairwise_cons.mpr ⟨fun e he => ⟨hstarts e he, hbefore e he⟩, h.ascending⟩
  · intro e he
    rcases List.mem_cons.mp he with rfl | he
    · exact ⟨Nat.le_trans hcovered.1 hcovered.2, Nat.le_refl n⟩
    · exact ⟨(h.lines e he).1, Nat.le_of_lt (hbefore e he)⟩
  · intro e he
    rcases List.mem_cons.mp he with rfl | he
    · exact hground
    · exact h.ground e he
  · intro e earlier hentries _
    obtain ⟨rfl, -⟩ := List.cons.inj hentries
    exact Nat.le_refl _

theorem enterLine (h : d.OnLine texts n p older fresh) (hlast : d.lastLine ≠ some n) :
    ∃ older', (d.enterLine n).OnLine texts n p older' [] := by
  obtain rfl := h.idle hlast
  have hne : (d.lastLine == some n) = false := beq_eq_false_iff_ne.mpr hlast
  unfold Draft.enterLine
  rw [hne, if_neg Bool.false_ne_true]
  by_cases hwidth : d.width = 0
  · have hground : d.ground older = 0 := by
      have htail := h.tail
      unfold Draft.ground
      by_cases hopen : d.openLiteral.isSome = true
      · rw [if_pos hopen, if_pos hwidth]
      · have hmeasure := h.measured.width_of_none (Option.not_isSome_iff_eq_none.mp hopen)
        rw [htail, List.nil_append] at hmeasure
        rw [if_neg hopen, if_pos (by omega)]
    rw [if_pos (beq_iff_eq.mpr hwidth)]
    refine ⟨older, h.enter hlast (by omega) fun e he => ?_⟩
    have := h.ground e he
    omega
  · obtain ⟨older', hjoin, hground, hstarts⟩ := h.join hlast hwidth
    rw [if_neg (by simpa using hwidth)]
    rw [← d.lineStarts_join] at hstarts
    refine ⟨older', hjoin.enter ?_ hground hstarts⟩
    rwa [lastLine, lineStarts_join]

/-- What is appended on a line that was entered comes from the last entry. -/
theorem exists_entry (h : d.OnLine texts n p older fresh) (hlast : d.lastLine = some n)
    (chunk : List Char) :
    ∀ c ∈ cellsOf n chunk, c = .joint ∨ ∃ start line earlier, c.line = some line ∧
      d.lineStarts = (start, line) :: earlier ∧ start ≤ d.width := by
  intro c hc
  obtain ⟨x, -, rfl⟩ := List.mem_map.mp hc
  obtain ⟨e, he, hn⟩ := Option.map_eq_some_iff.mp hlast
  obtain ⟨earlier, hentries⟩ := List.head?_eq_some_iff.mp he
  exact .inr ⟨e.1, n, earlier, rfl, by rw [hentries, ← hn], h.entry e earlier hentries hn⟩

/-- Code of the line is appended: what was read and not appended, without white
space that it begins with. -/
theorem append (h : d.OnLine texts n p older fresh) (hlast : d.lastLine = some n)
    {skipped chunk : List Char} (hseen : p.seen.reverse = skipped ++ chunk)
    (hblank : Text.allBlank skipped = true) (hskipped : skipped = [] ∨ fresh = []) :
    ∃ fresh', (d.append (cellsOf n chunk)).OnLine texts n p.settle older fresh' := by
  have hentered := h.toEntered.append (h.exists_entry hlast chunk)
  have hlast' : (d.append (cellsOf n chunk)).lastLine = some n := by
    rwa [lastLine, lineStarts_append]
  have hothers : ∀ m ≠ n, (charsFrom m (d.append (cellsOf n chunk)).cells).Sublist (texts m) := by
    intro m hm
    rw [cells_append, charsFrom_append, charsFrom_cellsOf_of_ne hm, List.append_nil]
    exact h.others m hm
  have hcopied : ∃ live, p.settle.live = live ++ p.settle.seen.reverse ∧
      (charsFrom n (d.append (cellsOf n chunk)).cells).Sublist live := by
    obtain ⟨live, hlive, hcopied⟩ := h.copied
    refine ⟨p.live, by simp [LinePart.settle], ?_⟩
    rw [cells_append, charsFrom_append, charsFrom_cellsOf, hlive, hseen]
    exact hcopied.append (List.sublist_append_right skipped chunk)
  have hentry : ∀ e earlier, (d.append (cellsOf n chunk)).lineStarts = e :: earlier → e.2 = n →
      e.1 ≤ (d.append (cellsOf n chunk)).width := by
    intro e earlier hentries hn
    rw [lineStarts_append] at hentries
    rw [width_append]
    exact Nat.le_add_right_of_le (h.entry e earlier hentries hn)
  have hidle : ∀ fresh' : List Cell, (d.append (cellsOf n chunk)).lastLine ≠ some n → fresh' = [] :=
    fun _ hne => absurd hlast' hne
  cases hopen : d.openLiteral with
  | some literal =>
    rw [append_of_some hopen] at hentered hothers hcopied hentry hidle ⊢
    refine ⟨fresh, hentered, fun e he => Nat.le_trans (h.ground e he) ?_, .inl (by simp [isOpen]),
      hothers, hcopied, h.tail, fun hnone => by contradiction, hidle fresh, hentry⟩
    simp only [Draft.ground, hopen, Option.isSome_some, ↓reduceIte]
    split <;> split <;> omega
  | none =>
    rw [append_of_none hopen] at hentered hothers hcopied hentry hidle ⊢
    refine ⟨(cellsOf n chunk).reverse ++ fresh, hentered, fun e he => Nat.le_trans (h.ground e he) ?_,
      h.plain.imp_right ?_, hothers, hcopied, by simp [h.tail], fun _ => ?_, hidle _, hentry⟩
    · simp only [Draft.ground, hopen, Option.isSome_none, Bool.false_eq_true, ↓reduceIte]
      exact Nat.le_refl _
    · rintro (⟨c, hc, hcloser⟩ | hplain)
      · have hseen' : p.seen = chunk.reverse ++ skipped.reverse := by
          rw [← List.reverse_append, ← hseen, List.reverse_reverse]
        have hne : c ∉ skipped := by
          intro hc
          have hnot := (Assembly.not_mark_of_isBlank (List.all_eq_true.mp hblank c hc)).2.1
          rw [hcloser] at hnot
          contradiction
        rw [hseen'] at hc
        refine .inl ⟨c, ?_, hcloser⟩
        simpa [hne, LinePart.settle, or_comm] using hc
      · exact .inr hplain
    · obtain ⟨code, hcode⟩ := h.code hopen
      rw [hseen] at hcode
      rcases hskipped with rfl | rfl
      · exact ⟨code, by simpa [LinePart.settle] using hcode⟩
      · exact ⟨code ++ skipped, by simpa [LinePart.settle] using hcode⟩

theorem pushCode (h : d.OnLine texts n p older fresh) :
    ∃ older' fresh', (d.pushCode n p.seen.reverse).OnLine texts n p.settle older' fresh' := by
  unfold Draft.pushCode
  by_cases hlast : d.lastLine = some n
  · have hentered : d.enterLine n = d := if_pos (beq_iff_eq.mpr hlast)
    rw [if_pos (beq_iff_eq.mpr hlast), hentered]
    exact ⟨older, h.append hlast (List.nil_append _).symm rfl (.inl rfl)⟩
  · obtain ⟨older', hline⟩ := h.enterLine hlast
    rw [if_neg (by simpa using hlast)]
    refine ⟨older', hline.append (d.lastLine_enterLine n) List.takeWhile_append_dropWhile.symm ?_
      (.inr rfl)⟩
    exact List.all_takeWhile

/-- A literal begins or goes on; its text was read and is still to be appended. -/
theorem beginLiteral (h : d.OnLine texts n p older fresh) (hseen : p.seen = [])
    (chunk : List Char) :
    { d with openLiteral := some (d.openLiteral.getD []) }.OnLine texts n
      ⟨p.live ++ chunk, [], chunk.reverse⟩ older
      fresh := by
  have hcells : ({ d with openLiteral := some (d.openLiteral.getD []) } : Draft).cells =
      d.cells := by simp [Draft.cells]
  have hmeasured := h.measured
  have hlocated := h.located
  have hothers := h.others
  have hcopied := h.copied
  rw [Measured, ← hcells] at hmeasured
  rw [← hcells] at hlocated
  refine ⟨⟨hmeasured, hlocated, h.ascending, h.lines, h.covered⟩,
    fun e he => Nat.le_trans (h.ground e he) ?_, .inl (by simp [isOpen]), ?_, ?_, h.tail,
    fun hnone => by contradiction, h.idle, h.entry⟩
  · have hthere : ({ d with openLiteral := some (d.openLiteral.getD []) } : Draft).ground older =
        if d.width = 0 then 0 else d.width + 1 := rfl
    rw [hthere, Draft.ground]
    by_cases hopen : d.openLiteral.isSome = true
    · rw [if_pos hopen]
    · have hmeasure := h.measured.width_of_none (Option.not_isSome_iff_eq_none.mp hopen)
      have hcut := cellWidth_dropWhile_le older
      rw [h.tail, cellWidth_append] at hmeasure
      rw [if_neg hopen]
      split <;> split <;> omega
  · rw [hcells]
    exact h.others
  · rw [hcells]
    obtain ⟨live, hlive, hcopied⟩ := h.copied
    rw [hseen, List.reverse_nil, List.append_nil] at hlive
    exact ⟨live, by simp [hlive], hcopied⟩

theorem closeLiteral (h : d.OnLine texts n p older fresh) (hseen : p.seen = [])
    (hopen : d.openLiteral.isSome = true) : d.closeLiteral.OnLine texts n p [] [] := by
  obtain ⟨literal, hliteral⟩ := Option.isSome_iff_exists.mp hopen
  have hcells : d.closeLiteral.cells = d.cells := by
    simp [Draft.closeLiteral, Draft.cells, Piece.cells, hliteral]
  have hmeasured : d.closeLiteral.Measured := by
    rw [Measured, hcells, ← h.measured, Draft.closeLiteral, hliteral]
  have hlocated := h.located
  have hothers := h.others
  have hcopied := h.copied
  rw [← hcells] at hlocated hothers hcopied
  have hplain : EndsPlain [] := fun c rest hc => by contradiction
  have hclosed : d.closeLiteral = { d with
      settled := .literal literal.reverse :: .code d.tail.reverse :: d.settled
      tail := []
      openLiteral := none } := by rw [Draft.closeLiteral, hliteral]
  rw [hclosed] at hmeasured hlocated hothers hcopied ⊢
  refine ⟨⟨hmeasured, hlocated, h.ascending, h.lines, h.covered⟩, fun e he => ?_,
    .inr (.inr hplain), hothers, hcopied, rfl, fun _ => ⟨p.code, by simp [hseen]⟩, fun _ => rfl,
    h.entry⟩
  have hmeasure : d.width = _ + 0 := hmeasured.width_of_none rfl
  have hground := h.ground e he
  rw [Draft.ground, if_pos hopen] at hground
  rw [Draft.ground, if_neg (by simp)]
  have hempty : cellWidth [] = 0 := rfl
  rw [List.dropWhile_nil, hempty, ← hmeasure]
  exact hground

theorem pushLiteral (h : d.OnLine texts n p older fresh) (hseen : p.seen = []) (chunk : List Char)
    (continues : Bool) :
    ∃ older' fresh', (d.pushLiteral n chunk continues).OnLine texts n
      (p.literal chunk) older' fresh' := by
  have hline : ∃ older' fresh', (d.enterLine n).OnLine texts n p older' fresh' := by
    by_cases hlast : d.lastLine = some n
    · have hentered : d.enterLine n = d := if_pos (beq_iff_eq.mpr hlast)
      rw [hentered]
      exact ⟨older, fresh, h⟩
    · obtain ⟨older', hline⟩ := h.enterLine hlast
      exact ⟨older', [], hline⟩
  obtain ⟨older', fresh', hline⟩ := hline
  obtain ⟨fresh', hgrown⟩ := (hline.beginLiteral hseen chunk).append (d.lastLine_enterLine n)
    ((List.reverse_reverse chunk).trans (List.nil_append chunk).symm) rfl (.inl rfl)
  unfold Draft.pushLiteral
  cases continues with
  | true => exact ⟨older', fresh', hgrown⟩
  | false => exact ⟨[], [], hgrown.closeLiteral rfl rfl⟩

theorem sublist_texts (h : d.OnLine texts n p older fresh) (hseen : p.seen = [])
    (hlive : p.live.Sublist (texts n)) (m : Nat) : (charsFrom m d.cells).Sublist (texts m) := by
  by_cases hm : m = n
  · obtain ⟨live, hread, hcopied⟩ := h.copied
    rw [hseen, List.reverse_nil, List.append_nil] at hread
    subst hm hread
    exact hcopied.trans hlive
  · exact h.others m hm

/-- At the end of the line. -/
theorem rested (h : d.OnLine texts n p older fresh) (hseen : p.seen = [])
    (hlive : p.live.Sublist (texts n)) (hplain : d.isOpen = true ∨ EndsPlain d.tail) :
    d.Rested texts n := by
  refine ⟨h.toEntered, fun e he => ?_, hplain, h.sublist_texts hseen hlive⟩
  rw [h.tail]
  exact Nat.le_trans (h.ground e he) (d.ground_le_append fresh older)

theorem wait (h : d.OnLine texts n p older fresh) (hseen : p.seen = [])
    (hlive : p.live.Sublist (texts n)) (hwhole : d.withoutContinuation? = none) :
    d.Rested texts n := by
  refine h.rested hseen hlive (.inr fun c before hdrop => ?_)
  intro hc
  rw [withoutContinuation?, hdrop] at hwhole
  simp [hc] at hwhole

/-- Without the backslash that ends the line. -/
theorem resume (h : d.OnLine texts n p older fresh) (hseen : p.seen = [])
    (hlive : p.live.Sublist (texts n)) (hcode : continuesTwice p.code = false)
    (hclosed : d.isOpen = false) {e : Draft} (he : d.withoutContinuation? = some e) :
    e.Rested texts n := by
  have hopen : d.openLiteral = none := by
    rw [isOpen, Bool.or_eq_false_iff] at hclosed
    exact Option.isNone_iff_eq_none.mp (Option.isSome_eq_false_iff.mp hclosed.2)
  have hplain : (∃ c ∈ fresh.map Cell.char, Text.isCloser c = true) ∨ EndsPlain older := by
    rcases h.plain with hisOpen | hplain
    · rw [hclosed] at hisOpen
      contradiction
    · rwa [hseen, List.append_nil] at hplain
  obtain ⟨code, hlast⟩ := h.code hopen
  rw [hseen, List.reverse_nil, List.append_nil] at hlast
  rw [hlast] at hcode
  unfold Draft.withoutContinuation? at he
  split at he
  · contradiction
  · next c before hdrop =>
    split at he
    · next hc =>
      obtain rfl := Option.some.inj he
      have hcut := h.tail ▸ hdrop
      obtain ⟨fresh', hfresh, rfl⟩ := exists_of_cut hplain hcut (beq_iff_eq.mp hc)
      refine ⟨h.toEntered.cut hopen hdrop, fun e he => ?_, .inr ?_, fun m => ?_⟩
      · have hground := Nat.le_trans (h.ground e he) (d.ground_le_append fresh' older)
        rw [Draft.ground, hopen] at hground ⊢
        exact hground
      · exact endsPlain_of_cut hplain hfresh (beq_iff_eq.mp hc) hcode
      · exact (charsFrom_sublist m (cells_cut hopen hdrop _)).trans (h.sublist_texts hseen hlive m)
    · contradiction

end OnLine

end Draft

/-- The characters of a statement were copied from `texts`, each from the line that was
entered last before it. -/
structure Statement.Traced (texts : Nat → List Char) (s : Statement) : Prop where
  located : Located s.lineStarts.toList.reverse s.cells
  ascending : s.lineStarts.toList.Pairwise fun e f => e.1 ≤ f.1 ∧ e.2 < f.2
  lines : ∀ e ∈ s.lineStarts.toList, s.startLine ≤ e.2 ∧ e.2 ≤ s.endLine
  copied : ∀ m, (charsFrom m s.cells).Sublist (texts m)
  span : s.startLine ≤ s.endLine

namespace Draft

variable {texts : Nat → List Char} {n : Nat} {p : LinePart} {older fresh : List Cell} {d : Draft}

theorem OnLine.finish (h : d.OnLine texts n p older fresh) (hseen : p.seen = [])
    (hlive : p.live.Sublist (texts n)) {s : Statement} (hs : d.finish = some s) :
    s.Traced texts := by
  have hentered := h.toEntered.trimCode
  have hcells : d.trimCode.pieces.flatMap Piece.cells = d.trimCode.cells := by
    simp [pieces, cells, Piece.cells]
  unfold Draft.finish at hs
  dsimp only at hs
  split at hs
  · contradiction
  · obtain rfl := Option.some.inj hs
    refine ⟨?_, ?_, ?_, ?_, hentered.covered.1⟩
    · simpa [Statement.cells, hcells] using hentered.located
    · simpa [List.pairwise_reverse] using hentered.ascending
    · simpa using hentered.lines
    · intro m
      rw [Statement.cells, hcells]
      exact (charsFrom_sublist m d.cells_trimCode).trans (h.sublist_texts hseen hlive m)

theorem keptOn_traced {m : Nat} {l : Line} (htext : (liveText l.segments).Sublist (texts l.number))
    (hcode : continuesTwice l.lastCode = false) (hm : m < l.number) :
    KeptOn l (Statement.Traced texts) (Rested texts m) (Rested texts l.number)
      fun p d => ∃ older fresh, d.OnLine texts l.number p older fresh := by
  have hseen := LinePart.seen_segments (r := {}) rfl l.segments
  have hlive : (({} : LinePart).segments l.segments).live.Sublist (texts l.number) := by
    rw [LinePart.live_segments]
    exact htext
  constructor
  case skip => exact fun h => h.mono (Nat.le_of_lt hm)
  case enter => exact fun h hp => ⟨_, [], h.onLine hm hp⟩
  case start => exact fun hp => ⟨[], [], onLine_ofLine texts l hp⟩
  case openBracket =>
    rintro d p c ⟨older, fresh, h⟩ - -
    exact ⟨older, fresh, (h.read c).openBracket⟩
  case closeBracket =>
    rintro d p c ⟨older, fresh, h⟩ - hc
    exact ⟨older, fresh, h.closeBracket hc⟩
  case read =>
    rintro d p c ⟨older, fresh, h⟩ - -
    exact ⟨older, fresh, h.read c⟩
  case pushCode =>
    rintro d p ⟨older, fresh, h⟩ - -
    exact h.pushCode
  case pushLiteral =>
    rintro d p s continues ⟨older, fresh, h⟩ hp - - -
    exact h.pushLiteral hp s.chars continues
  case stay =>
    rintro d ⟨older, fresh, h⟩ hopen
    exact h.rested hseen hlive (.inl hopen)
  case resume =>
    rintro d e ⟨older, fresh, h⟩ hclosed he
    exact h.resume hseen hlive hcode hclosed he
  case wait =>
    rintro d ⟨older, fresh, h⟩ - hwhole
    exact h.wait hseen hlive hwhole
  case finish =>
    rintro d s p ⟨older, fresh, h⟩ hp hprefix hs
    exact h.finish hp (List.Sublist.trans hprefix.sublist htext) hs

end Draft

end EndpointCensus
