import EndpointCensus.Proofs.Statement.Interior

/-!
A literal that forms a statement is reworded. Up to the line that closes it, assembly holds the
literal and nothing else, and behind it both texts are read alike. A line of the statement that
begins behind the literal on that line is indented as far as the last line of the literal, and this
alone can tell the two texts apart.
-/

namespace EndpointCensus

theorem Statement.Alike.refl {free : Nat → Prop} (s : Statement) :
    Alike free s s := .indent fun _ => rfl

/-- Assemblies that are alike make tables that are. -/
theorem Assembly.Alike.table {free : Nat → Prop} {a a' : Assembly} (h : Alike free a a') :
    List.Forall₂ (Statement.Alike free) a.flushPending.finished.reverse
      a'.flushPending.finished.reverse ∧ a'.flushPending.current.map Draft.startLine =
        a.flushPending.current.map Draft.startLine := by
  rw [flushPending_of_none h.pending.1, flushPending_of_none h.pending.2]
  refine ⟨List.forall₂_reverse_iff.mpr h.finished, ?_⟩
  rcases h.cases_current with ⟨hnone, hnone'⟩ | ⟨d, d', hd, hd', halike⟩
  · rw [hnone, hnone']
  · rw [hd, hd', Option.map_some, Option.map_some, halike.startLine]

/-- What does not close below a line was opened on it or further down. -/
theorem le_of_unclosed {language : Language} {n : Nat} {cs : List Char} {texts : List (List Char)}
    {p : Nat × Unclosed}
    (h : (scanLines language (n + 1) (scanFrom language n { mode := .code } cs).2
      texts).2.unclosed = some p) :
    n ≤ p.1 := by
  have hline := scanFrom_below n language 0 { mode := .code } cs
  have hbelow := scanLines_below n language 1 (scanFrom language 0 { mode := .code } cs).2 texts
  rw [Nat.zero_add, show Cursor.below n { mode := .code } = { mode := .code } from rfl] at hline
  rw [hline, Nat.add_comm n 1, hbelow, Mode.unclosed_below, Option.map_eq_some_iff] at h
  obtain ⟨p, -, rfl⟩ := h
  exact Nat.le_add_left n p.1

variable {q : Char} {earlier line rest later old new : List Char}

/-- A literal that is a whole statement stands in a draft that holds nothing else. -/
theorem LiteralPlace.fresh_draftBefore (p : LiteralPlace q earlier line rest later)
    (h : IsInterior q old)
    (hends : EndsInLiteral q (earlier ++ line ++ (tripleQuote q ++ (old ++ tripleQuote q)))) :
    Draft.Fresh q (draftBefore q earlier line) := by
  obtain ⟨upper, closing, hread⟩ := p.last.exists_read h
  obtain ⟨d, hclosed, hfeed⟩ := hread.closed
  obtain ⟨hunclosed, s, hlast, hs⟩ := hends
  have htable := hread.table
  have hnothing : lineEnding [] [] = ([] : List Char) := rfl
  simp only [List.append_nil, hnothing] at htable hfeed
  have hreadable : (classify .python (earlier ++ line ++
      (tripleQuote q ++ (old ++ tripleQuote q)))).readable = upper ++ [closing] := by
    rw [htable]
    rfl
  have hpending : ((upper.foldl (Assembly.feedLine .python) {}).feedLine .python closing).pending =
      none :=
    (Assembly.onlyScriptsWait_lines .python upper).feedLine closing rfl
  unfold readStatements at hunclosed hlast
  rw [LineTable.assemble_eq, hreadable, List.foldl_append, List.foldl_cons, List.foldl_nil]
    at hunclosed hlast
  dsimp only at hunclosed hlast
  rw [Assembly.flushPending_of_none hpending, hfeed] at hunclosed hlast
  rw [Option.map_eq_none_iff] at hunclosed
  rw [List.getLast?_reverse] at hlast
  exact Assembly.fresh_of_closed hclosed hunclosed hlast hs p.quote

/-! ### Two literals at one place -/

/-- The line closes a literal and is indented otherwise when the literal says something else. -/
def Reindented (closing : Nat) (old new : List Char) (line : Nat) : Prop :=
  line = closing ∧ '\n' ∈ old ∧ indentWidth (lastLine new) ≠ indentWidth (lastLine old)

instance (closing : Nat) (old new : List Char) (line : Nat) :
    Decidable (Reindented closing old new line) :=
  inferInstanceAs (Decidable (_ ∧ _ ∧ _))

namespace LiteralRead

variable {n : Nat} {upper upper' : List Line} {closing closing' : Line}

theorem readable (h : LiteralRead q earlier line rest later old n upper closing) :
    let last := scanFrom .python n { mode := .code } (lineEnding later rest)
    let below := scanLines .python (n + 1) last.2 (physicalLines later.tail)
    (classify .python (earlier ++ line ++
      (tripleQuote q ++ (old ++ (tripleQuote q ++ (rest ++ later)))))).readable =
      if below.2.unclosed.map Prod.fst = some n then upper
      else upper ++ closing :: LineTable.readable ⟨below.1, below.2.unclosed⟩ := by
  intro last below
  rw [h.table]
  exact LineTable.readable_split h.number h.above fun _ hp => le_of_unclosed hp

/-- Where the text is read up to the line that closes the literal, nothing of the literal shows. -/
theorem held (h : LiteralRead q earlier line rest later old n upper closing)
    (h' : LiteralRead q earlier line rest later new n upper' closing')
    (hlines : '\n' ∈ new ↔ '\n' ∈ old) :
    let a := (upper.foldl (Assembly.feedLine .python) {}).flushPending
    let a' := (upper'.foldl (Assembly.feedLine .python) {}).flushPending
    a'.finished = a.finished ∧ a'.current.map Draft.startLine = a.current.map Draft.startLine := by
  have hinside := h.inside
  have hinside' := h'.inside
  by_cases hold : '\n' ∈ old
  · rw [if_pos hold] at hinside
    rw [if_pos (hlines.mpr hold)] at hinside'
    obtain ⟨d, hd, heq⟩ := hinside
    obtain ⟨d', hd', heq'⟩ := hinside'
    have hflush (d : Draft) : ({ assemblyBefore q earlier line with current := some d } :
        Assembly).flushPending = { assemblyBefore q earlier line with current := some d } :=
      Assembly.flushPending_of_none (pending_assemblyBefore q earlier line)
    rw [heq, heq', hflush, hflush]
    refine ⟨rfl, ?_⟩
    rw [Option.map_some, Option.map_some, hd.startLine, hd'.startLine]
  · rw [if_neg hold] at hinside
    rw [if_neg (mt hlines.mp hold)] at hinside'
    rw [hinside, hinside']
    exact ⟨rfl, rfl⟩

theorem near (h : LiteralRead q earlier line rest later old n upper closing)
    (h' : LiteralRead q earlier line rest later new n upper' closing')
    (hlines : '\n' ∈ new ↔ '\n' ∈ old) : closing.Near (Reindented n old new) closing' := by
  refine ⟨by rw [h.number, h'.number], by rw [h.literalOpen, h'.literalOpen], fun hfixed => ?_⟩
  rw [h.indent, h'.indent]
  by_cases hold : '\n' ∈ old
  · rw [if_pos hold, if_pos (hlines.mpr hold)]
    by_contra hne
    exact hfixed ⟨h.number, hold, hne⟩
  · rw [if_neg hold, if_neg (mt hlines.mp hold)]

/-- Behind the literals, assembly is alike. -/
theorem alike (h : LiteralRead q earlier line rest later old n upper closing)
    (h' : LiteralRead q earlier line rest later new n upper' closing')
    (hlines : '\n' ∈ new ↔ '\n' ∈ old) (hq : isQuote q = true)
    (hfresh : Draft.Fresh q (draftBefore q earlier line)) :
    Assembly.Alike (Reindented n old new) ((upper.foldl (Assembly.feedLine .python) {}).feedLine
      .python closing) ((upper'.foldl (Assembly.feedLine .python) {}).feedLine .python closing') := by
  obtain ⟨d, hclosed, hfeed⟩ := h.closed
  obtain ⟨d', hclosed', hfeed'⟩ := h'.closed
  have hstart : Assembly.Alike (Reindented n old new) { assemblyBefore q earlier line
      with current := some d } { assemblyBefore q earlier line with current := some d' } :=
    ⟨List.forall₂_same.mpr fun s _ => .refl s, .some (.hushed hq (hclosed.hushed hfresh hclosed')),
      pending_assemblyBefore q earlier line, pending_assemblyBefore q earlier line⟩
  rw [hfeed, hfeed']
  exact (hstart.feedSegments (h.near h' hlines) _).endLine

end LiteralRead

/-- The statements of a text where a literal says something else. -/
theorem LiteralPlace.readStatements_reworded (p : LiteralPlace q earlier line rest later)
    (hold : IsInterior q old) (hnew : IsInterior q new) (hcount : new.count '\n' = old.count '\n')
    (hends : EndsInLiteral q (earlier ++ line ++ (tripleQuote q ++ (old ++ tripleQuote q)))) :
    let text cs := earlier ++ line ++ (tripleQuote q ++ (cs ++ (tripleQuote q ++ (rest ++ later))))
    let closing := (physicalLines earlier).length + 1 + old.count '\n'
    List.Forall₂ (Statement.Alike (Reindented closing old new))
        (readStatements .python (text old)).statements
        (readStatements .python (text new)).statements ∧
      (readStatements .python (text new)).unclosed = (readStatements .python (text old)).unclosed ∧
      (classify .python (text new)).unterminated = (classify .python (text old)).unterminated := by
  intro text closing
  obtain ⟨upper, l, hread⟩ := p.exists_read hold
  obtain ⟨upper', l', hread'⟩ := p.exists_read hnew
  rw [hcount] at hread'
  have hlines : '\n' ∈ new ↔ '\n' ∈ old := by rw [← List.count_pos_iff, hcount, List.count_pos_iff]
  unfold readStatements
  rw [LineTable.assemble_eq, LineTable.assemble_eq, hread.readable, hread'.readable, hread.table,
    hread'.table]
  refine and_assoc.mp ⟨?_, rfl⟩
  split
  · obtain ⟨hfinished, hcurrent⟩ := hread.held hread' hlines
    dsimp only at hfinished hcurrent ⊢
    rw [hfinished]
    exact ⟨List.forall₂_same.mpr fun s _ => .refl s, hcurrent⟩
  · have halike := hread.alike hread' hlines p.quote (p.fresh_draftBefore hold hends)
    simp only [List.foldl_append, List.foldl_cons]
    exact (halike.foldl_feedLine _).table

end EndpointCensus
