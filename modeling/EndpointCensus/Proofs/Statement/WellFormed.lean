import EndpointCensus.Proofs.Statement.Balanced
import EndpointCensus.Proofs.Statement.Extent

/-!
Well-formed statements. Every statement that is read from a text has a masked text as long as its
text, literals that stand apart from each other on character boundaries, and code whose brackets are
balanced, outside of which there is no semicolon. The statements cover the lines of the text in
order, before any line on which something is left open.
-/

namespace EndpointCensus

/-! ### Glyphs -/

theorem width_replicate_underscore (n : Nat) : Text.width (List.replicate n '_') = n := by
  have hsize : ('_' : Char).utf8Size = 1 := rfl
  induction n with
  | zero => rfl
  | succ n ih => rw [List.replicate_succ, Text.width_cons, ih, hsize, Nat.add_comm]

theorem width_maskedText (gs : List Glyph) :
    Text.width (maskedText gs) = Text.width (plainText gs) := by
  have hshown (g : Glyph) : Text.width g.shown = g.char.utf8Size := by
    unfold Glyph.shown
    split
    · exact width_replicate_underscore _
    · rfl
  induction gs with
  | nil => rfl
  | cons g gs ih =>
    rw [maskedText, Text.width_append, hshown, ih]
    rfl

theorem plainText_veilFrom (first last pos : Nat) (cs : List Char) :
    plainText (veilFrom first last pos cs) = cs := by
  induction cs generalizing pos with
  | nil => rfl
  | cons c cs ih => exact congrArg (c :: ·) (ih _)

theorem Piece.plainText_glyphs (p : Piece) : plainText p.glyphs = p.chars := by
  cases p with
  | code cells => simp [glyphs, plainText, chars, Piece.cells]
  | literal cells => exact plainText_veilFrom _ _ _ _

/-! ### Statements -/

namespace Statement

structure WellFormed (s : Statement) : Prop where
  /-- Masking keeps byte offsets. -/
  width_masked : Text.width s.masked = Text.width s.text
  nonempty : ∀ r ∈ s.literals, r.1 < r.2
  ordered : s.literals.Pairwise fun r r' => r.2 ≤ r'.1
  inside : ∀ r ∈ s.literals, r.2 ≤ Text.width s.text
  boundaries : ∀ r ∈ s.literals, Text.IsBoundary s.text r.1 ∧ Text.IsBoundary s.text r.2
  /-- The count of brackets outside of literals ends at zero and peaks at the depth of the
  statement, and no semicolon stands where it is zero. -/
  balance : ({} : Balance).read s.exposed = ⟨0, s.maxDepth, 0⟩
  lines : s.startLine ≤ s.endLine

theorem boundaries_of_mem_literals {s : Statement} {r : Nat × Nat} (hr : r ∈ s.literals) :
    Text.IsBoundary s.text r.1 ∧ Text.IsBoundary s.text r.2 := by
  obtain ⟨before, cells, after, hpieces, hstart, hstop⟩ := Piece.exists_of_mem_literalsFrom hr
  have htext : s.text = Piece.textOf before ++ (cells.map Cell.char ++ Piece.textOf after) := by
    rw [text_eq, hpieces, Piece.textOf_append]
    rfl
  rw [Nat.zero_add] at hstart
  refine ⟨⟨_, _, htext, hstart.symm⟩, ⟨_, _, htext.trans (List.append_assoc ..).symm, ?_⟩⟩
  rw [Text.width_append, hstop, hstart]

theorem plainText_glyphs (s : Statement) : plainText s.glyphs = s.text := by
  rw [text_eq, glyphs, plainText, List.map_flatMap, Piece.textOf]
  exact congrArg (s.pieces.flatMap ·) (funext Piece.plainText_glyphs)

theorem Sound.wellFormed {s : Statement} (h : s.Sound) (hlines : s.startLine ≤ s.endLine) :
    s.WellFormed where
  width_masked := by rw [masked, width_maskedText, s.plainText_glyphs]
  nonempty := by
    intro r hr
    obtain ⟨before, cells, after, hpieces, -, hstop⟩ := Piece.exists_of_mem_literalsFrom hr
    have hliteral := h.literals cells (by rw [hpieces]; simp)
    exact hstop ▸ Nat.lt_add_of_pos_right (Text.width_pos hliteral.ne_nil)
  ordered := Piece.pairwise_literalsFrom 0 s.pieces
  inside := by
    intro r hr
    obtain ⟨before, after, htext, hwidth⟩ := (boundaries_of_mem_literals hr).2
    rw [htext, Text.width_append, ← hwidth]
    exact Nat.le_add_right _ _
  boundaries := fun r hr => boundaries_of_mem_literals hr
  balance := by rw [exposed_eq, h.balance]
  lines := hlines

end Statement

/-- Every statement is well formed, ends before the first line on which something is left open for
good, and ends on the line that the next one starts on at the latest. -/
theorem wellFormed_readStatements (language : Language) (cs : List Char) :
    let statements := (readStatements language cs).statements
    (∀ s ∈ statements, s.WellFormed) ∧
      (∀ s ∈ statements, ∀ p, (classify language cs).unterminated = some p → s.endLine < p.1) ∧
      statements.Pairwise fun s t => s.endLine ≤ t.startLine := by
  intro statements
  have horder {m : Nat} (hm : ∀ l ∈ (classify language cs).readable, l.number ≤ m) :=
    inOrder_readStatements language cs hm
  have hlast : ∀ l ∈ (classify language cs).readable, l.number ≤ (physicalLines cs).length := by
    intro l hl
    have := number_lt_of_mem_scanLines ((classify language cs).prefix_lines.subset hl)
    omega
  refine ⟨fun s hs => ?_, fun s hs p hp => ?_, ?_⟩
  · have hextent := (horder hlast).bounds s.extent (List.mem_map_of_mem hs)
    exact (Statement.sound_of_mem_readStatements hs).wellFormed hextent.1
  · have hlimit : ∀ l ∈ (classify language cs).readable, l.number ≤ p.1 - 1 := by
      intro l hl
      rw [LineTable.readable, hp] at hl
      have := decide_eq_true_eq.mp (List.all_eq_true.mp List.all_takeWhile l hl)
      omega
    have hpos := pos_of_unterminated hp
    have hextent := ((horder hlimit).bounds s.extent (List.mem_map_of_mem hs)).2
    exact Nat.lt_of_le_pred hpos hextent
  · exact List.pairwise_map.mp (horder hlast).pairwise

/-- Two statements on one line, above a literal that never closes. -/
theorem wellFormed_readStatements_unclosed :
    let cs := "f(a, [b]); g('c;)')\nx = \"\"\"d\n(e".toList
    (classify .python cs).unterminated = some (2, .literal) ∧
      (readStatements .python cs).statements.map (fun s => (s.maxDepth, s.literals)) =
        [(2, []), (1, [(2, 7)])] ∧
      ∀ s ∈ (readStatements .python cs).statements, s.WellFormed ∧ s.endLine < 2 := by
  intro cs
  have hopen : (classify .python cs).unterminated = some (2, .literal) := by decide +kernel
  obtain ⟨hwell, hbefore, -⟩ := wellFormed_readStatements .python cs
  exact ⟨hopen, by decide +kernel, fun s hs => ⟨hwell s hs, hbefore s hs _ hopen⟩⟩

end EndpointCensus
