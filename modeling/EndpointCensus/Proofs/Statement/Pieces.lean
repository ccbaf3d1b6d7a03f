import EndpointCensus.Proofs.Text.Place
import EndpointCensus.Statement.Basic

/-!
Where the pieces of a statement stand. The pieces partition the text, so a byte range of a literal
is that of one piece, and a byte is in a literal just if the piece that it stands in is one.
-/

namespace EndpointCensus

namespace Piece

def codeChars : Piece → List Char
  | code cells => cells.map Cell.char
  | literal _ => []

def isLiteral : Piece → Bool
  | code _ => false
  | literal _ => true

def textOf (ps : List Piece) : List Char := ps.flatMap chars

def covers (ranges : List (Nat × Nat)) (offset : Nat) : Bool :=
  ranges.any fun r => r.1 ≤ offset && offset < r.2

theorem textOf_append (ps qs : List Piece) : textOf (ps ++ qs) = textOf ps ++ textOf qs :=
  List.flatMap_append

theorem textOf_cons (p : Piece) (ps : List Piece) : textOf (p :: ps) = p.chars ++ textOf ps := rfl

theorem textOf_concat (ps : List Piece) (p : Piece) :
    textOf (ps ++ [p]) = textOf ps ++ p.chars := by
  rw [textOf_append, textOf_cons]
  exact congrArg (textOf ps ++ ·) (List.append_nil _)

theorem literalsFrom_cons (start : Nat) (p : Piece) (ps : List Piece) :
    literalsFrom start (p :: ps) =
      (if p.isLiteral then [(start, start + Text.width p.chars)] else []) ++
        literalsFrom (start + Text.width p.chars) ps := by
  cases p <;> rfl

/-- The ranges are those of the literals. -/
theorem exists_of_mem_literalsFrom {start : Nat} {ps : List Piece} {r : Nat × Nat}
    (h : r ∈ literalsFrom start ps) :
    ∃ before cells after, ps = before ++ literal cells :: after ∧
      r.1 = start + Text.width (textOf before) ∧ r.2 = r.1 + Text.width (cells.map Cell.char) := by
  induction ps generalizing start with
  | nil => exact absurd h List.not_mem_nil
  | cons p ps ih =>
    rw [literalsFrom_cons] at h
    rcases List.mem_append.mp h with h | h
    · cases p with
      | code cells => exact absurd h List.not_mem_nil
      | literal cells =>
        rw [List.mem_singleton.mp h]
        exact ⟨[], cells, ps, rfl, rfl, rfl⟩
    · obtain ⟨before, cells, after, rfl, hstart, hstop⟩ := ih h
      refine ⟨p :: before, cells, after, rfl, ?_, hstop⟩
      rw [hstart, textOf_cons, Text.width_append, Nat.add_assoc]

theorem mem_literalsFrom (start : Nat) (before : List Piece) (cells : List Cell)
    (after : List Piece) :
    (start + Text.width (textOf before), start + Text.width (textOf before) +
      Text.width (cells.map Cell.char)) ∈
        literalsFrom start (before ++ literal cells :: after) := by
  induction before generalizing start with
  | nil => exact List.mem_cons_self
  | cons p before ih =>
    have hrest := ih (start + Text.width p.chars)
    rw [List.cons_append, literalsFrom_cons, textOf_cons, Text.width_append, ← Nat.add_assoc]
    exact List.mem_append_right _ hrest

theorem le_of_mem_literalsFrom {start : Nat} {ps : List Piece} {r : Nat × Nat}
    (h : r ∈ literalsFrom start ps) : start ≤ r.1 := by
  obtain ⟨before, _, _, _, hstart, _⟩ := exists_of_mem_literalsFrom h
  exact hstart ▸ Nat.le_add_right _ _

theorem pairwise_literalsFrom (start : Nat) (ps : List Piece) :
    (literalsFrom start ps).Pairwise fun r r' => r.2 ≤ r'.1 := by
  induction ps generalizing start with
  | nil => exact .nil
  | cons p ps ih =>
    cases p with
    | code cells => exact ih _
    | literal cells => exact .cons (fun r hr => le_of_mem_literalsFrom hr) (ih _)

theorem covers_of_lt {start offset : Nat} (ps : List Piece) (h : offset < start) :
    covers (literalsFrom start ps) offset = false := by
  refine List.any_eq_false.mpr fun r hr => ?_
  have := le_of_mem_literalsFrom hr
  simp only [Bool.and_eq_true, decide_eq_true_eq]
  omega

/-- A byte is in a literal just if its piece is one. -/
theorem covers_literalsFrom {start offset : Nat} {before after : List Piece} {p : Piece}
    (hlower : start + Text.width (textOf before) ≤ offset)
    (hupper : offset < start + Text.width (textOf before) + Text.width p.chars) :
    covers (literalsFrom start (before ++ p :: after)) offset = p.isLiteral := by
  induction before generalizing start with
  | nil =>
    have hafter := covers_of_lt after hupper
    have hp : covers [(start, start + Text.width p.chars)] offset = true := by
      simpa [covers] using ⟨hlower, hupper⟩
    rw [List.nil_append, literalsFrom_cons]
    cases hliteral : p.isLiteral with
    | false => exact hafter
    | true =>
      unfold covers at hp ⊢
      rw [List.any_append, if_pos rfl, hp, Bool.true_or]
  | cons b before ih =>
    rw [textOf_cons, Text.width_append, ← Nat.add_assoc] at hlower hupper
    have hb : covers (if b.isLiteral then [(start, start + Text.width b.chars)] else []) offset =
        false := by
      split
      · refine List.any_eq_false.mpr fun r hr => ?_
        rw [List.mem_singleton.mp hr]
        simp only [Bool.and_eq_true, decide_eq_true_eq]
        omega
      · rfl
    have hrest := ih hlower hupper
    unfold covers at hb hrest ⊢
    rw [List.cons_append, literalsFrom_cons, List.any_append, hb, Bool.false_or, hrest]

/-- Every character stands in a piece. -/
theorem exists_of_textOf {ps : List Piece} {c : Char} {us vs : List Char}
    (h : textOf ps = us ++ c :: vs) :
    ∃ before p after xs ys, ps = before ++ p :: after ∧ p.chars = xs ++ c :: ys ∧
    us = textOf before ++ xs := by
  induction ps generalizing us with
  | nil => exact absurd h.symm (List.append_ne_nil_of_right_ne_nil _ (List.cons_ne_nil _ _))
  | cons p ps ih =>
    rw [textOf_cons] at h
    rcases List.append_eq_append_iff.mp h with ⟨more, rfl, hmore⟩ | ⟨more, hp, hmore⟩
    · obtain ⟨before, q, after, xs, ys, rfl, hq, rfl⟩ := ih hmore
      exact ⟨p :: before, q, after, xs, ys, rfl, hq, by rw [textOf_cons, List.append_assoc]⟩
    · cases more with
      | nil =>
        obtain ⟨before, q, after, xs, ys, rfl, hq, hnil⟩ :=
          ih (show textOf ps = [] ++ c :: vs from hmore.symm)
        refine ⟨p :: before, q, after, xs, ys, rfl, hq, ?_⟩
        rw [textOf_cons, List.append_assoc, ← hnil, hp, List.append_nil, List.append_nil]
      | cons d more =>
        obtain ⟨rfl, rfl⟩ := List.cons.inj hmore
        exact ⟨[], p, ps, us, more, rfl, hp, rfl⟩

end Piece

namespace Statement

/-- The characters of the text outside of literals. -/
def exposed (s : Statement) : List Char :=
  ((Text.located 0 s.text).filter fun p => !s.inLiteral p.1).map Prod.snd

theorem text_eq (s : Statement) : s.text = Piece.textOf s.pieces := by
  rw [text, cells, List.map_flatMap]
  rfl

theorem inLiteral_eq (s : Statement) (offset : Nat) :
    s.inLiteral offset = Piece.covers s.literals offset := rfl

/-- A character outside of literals is one of the code. -/
theorem exists_code_of_charAt? {s : Statement} {n : Nat} {c : Char}
    (h : Text.charAt? s.text n = some c) (hout : s.inLiteral n = false) :
    ∃ before cells after xs ys, s.pieces = before ++ .code cells :: after ∧
      cells.map Cell.char = xs ++ c :: ys ∧
      n = Text.width (Piece.textOf before) + Text.width xs := by
  obtain ⟨us, vs, htext, rfl⟩ := Text.eq_of_charAt? h
  rw [text_eq] at htext
  obtain ⟨before, p, after, xs, ys, hpieces, hp, rfl⟩ := Piece.exists_of_textOf htext
  have hpos := c.utf8Size_pos
  rw [inLiteral_eq, literals, hpieces, Piece.covers_literalsFrom] at hout
  · cases p with
    | code cells => exact ⟨before, cells, after, xs, ys, hpieces, hp, Text.width_append _ _⟩
    | literal => contradiction
  · rw [Text.width_append]
    omega
  · rw [Text.width_append, hp, Text.width_append, Text.width_cons]
    omega

theorem charAt?_of_code {s : Statement} {before after : List Piece} {cells : List Cell} {c : Char}
    {xs ys : List Char} (hpieces : s.pieces = before ++ .code cells :: after)
    (hcells : cells.map Cell.char = xs ++ c :: ys) :
    let n := Text.width (Piece.textOf before) + Text.width xs
    Text.charAt? s.text n = some c ∧ s.inLiteral n = false := by
  have hpos := c.utf8Size_pos
  have htext : s.text = (Piece.textOf before ++ xs) ++ c :: (ys ++ Piece.textOf after) := by
    rw [text_eq, hpieces, Piece.textOf_append, Piece.textOf_cons,
      show (Piece.code cells).chars = xs ++ c :: ys from hcells]
    simp
  intro n
  refine ⟨?_, ?_⟩
  · rw [htext, show n = Text.width (Piece.textOf before ++ xs) from (Text.width_append _ _).symm,
      Text.charAt?_append]
  · rw [inLiteral_eq, literals, hpieces, Piece.covers_literalsFrom]
    · rfl
    · omega
    · rw [show (Piece.code cells).chars = xs ++ c :: ys from hcells, Text.width_append,
        Text.width_cons]
      omega

/-- What is outside of literals is the code. -/
theorem exposed_eq (s : Statement) : s.exposed = s.pieces.flatMap Piece.codeChars := by
  have hrest (before rest : List Piece) (hpieces : s.pieces = before ++ rest) :
      ((Text.located (Text.width (Piece.textOf before)) (Piece.textOf rest)).filter fun p =>
        !s.inLiteral p.1).map Prod.snd = rest.flatMap Piece.codeChars := by
    induction rest generalizing before with
    | nil => rfl
    | cons p rest ih =>
      have hnext := ih (before ++ [p]) (by rw [hpieces, List.append_assoc]; rfl)
      have hcovers : ∀ q ∈ Text.located (Text.width (Piece.textOf before)) p.chars,
          s.inLiteral q.1 = p.isLiteral := by
        intro q hq
        obtain ⟨hlower, hupper⟩ := Text.bounds_of_mem_located hq
        rw [inLiteral_eq, literals, hpieces]
        exact Piece.covers_literalsFrom (by omega) (by omega)
      have hkept : ((Text.located (Text.width (Piece.textOf before)) p.chars).filter fun q =>
          !s.inLiteral q.1).map Prod.snd = p.codeChars := by
        cases p with
        | code cells =>
          rw [List.filter_eq_self.mpr fun q hq => by rw [hcovers q hq]; rfl]
          exact Text.map_snd_located _ _
        | literal cells =>
          rw [List.filter_eq_nil_iff.mpr fun q hq => by rw [hcovers q hq]; exact Bool.false_ne_true]
          rfl
      rw [Piece.textOf_concat, Text.width_append] at hnext
      rw [Piece.textOf_cons, Text.located_append, List.filter_append, List.map_append, hkept, hnext,
        List.flatMap_cons]
  rw [exposed, text_eq]
  exact hrest [] s.pieces rfl

end Statement

end EndpointCensus
