import EndpointCensus.Proofs.Statement.Veil
import EndpointCensus.Proofs.Statement.WellFormed
import EndpointCensus.Proofs.Text.Matching

/-!
What a masked statement shows. Masking changes no byte outside of literals, and inside of them it
leaves delimiters and underscores, but for the last byte of a literal that is left open by its line.
So as long as that byte is no bracket, the brackets of the masked text are those of the code: each
opener has a closer, and the search finds it outside of literals.
-/

namespace EndpointCensus

/-! ### Pieces -/

namespace Piece

def shown (p : Piece) : List Char := maskedText p.glyphs

def shownOf (ps : List Piece) : List Char := ps.flatMap shown

theorem shown_code (cells : List Cell) : (code cells).shown = (code cells).chars := by
  induction cells with
  | nil => rfl
  | cons c cells ih => exact congrArg (c.char :: ·) ih

theorem shownOf_append (ps qs : List Piece) : shownOf (ps ++ qs) = shownOf ps ++ shownOf qs :=
  List.flatMap_append

theorem shownOf_cons (p : Piece) (ps : List Piece) : shownOf (p :: ps) = p.shown ++ shownOf ps :=
  rfl

@[simp] theorem width_shown (p : Piece) : Text.width p.shown = Text.width p.chars := by
  rw [shown, width_maskedText, plainText_glyphs]

@[simp] theorem width_shownOf (ps : List Piece) :
    Text.width (shownOf ps) = Text.width (textOf ps) := by
  induction ps with
  | nil => rfl
  | cons p ps ih =>
    rw [shownOf_cons, textOf_cons, Text.width_append, Text.width_append, width_shown, ih]

end Piece

namespace Statement

theorem masked_eq (s : Statement) : s.masked = Piece.shownOf s.pieces := by
  have hshown (ps : List Piece) : maskedText (ps.flatMap Piece.glyphs) = Piece.shownOf ps := by
    induction ps with
    | nil => rfl
    | cons p ps ih =>
      rw [List.flatMap_cons, Draft.maskedText_append, ih]
      rfl
  exact hshown s.pieces

/-! ### Bytes outside of literals -/

theorem bytes_masked {s : Statement} {n : Nat} (h : s.inLiteral n = false) :
    (Text.bytes s.masked)[n]? = (Text.bytes s.text)[n]? := by
  have hrest (before rest : List Piece) (hpieces : s.pieces = before ++ rest)
      (hn : Text.width (Piece.textOf before) ≤ n) :
      (Text.bytes (Piece.shownOf rest))[n - Text.width (Piece.textOf before)]? =
        (Text.bytes (Piece.textOf rest))[n - Text.width (Piece.textOf before)]? := by
    induction rest generalizing before with
    | nil => rfl
    | cons p rest ih =>
      have hnext := ih (before ++ [p]) (by rw [hpieces, List.append_assoc]; rfl)
      rw [Piece.shownOf_cons, Piece.textOf_cons, Text.bytes_append, Text.bytes_append]
      by_cases hp : n - Text.width (Piece.textOf before) < Text.width p.chars
      · rw [inLiteral_eq, literals, hpieces, Piece.covers_literalsFrom (by omega) (by omega)] at h
        rw [List.getElem?_append_left (by simpa using hp),
          List.getElem?_append_left (by simpa using hp)]
        cases p with
        | code cells => rw [Piece.shown_code]
        | literal => contradiction
      · have hle : Text.width p.chars ≤ n - Text.width (Piece.textOf before) := Nat.le_of_not_lt hp
        rw [List.getElem?_append_right (by simpa using hle),
          List.getElem?_append_right (by simpa using hle)]
        rw [Piece.textOf_concat, Text.width_append, ← Nat.sub_sub] at hnext
        simpa using hnext (by omega)
  rw [masked_eq, text_eq]
  exact hrest [] s.pieces rfl (Nat.zero_le n)

/-! ### Literals -/

/-- The masked text of a literal is that of its piece. -/
theorem exists_literal_of_mem_literals {s : Statement} {r : Nat × Nat} (h : r ∈ s.literals) :
    ∃ cells, Piece.literal cells ∈ s.pieces ∧ Text.slice s.text r = cells.map Cell.char ∧
      Text.slice s.masked r = (Piece.literal cells).shown := by
  obtain ⟨before, cells, after, hpieces, hstart, hstop⟩ := Piece.exists_of_mem_literalsFrom h
  rw [Nat.zero_add] at hstart
  obtain rfl : r = (Text.width (Piece.textOf before),
      Text.width (Piece.textOf before) + Text.width (Piece.literal cells).chars) := by
    refine Prod.ext hstart ?_
    rw [hstop, hstart]
    rfl
  refine ⟨cells, by rw [hpieces]; simp, ?_, ?_⟩
  · rw [text_eq, hpieces, Piece.textOf_append, Piece.textOf_cons, Text.slice_append]
    rfl
  · have hslice := Text.slice_append (Piece.shownOf before) (Piece.literal cells).shown
      (Piece.shownOf after)
    rw [Piece.width_shownOf, Piece.width_shown] at hslice
    rw [masked_eq, hpieces, Piece.shownOf_append, Piece.shownOf_cons, hslice]

/-- The range of a literal. -/
theorem exists_mem_literals_of_literal {s : Statement} {cells : List Cell}
    (h : Piece.literal cells ∈ s.pieces) :
    ∃ r ∈ s.literals, Text.slice s.text r = cells.map Cell.char := by
  obtain ⟨before, after, hpieces⟩ := List.append_of_mem h
  have hmem := Piece.mem_literalsFrom 0 before cells after
  rw [← hpieces, Nat.zero_add] at hmem
  refine ⟨_, hmem, ?_⟩
  rw [text_eq, hpieces, Piece.textOf_append, Piece.textOf_cons]
  exact Text.slice_append _ (cells.map Cell.char) _

/-! ### Brackets -/

/-- No literal ends in a bracket. -/
def EndsInNoBracket (s : Statement) : Prop :=
  ∀ r ∈ s.literals, ∀ c, (Text.slice s.text r).getLast? = some c → Text.isBracket c = false

end Statement

theorem isBracket_of_isDelimiter {q : Char} (h : isDelimiter q = true) :
    Text.isBracket q = false := by
  unfold isDelimiter isQuote at h
  simp only [Bool.or_eq_true, beq_iff_eq] at h
  rcases h with (rfl | rfl) | rfl <;> rfl

/-- Nothing that shows of a literal is a bracket, but for a last one. -/
theorem Veiled.isBracket {cs shown : List Char} (h : Veiled cs shown)
    (hlast : ∀ c, cs.getLast? = some c → Text.isBracket c = false) :
    ∀ c ∈ shown, Text.isBracket c = false := by
  have hquote {q : Char} (hq : isDelimiter q = true) (n : Nat) : ∀ c ∈ List.replicate n q,
      Text.isBracket c = false := by
    intro c hc
    rw [List.eq_of_mem_replicate hc]
    exact isBracket_of_isDelimiter hq
  have hveil (n : Nat) : ∀ c ∈ List.replicate n '_', Text.isBracket c = false := by
    intro c hc
    rw [List.eq_of_mem_replicate hc]
    rfl
  cases h with
  | closed hq =>
    intro c hc
    rcases List.mem_append.mp hc with hc | hc
    · exact hquote hq _ c hc
    · exact (List.mem_append.mp hc).elim (hveil _ c) (hquote hq _ c)
  | quote hq => exact hquote (isDelimiter_of_isQuote hq) 1
  | @leftOpen q d interior hq =>
    intro c hc
    rcases List.mem_cons.mp hc with rfl | hc
    · exact isBracket_of_isDelimiter (isDelimiter_of_isQuote hq)
    · rcases List.mem_append.mp hc with hc | hc
      · exact hveil _ c hc
      · split at hc
        · rw [List.mem_singleton.mp hc]
          exact hlast d (by rw [← List.cons_append, List.getLast?_concat])
        · exact hveil _ c hc

/-- Behind an opener of balanced code the search finds a closer in the code. -/
theorem Piece.exists_closer {ps : List Piece}
    (hquiet : ∀ cells, literal cells ∈ ps → ∀ c ∈ (literal cells).shown, Text.isBracket c = false)
    {b : Balance} {depth : Nat} (hdepth : depth < b.depth)
    (hclosed : (b.read (ps.flatMap codeChars)).depth = 0) (pos : Nat) :
    ∃ before cells after xs c ys, ps = before ++ code cells :: after ∧ cells.map Cell.char =
      xs ++ c :: ys ∧ Text.isCloser c = true ∧
      Text.closingFrom pos (depth + 1) (shownOf ps) =
        some (pos + Text.width (textOf before) + Text.width xs) := by
  induction ps generalizing b depth pos with
  | nil =>
    have hzero : b.depth = 0 := hclosed
    omega
  | cons p ps ih =>
    have hquiet' : ∀ cells, literal cells ∈ ps → ∀ c ∈ (literal cells).shown, Text.isBracket c =
        false :=
      fun cells hcells => hquiet cells (List.mem_cons_of_mem p hcells)
    rw [List.flatMap_cons, Balance.read_append] at hclosed
    cases p with
    | literal cells =>
      obtain ⟨before, code, after, xs, c, ys, rfl, hcode, hc, hfound⟩ :=
        ih hquiet' hdepth hclosed (pos + Text.width (literal cells).shown)
      refine ⟨literal cells :: before, code, after, xs, c, ys, rfl, hcode, hc, ?_⟩
      rw [shownOf_cons, Text.closingFrom_append (hquiet cells List.mem_cons_self), hfound,
        width_shown, textOf_cons, Text.width_append, Nat.add_assoc pos]
    | code cells =>
      have hshown : shownOf (code cells :: ps) = cells.map Cell.char ++ shownOf ps := by
        rw [shownOf_cons, shown_code]
        rfl
      rw [hshown]
      rcases Text.matches_text (cells.map Cell.char) pos depth
        with ⟨xs, c, ys, hcells, hc, hfound⟩ | ⟨depth', hon, hdeeper⟩
      · exact ⟨[], cells, ps, xs, c, ys, rfl, hcells, hc, hfound _⟩
      · obtain ⟨before, code', after, xs, c, ys, rfl, hcode, hc, hfound⟩ :=
          ih hquiet' (hdeeper b hdepth) hclosed (pos + Text.width (cells.map Cell.char))
        refine ⟨code cells :: before, code', after, xs, c, ys, rfl, hcode, hc, ?_⟩
        rw [hon, hfound, textOf_cons, Text.width_append, ← Nat.add_assoc pos]
        rfl

/-- A literal that does not end in a bracket shows none. -/
theorem Statement.Sound.isBracket_shown {s : Statement} (h : s.Sound) (hends : s.EndsInNoBracket)
    {cells : List Cell} (hcells : Piece.literal cells ∈ s.pieces) :
    ∀ c ∈ (Piece.literal cells).shown, Text.isBracket c = false := by
  obtain ⟨r, hr, hslice⟩ := exists_mem_literals_of_literal hcells
  exact (h.literals cells hcells).veiled.isBracket fun c hc => hends r hr c (hslice ▸ hc)

/-- A character of code behind another one stands further on in the same piece or in a later one. -/
theorem Statement.charAt?_of_behind {s : Statement} {before after before' after' : List Piece}
    {front more cells : List Cell} {cell : Cell} {xs ys : List Char} {d : Char}
    (hpieces : s.pieces = before ++ .code (front ++ cell :: more) :: after)
    (hbehind : .code more :: after = before' ++ .code cells :: after')
    (hcells : cells.map Cell.char = xs ++ d :: ys) :
    let offset := Text.width (Piece.textOf before) + Text.width (front.map Cell.char) +
      cell.char.utf8Size + Text.width (Piece.textOf before') + Text.width xs
    Text.charAt? s.text offset = some d ∧ s.inLiteral offset = false := by
  intro offset
  cases before' with
  | nil =>
    obtain ⟨hmore, -⟩ := List.cons.inj hbehind
    obtain rfl : more = cells := Piece.code.inj hmore
    have hchars : (front ++ cell :: more).map Cell.char =
        (front.map Cell.char ++ cell.char :: xs) ++ d :: ys := by
      rw [List.map_append, List.map_cons, hcells, List.append_assoc, List.cons_append]
    have hplace := charAt?_of_code hpieces hchars
    rwa [Text.width_append, Text.width_cons, ← Nat.add_assoc, ← Nat.add_assoc] at hplace
  | cons p before' =>
    obtain ⟨rfl, rfl⟩ := List.cons.inj hbehind
    have hsplit : s.pieces =
        (before ++ .code (front ++ cell :: more) :: before') ++ .code cells :: after' := by
      simpa using hpieces
    have hplace := charAt?_of_code hsplit hcells
    have hoffset : Text.width (Piece.textOf (before ++ .code (front ++ cell :: more) :: before')) =
        Text.width (Piece.textOf before) + Text.width (front.map Cell.char) + cell.char.utf8Size +
          Text.width (Piece.textOf (.code more :: before')) := by
      simp only [Piece.textOf_append, Piece.textOf_cons, Piece.chars, Piece.cells, List.map_append,
        List.map_cons, Text.width_append, Text.width_cons]
      omega
    rwa [hoffset] at hplace

theorem Statement.Sound.findMatching {s : Statement} (h : s.Sound) (hends : s.EndsInNoBracket)
    {start : Nat} {c : Char} (hstart : Text.charAt? s.text start = some c)
    (hopener : Text.isOpener c = true) (hout : s.inLiteral start = false) :
    ∃ stop d, Text.findMatching s.masked start = some stop ∧ Text.charAt? s.text stop = some d ∧
      Text.isCloser d = true ∧ s.inLiteral stop = false := by
  obtain ⟨before, cells, after, xs, ys, hpieces, hcells, rfl⟩ := exists_code_of_charAt? hstart hout
  obtain ⟨front, back, rfl, rfl, hback⟩ := List.map_eq_append_iff.mp hcells
  obtain ⟨cell, more, rfl, rfl, rfl⟩ := List.map_eq_cons_iff.mp hback
  have hquiet : ∀ cells, Piece.literal cells ∈ Piece.code more :: after →
      ∀ c ∈ (Piece.literal cells).shown, Text.isBracket c = false := by
    intro cells hmem
    refine h.isBracket_shown hends ?_
    rw [hpieces]
    rcases List.mem_cons.mp hmem with hmem | hmem
    · contradiction
    · exact List.mem_append_right _ (List.mem_cons_of_mem _ hmem)
  have hdepth : 0 <
      ((({} : Balance).read (before.flatMap Piece.codeChars ++ front.map Cell.char)).step
        cell.char).depth := by
    rw [Balance.step_opener _ hopener]
    exact Nat.succ_pos _
  have hclosed :
      (((({} : Balance).read (before.flatMap Piece.codeChars ++ front.map Cell.char)).step
        cell.char).read ((Piece.code more :: after).flatMap Piece.codeChars)).depth = 0 := by
    have hcount := congrArg Balance.depth h.balance
    rw [hpieces] at hcount
    simpa [Piece.codeChars] using hcount
  obtain ⟨before', cells', after', xs, d, ys, hrest, hcells', hd, hfound⟩ :=
    Piece.exists_closer hquiet hdepth hclosed (Text.width (Piece.textOf before) +
      Text.width (front.map Cell.char) + 1)
  have hmasked : s.masked = (Piece.shownOf before ++ front.map Cell.char) ++
      cell.char :: Piece.shownOf (.code more :: after) := by
    rw [masked_eq, hpieces, Piece.shownOf_append, Piece.shownOf_cons, Piece.shownOf_cons,
      Piece.shown_code, Piece.shown_code]
    simp [Piece.chars, Piece.cells]
  have hmatch := Text.findMatching_append hopener (Piece.shownOf before ++ front.map Cell.char)
    (Piece.shownOf (.code more :: after))
  rw [← hmasked, Text.width_append, Piece.width_shownOf, hfound] at hmatch
  have hplace := charAt?_of_behind hpieces hrest hcells'
  rw [Text.utf8Size_of_isOpener hopener] at hplace
  exact ⟨_, d, hmatch, hplace.1, hd, hplace.2⟩

/-- The masked text of every statement shows the bytes outside of literals and nothing of a literal
but its delimiters and the last byte of one that is left open. Where no literal ends in a bracket,
every opener outside of literals is matched with a closer outside of literals. -/
theorem masked_of_mem_readStatements {language : Language} {cs : List Char} {s : Statement}
    (hs : s ∈ (readStatements language cs).statements) :
    (∀ n, s.inLiteral n = false → (Text.bytes s.masked)[n]? = (Text.bytes s.text)[n]?) ∧
      (∀ r ∈ s.literals, Veiled (Text.slice s.text r) (Text.slice s.masked r)) ∧
      (s.EndsInNoBracket → ∀ start c, Text.charAt? s.text start = some c → Text.isOpener c = true →
        s.inLiteral start = false →
        ∃ stop d, Text.findMatching s.masked start = some stop ∧ Text.charAt? s.text stop = some d ∧
          Text.isCloser d = true ∧ s.inLiteral stop = false) := by
  have hsound := Statement.sound_of_mem_readStatements hs
  refine ⟨fun n hn => Statement.bytes_masked hn, fun r hr => ?_,
    fun hends start c hstart hopener hout =>
    hsound.findMatching hends hstart hopener hout⟩
  obtain ⟨cells, hcells, htext, hmasked⟩ := Statement.exists_literal_of_mem_literals hr
  rw [htext, hmasked]
  exact (hsound.literals cells hcells).veiled

/-- A bracket in a literal is masked, and passed over in the search. -/
theorem masked_of_mem_readStatements_call :
    let cs := "f('(', [a])".toList
    ∃ s ∈ (readStatements .python cs).statements,
      s.EndsInNoBracket ∧ s.masked = "f('_', [a])".toList ∧
      (∀ r ∈ s.literals, Veiled (Text.slice s.text r) (Text.slice s.masked r)) ∧
      ∃ stop d, Text.findMatching s.masked 1 = some stop ∧ Text.charAt? s.text stop = some d ∧
        Text.isCloser d = true ∧ s.inLiteral stop = false := by
  intro cs
  obtain ⟨s, hs, hmasked, htext, hliterals⟩ : ∃ s ∈ (readStatements .python cs).statements,
      s.masked = "f('_', [a])".toList ∧ s.text = cs ∧ s.literals = [(2, 5)] := by decide +kernel
  have hends : s.EndsInNoBracket := by
    intro r hr c hc
    rw [hliterals] at hr
    rw [List.mem_singleton.mp hr, htext] at hc
    rw [← Option.some.inj hc]
    decide
  obtain ⟨-, hveiled, hmatch⟩ := masked_of_mem_readStatements hs
  exact ⟨s, hs, hends, hmasked, hveiled, hmatch hends 1 '(' (by rw [htext]; decide) (by decide)
    (by rw [Statement.inLiteral, hliterals]; decide)⟩

/-- A literal that is left open shows the bracket it ends in, and the search takes
that one for the closer. -/
theorem masked_shows_bracket :
    ∃ s ∈ (readStatements .python "x = f('a)\n)".toList).statements, s.literals = [(6, 9)] ∧
      Text.slice s.text (6, 9) = "'a)".toList ∧ Text.slice s.masked (6, 9) = "'_)".toList ∧
      Text.charAt? s.text 5 = some '(' ∧ s.inLiteral 5 = false ∧
      Text.findMatching s.masked 5 = some 8 ∧ s.inLiteral 8 = true := by
  decide +kernel

end EndpointCensus
