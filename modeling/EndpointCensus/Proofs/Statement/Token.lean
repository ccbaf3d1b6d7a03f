import EndpointCensus.Proofs.Statement.Clean
import EndpointCensus.Proofs.Statement.Masking

/-!
Tokens of a statement: the single characters of its code, and its literals as wholes. A literal
that is closed shows its delimiters alone, so whatever else shows in the masked text of a
statement is a character of its code. Its place cuts the tokens in two, and a place that cuts the
tokens lies inside of no literal.
-/

namespace EndpointCensus

/-- A character of code, or a literal with its delimiters. -/
inductive Token where
  | code (c : Char)
  | literal (cs : List Char)
  deriving DecidableEq

/-- A literal that masking shows with its delimiters alone. -/
def Sealed (cs : List Char) : Prop :=
  ∃ q n interior, isDelimiter q = true ∧ 0 < n ∧
    cs = List.replicate n q ++ (interior ++ List.replicate n q) ∧ delimiterLength cs = n

theorem IsClosed.sealed {cs : List Char} (h : IsClosed cs) : Sealed cs := by
  obtain ⟨delimiter, interior, hdelimits, hinterior, rfl⟩ := h
  cases hdelimits with
  | @once q hq =>
    exact ⟨q, 1, interior, hq, Nat.one_pos, rfl, delimiterLength_once (hinterior.head?_ne hq)⟩
  | @thrice q hq =>
    exact ⟨q, 3, interior, isDelimiter_of_isQuote hq, by omega, rfl, delimiterLength_triple hq _⟩

/-! ### Glyphs of a literal -/

section Veil

variable {first last pos : Nat} {cs : List Char}

theorem veilFrom_before (h : pos + Text.width cs ≤ first) :
    veilFrom first last pos cs = cs.map (⟨·, false⟩) := by
  induction cs generalizing pos with
  | nil => rfl
  | cons c cs ih =>
    have hpos := c.utf8Size_pos
    rw [Text.width_cons] at h
    have hshown : (decide (first ≤ pos) && decide (pos < last)) = false := by
      rw [Bool.and_eq_false_iff, decide_eq_false_iff_not]
      exact .inl (by omega)
    rw [veilFrom, hshown, ih (by omega)]
    rfl

theorem veilFrom_inside (hfirst : first ≤ pos) (hlast : pos + Text.width cs ≤ last) :
    veilFrom first last pos cs = cs.map (⟨·, true⟩) := by
  induction cs generalizing pos with
  | nil => rfl
  | cons c cs ih =>
    have hpos := c.utf8Size_pos
    rw [Text.width_cons] at hlast
    have hveiled : (decide (first ≤ pos) && decide (pos < last)) = true := by
      rw [Bool.and_eq_true, decide_eq_true_eq, decide_eq_true_eq]
      omega
    rw [veilFrom, hveiled, ih (by omega) (by omega)]
    rfl

theorem veilFrom_after (h : last ≤ pos) : veilFrom first last pos cs = cs.map (⟨·, false⟩) := by
  induction cs generalizing pos with
  | nil => rfl
  | cons c cs ih =>
    have hshown : (decide (first ≤ pos) && decide (pos < last)) = false := by
      rw [Bool.and_eq_false_iff, decide_eq_false_iff_not (p := pos < last)]
      exact .inr (by omega)
    rw [veilFrom, hshown, ih (by omega)]
    rfl

end Veil

/-- All but its delimiters is veiled. -/
theorem veilLiteral_of_delimiters {q : Char} {n : Nat} {interior : List Char}
    (hq : isDelimiter q = true)
    (hn : delimiterLength (List.replicate n q ++ (interior ++ List.replicate n q)) = n) :
    veilLiteral (List.replicate n q ++ (interior ++ List.replicate n q)) =
      List.replicate n ⟨q, false⟩ ++ (interior.map (⟨·, true⟩) ++ List.replicate n ⟨q, false⟩) := by
  have hwidth := width_replicate_of_isDelimiter hq n
  rw [veilLiteral, hn, veilFrom_append, veilFrom_append, veilFrom_before (by omega),
    veilFrom_inside (by omega) (by simp; omega), veilFrom_after (by simp; omega),
    List.map_replicate]

namespace Sealed

variable {cs : List Char} (h : Sealed cs)

include h

theorem ne_nil : cs ≠ [] := by
  obtain ⟨q, n, interior, -, hpos, rfl, -⟩ := h
  obtain ⟨n, rfl⟩ : ∃ k, n = k + 1 := ⟨n - 1, by omega⟩
  exact List.cons_ne_nil _ _

/-- What shows of a literal at its ends. -/
theorem exists_glyphs : ∃ q gs, isDelimiter q = true ∧ veilLiteral cs = ⟨q, false⟩ :: gs ∧
    (veilLiteral cs).getLast? = some ⟨q, false⟩ := by
  obtain ⟨q, n, interior, hq, hpos, rfl, hn⟩ := h
  obtain ⟨n, rfl⟩ : ∃ k, n = k + 1 := ⟨n - 1, by omega⟩
  refine ⟨q, _, hq, by rw [veilLiteral_of_delimiters hq hn]; rfl, ?_⟩
  rw [veilLiteral_of_delimiters hq hn, List.replicate_succ', ← List.append_assoc,
    ← List.append_assoc, List.getLast?_concat]

/-- Nothing shows of a literal but delimiters and underscores. -/
theorem mem_masked {c : Char} (hc : c ∈ maskedText (veilLiteral cs)) :
    isDelimiter c = true ∨ c = '_' := by
  have hmasked (gs : List Glyph) (hgs : ∀ g ∈ gs, isDelimiter g.char = true ∨ g.veiled = true) :
      ∀ c ∈ maskedText gs, isDelimiter c = true ∨ c = '_' := by
    induction gs with
    | nil => exact fun c hc => absurd hc List.not_mem_nil
    | cons g gs ih =>
      intro c hc
      rcases List.mem_append.mp hc with hc | hc
      · unfold Glyph.shown at hc
        split at hc
        · exact .inr (List.eq_of_mem_replicate hc)
        · next hshown =>
          rw [List.mem_singleton.mp hc]
          exact .inl ((hgs g List.mem_cons_self).resolve_right hshown)
      · exact ih (fun g' hg' => hgs g' (List.mem_cons_of_mem g hg')) c hc
  obtain ⟨q, n, interior, hq, -, rfl, hn⟩ := h
  refine hmasked _ (fun g hg => ?_) c hc
  rw [veilLiteral_of_delimiters hq hn] at hg
  have hends (hg : g ∈ List.replicate n (⟨q, false⟩ : Glyph)) : isDelimiter g.char = true := by
    rw [List.eq_of_mem_replicate hg]
    exact hq
  rcases List.mem_append.mp hg with hg | hg
  · exact .inl (hends hg)
  · rcases List.mem_append.mp hg with hg | hg
    · obtain ⟨d, -, rfl⟩ := List.mem_map.mp hg
      exact .inr rfl
    · exact .inl (hends hg)

end Sealed

/-! ### Tokens -/

namespace Text

theorem dropEndWhile_prefix {α : Type} (p : α → Bool) (xs : List α) : dropEndWhile p xs <+: xs := by
  induction xs with
  | nil => exact List.prefix_rfl
  | cons a xs ih =>
    rw [dropEndWhile]
    split
    · exact List.nil_prefix
    · exact (List.cons_prefix_cons).mpr ⟨rfl, ih⟩

/-- What ends in something else than white space is not shortened. -/
theorem dropEndWhile_append_of_getLast? {α : Type} {p : α → Bool} {xs : List α}
    (h : xs.getLast?.any p = false) (hne : xs ≠ []) (ys : List α) :
    dropEndWhile p (xs ++ ys) = xs ++ dropEndWhile p ys := by
  induction xs with
  | nil => exact absurd rfl hne
  | cons a xs ih =>
    rw [List.cons_append, dropEndWhile]
    cases xs with
    | nil =>
      have ha : p a = false := h
      rw [List.nil_append, ha, Bool.and_false]
      rfl
    | cons b xs =>
      rw [ih (by rwa [List.getLast?_cons_cons] at h) (List.cons_ne_nil b xs)]
      rfl

end Text

namespace Token

def chars : Token → List Char
  | code c => [c]
  | literal cs => cs

def glyphs : Token → List Glyph
  | code c => [⟨c, false⟩]
  | literal cs => veilLiteral cs

/-- White space of code. -/
def isBlank : Token → Bool
  | code c => Text.isBlank c
  | literal _ => false

def textOf (ts : List Token) : List Char := ts.flatMap chars

def glyphsOf (ts : List Token) : List Glyph := ts.flatMap glyphs

def maskedOf (ts : List Token) : List Char := maskedText (glyphsOf ts)

def widthOf (ts : List Token) : Nat := Text.width (textOf ts)

def trim (ts : List Token) : List Token := Text.dropEndWhile isBlank (ts.dropWhile isBlank)

/-- A literal, if it is one, that masking shows with its delimiters alone. -/
def Sealed : Token → Prop
  | code _ => True
  | literal cs => EndpointCensus.Sealed cs

variable {t : Token} {ts xs ys zs : List Token}

@[simp] theorem textOf_nil : textOf [] = [] := rfl

@[simp] theorem textOf_cons (t : Token) (ts : List Token) :
    textOf (t :: ts) = t.chars ++ textOf ts := rfl

@[simp] theorem textOf_append (xs ys : List Token) : textOf (xs ++ ys) = textOf xs ++ textOf ys :=
  List.flatMap_append

@[simp] theorem glyphsOf_nil : glyphsOf [] = [] := rfl

@[simp] theorem glyphsOf_cons (t : Token) (ts : List Token) :
    glyphsOf (t :: ts) = t.glyphs ++ glyphsOf ts := rfl

@[simp] theorem glyphsOf_append (xs ys : List Token) :
    glyphsOf (xs ++ ys) = glyphsOf xs ++ glyphsOf ys :=
  List.flatMap_append

@[simp] theorem maskedOf_nil : maskedOf [] = [] := rfl

@[simp] theorem maskedOf_append (xs ys : List Token) :
    maskedOf (xs ++ ys) = maskedOf xs ++ maskedOf ys := by
  rw [maskedOf, glyphsOf_append, Draft.maskedText_append]
  rfl

theorem maskedOf_cons (t : Token) (ts : List Token) :
    maskedOf (t :: ts) = maskedText t.glyphs ++ maskedOf ts :=
  maskedOf_append [t] ts ▸ by simp [maskedOf]

@[simp] theorem maskedOf_code (c : Char) (ts : List Token) :
    maskedOf (code c :: ts) = c :: maskedOf ts :=
  maskedOf_cons (code c) ts

@[simp] theorem widthOf_nil : widthOf [] = 0 := rfl

@[simp] theorem widthOf_append (xs ys : List Token) :
    widthOf (xs ++ ys) = widthOf xs + widthOf ys := by
  rw [widthOf, textOf_append, Text.width_append]
  rfl

theorem widthOf_cons (t : Token) (ts : List Token) :
    widthOf (t :: ts) = Text.width t.chars + widthOf ts :=
  Text.width_append t.chars (textOf ts)

@[simp] theorem widthOf_code (c : Char) (ts : List Token) :
    widthOf (code c :: ts) = c.utf8Size + widthOf ts :=
  widthOf_cons (code c) ts

theorem plainText_glyphs (t : Token) : plainText t.glyphs = t.chars := by
  cases t with
  | code c => rfl
  | literal cs => exact plainText_veilFrom _ _ _ cs

theorem plainText_glyphsOf (ts : List Token) : plainText (glyphsOf ts) = textOf ts := by
  induction ts with
  | nil => rfl
  | cons t ts ih =>
    rw [glyphsOf_cons, textOf_cons, ← ih, ← plainText_glyphs]
    exact List.map_append

theorem glyphWidth_eq (gs : List Glyph) : glyphWidth gs = Text.width (plainText gs) := by
  induction gs with
  | nil => rfl
  | cons g gs ih =>
    rw [glyphWidth, ih]
    rfl

theorem glyphWidth_glyphsOf (ts : List Token) : glyphWidth (glyphsOf ts) = widthOf ts := by
  rw [glyphWidth_eq, plainText_glyphsOf]
  rfl

@[simp] theorem width_maskedOf (ts : List Token) : Text.width (maskedOf ts) = widthOf ts := by
  rw [maskedOf, width_maskedText, plainText_glyphsOf]
  rfl

/-! ### Places in the masked text -/

/-- What shows and is no delimiter is code. -/
theorem exists_code_of_maskedOf (hts : ∀ t ∈ ts, t.Sealed) {us vs : List Char} {c : Char}
    (h : maskedOf ts = us ++ c :: vs) (hdelimiter : isDelimiter c = false) (hveil : c ≠ '_') :
    ∃ xs ys, ts = xs ++ code c :: ys ∧ maskedOf xs = us ∧ maskedOf ys = vs := by
  induction ts generalizing us with
  | nil => exact absurd h.symm (List.append_ne_nil_of_right_ne_nil _ (List.cons_ne_nil _ _))
  | cons t ts ih =>
    have hrest := fun t' ht' => hts t' (List.mem_cons_of_mem t ht')
    cases t with
    | code d =>
      rw [maskedOf_code] at h
      cases us with
      | nil =>
        obtain ⟨rfl, rfl⟩ := List.cons.inj h
        exact ⟨[], ts, rfl, rfl, rfl⟩
      | cons u us =>
        obtain ⟨rfl, htail⟩ := List.cons.inj h
        obtain ⟨xs, ys, rfl, rfl, rfl⟩ := ih hrest htail
        exact ⟨code d :: xs, ys, rfl, maskedOf_code d xs, rfl⟩
    | literal cs =>
      have hsealed : EndpointCensus.Sealed cs := hts _ List.mem_cons_self
      rw [maskedOf_cons] at h
      rcases List.append_eq_append_iff.mp h with ⟨us', rfl, htail⟩ | ⟨us', hcs, htail⟩
      · obtain ⟨xs, ys, rfl, rfl, rfl⟩ := ih hrest htail
        exact ⟨literal cs :: xs, ys, rfl, maskedOf_cons _ xs, rfl⟩
      · cases us' with
        | nil =>
          obtain ⟨xs, ys, rfl, hxs, rfl⟩ := @ih hrest [] htail.symm
          refine ⟨literal cs :: xs, ys, rfl, ?_, rfl⟩
          rw [maskedOf_cons, hxs, hcs, List.append_nil, List.append_nil]
        | cons u us' =>
          obtain ⟨rfl, -⟩ := List.cons.inj htail
          have hmem : c ∈ maskedText (veilLiteral cs) := by
            rw [show maskedText (veilLiteral cs) = us ++ c :: us' from hcs]
            simp
          rcases hsealed.mem_masked hmem with hc | hc
          · rw [hc] at hdelimiter
            contradiction
          · exact absurd hc hveil

/-! ### White space -/

theorem glyphs_ne_nil (ht : t.Sealed) : t.glyphs ≠ [] := by
  cases t with
  | code c => exact List.cons_ne_nil _ _
  | literal cs =>
    obtain ⟨q, gs, -, hgs, -⟩ := EndpointCensus.Sealed.exists_glyphs ht
    rw [glyphs, hgs]
    exact List.cons_ne_nil _ _

theorem glyphsOf_eq_nil (hts : ∀ t ∈ ts, t.Sealed) : glyphsOf ts = [] ↔ ts = [] := by
  constructor
  · intro h
    cases ts with
    | nil => rfl
    | cons t ts =>
      exact absurd (List.append_eq_nil_iff.mp h).1 (glyphs_ne_nil (hts t List.mem_cons_self))
  · rintro rfl
    rfl

theorem isBlank_delimiter {q : Char} (hq : isDelimiter q = true) :
    Glyph.isBlank ⟨q, false⟩ = false := by
  rw [Glyph.isBlank, isBlank_of_isDelimiter hq]
  rfl

theorem takeWhile_glyphsOf (hts : ∀ t ∈ ts, t.Sealed) :
    (glyphsOf ts).takeWhile Glyph.isBlank = glyphsOf (ts.takeWhile isBlank) := by
  induction ts with
  | nil => rfl
  | cons t ts ih =>
    have hrest := ih fun t' ht' => hts t' (List.mem_cons_of_mem t ht')
    cases t with
    | code c =>
      have hcode : (glyphsOf (code c :: ts)).takeWhile Glyph.isBlank =
          if Text.isBlank c = true then ⟨c, false⟩ :: (glyphsOf ts).takeWhile Glyph.isBlank
            else [] := by
        rw [glyphsOf_cons, glyphs, List.singleton_append, List.takeWhile_cons, Glyph.isBlank]
        rfl
      rw [hcode, hrest, List.takeWhile_cons, isBlank]
      split <;> rfl
    | literal cs =>
      obtain ⟨q, gs, hq, hgs, -⟩ := EndpointCensus.Sealed.exists_glyphs (hts _ List.mem_cons_self)
      rw [glyphsOf_cons, glyphs, hgs, List.cons_append, List.takeWhile_cons, isBlank_delimiter hq]
      rfl

theorem dropWhile_glyphsOf (hts : ∀ t ∈ ts, t.Sealed) :
    (glyphsOf ts).dropWhile Glyph.isBlank = glyphsOf (ts.dropWhile isBlank) := by
  have hglyphs := List.takeWhile_append_dropWhile (p := Glyph.isBlank) (l := glyphsOf ts)
  have htokens := congrArg glyphsOf (List.takeWhile_append_dropWhile (p := isBlank) (l := ts))
  rw [glyphsOf_append, ← takeWhile_glyphsOf hts] at htokens
  exact List.append_cancel_left (hglyphs.trans htokens.symm)

theorem dropEndWhile_glyphsOf (hts : ∀ t ∈ ts, t.Sealed) :
    Text.dropEndWhile Glyph.isBlank (glyphsOf ts) = glyphsOf (Text.dropEndWhile isBlank ts) := by
  induction ts with
  | nil => rfl
  | cons t ts ih =>
    have hts' := fun t' ht' => hts t' (List.mem_cons_of_mem t ht')
    have hrest := ih hts'
    cases t with
    | code c =>
      have hsub : ∀ t ∈ Text.dropEndWhile isBlank ts, t.Sealed :=
        fun t ht => hts' t ((Text.dropEndWhile_prefix _ _).subset ht)
      have hempty : (glyphsOf (Text.dropEndWhile isBlank ts)).isEmpty =
          (Text.dropEndWhile isBlank ts).isEmpty := by
        rw [Bool.eq_iff_iff, List.isEmpty_iff, List.isEmpty_iff, glyphsOf_eq_nil hsub]
      rw [glyphsOf_cons, glyphs, List.singleton_append, Text.dropEndWhile, Text.dropEndWhile, hrest,
        hempty]
      have hblank : Glyph.isBlank ⟨c, false⟩ = isBlank (code c) := rfl
      rw [hblank]
      split <;> rfl
    | literal cs =>
      obtain ⟨q, gs, hq, hgs, hlast⟩ :=
        EndpointCensus.Sealed.exists_glyphs (hts _ List.mem_cons_self)
      have hends : (veilLiteral cs).getLast?.any Glyph.isBlank = false := by
        rw [hlast]
        exact isBlank_delimiter hq
      rw [glyphsOf_cons, glyphs, Text.dropEndWhile_append_of_getLast? hends
        (by rw [hgs]; exact List.cons_ne_nil _ _), hrest, Text.dropEndWhile, isBlank,
        Bool.and_false]
      rfl

end Token

/-! ### Statements -/

/-- A literal is closed, and code has no delimiters. -/
def Token.Clean (language : Language) : Token → Prop
  | code c => language.opensLiteral c = false
  | literal cs => IsClosed cs

theorem Token.Clean.sealed {language : Language} {t : Token} (h : t.Clean language) : t.Sealed := by
  cases t with
  | code => trivial
  | literal => exact IsClosed.sealed h

/-- Byte ranges of the literals among the tokens, the first one starting at `start`. -/
def Token.literalsFrom : Nat → List Token → List (Nat × Nat)
  | _, [] => []
  | start, code c :: ts => literalsFrom (start + c.utf8Size) ts
  | start, literal cs :: ts =>
    (start, start + Text.width cs) :: literalsFrom (start + Text.width cs) ts

theorem Token.mem_literalsFrom {start : Nat} {ts : List Token} {r : Nat × Nat} :
    r ∈ literalsFrom start ts ↔ ∃ xs cs ys, ts = xs ++ literal cs :: ys ∧
      r = (start + widthOf xs, start + widthOf xs + Text.width cs) := by
  induction ts generalizing start with
  | nil =>
    refine ⟨fun h => absurd h List.not_mem_nil, ?_⟩
    rintro ⟨xs, cs, ys, h, -⟩
    exact absurd h.symm (List.append_ne_nil_of_right_ne_nil _ (List.cons_ne_nil _ _))
  | cons t ts ih =>
    have hstep (n : Nat) (hn : Text.width t.chars = n) : r ∈ literalsFrom (start + n) ts ↔
        ∃ xs cs ys, t :: ts = (t :: xs) ++ literal cs :: ys ∧
          r = (start + widthOf (t :: xs), start + widthOf (t :: xs) + Text.width cs) := by
      simp only [ih, widthOf_cons, hn, List.cons_append, List.cons.injEq, true_and, Nat.add_assoc]
    constructor
    · intro h
      cases t with
      | code c =>
        obtain ⟨xs, cs, ys, hts, hr⟩ := (hstep _ rfl).mp (by simpa [literalsFrom, chars] using h)
        exact ⟨_, cs, ys, hts, hr⟩
      | literal ds =>
        rcases List.mem_cons.mp h with rfl | h
        · exact ⟨[], ds, ts, rfl, rfl⟩
        · obtain ⟨xs, cs, ys, hts, hr⟩ := (hstep _ rfl).mp h
          exact ⟨_, cs, ys, hts, hr⟩
    · rintro ⟨xs, cs, ys, hts, hr⟩
      cases xs with
      | nil =>
        obtain ⟨rfl, rfl⟩ := List.cons.inj hts
        exact List.mem_cons.mpr (.inl hr)
      | cons x xs =>
        obtain ⟨rfl, rfl⟩ := List.cons.inj hts
        have h := (hstep _ rfl).mpr ⟨xs, cs, ys, rfl, hr⟩
        cases t with
        | code c => simpa [literalsFrom, chars] using h
        | literal ds => exact List.mem_cons_of_mem _ h

def Piece.tokens : Piece → List Token
  | code cells => cells.map fun c => .code c.char
  | literal cells => [.literal (cells.map Cell.char)]

namespace Piece

theorem glyphsOf_tokens (p : Piece) : Token.glyphsOf p.tokens = p.glyphs := by
  cases p with
  | code cells =>
    induction cells with
    | nil => rfl
    | cons c cells ih => exact congrArg (⟨c.char, false⟩ :: ·) ih
  | literal cells => exact List.append_nil _

theorem textOf_tokens (p : Piece) : Token.textOf p.tokens = p.chars := by
  rw [← Token.plainText_glyphsOf, glyphsOf_tokens, plainText_glyphs]

theorem literalsFrom_tokens (start : Nat) (ps : List Piece) :
    Token.literalsFrom start (ps.flatMap tokens) = literalsFrom start ps := by
  have hcode (cells : List Cell) (start : Nat) (ts : List Token) :
      Token.literalsFrom start ((code cells).tokens ++ ts) =
        Token.literalsFrom (start + Text.width (code cells).chars) ts := by
    induction cells generalizing start with
    | nil => rfl
    | cons c cells ih =>
      refine (ih (start + c.char.utf8Size)).trans ?_
      rw [Nat.add_assoc]
      rfl
  induction ps generalizing start with
  | nil => rfl
  | cons p ps ih =>
    rw [List.flatMap_cons]
    cases p with
    | code cells => rw [hcode, ih, literalsFrom]
    | literal cells => exact congrArg (_ :: ·) (ih _)

end Piece

namespace Statement

variable {s : Statement}

def tokens (s : Statement) : List Token := s.pieces.flatMap Piece.tokens

theorem glyphs_eq (s : Statement) : s.glyphs = Token.glyphsOf s.tokens := by
  rw [glyphs, tokens, Token.glyphsOf, List.flatMap_assoc]
  exact congrArg (s.pieces.flatMap ·) (funext fun p => (Piece.glyphsOf_tokens p).symm)

theorem text_eq_textOf (s : Statement) : s.text = Token.textOf s.tokens := by
  rw [text_eq, tokens, Token.textOf, List.flatMap_assoc]
  exact congrArg (s.pieces.flatMap ·) (funext fun p => (Piece.textOf_tokens p).symm)

/-- The literals of a statement are those among its tokens. -/
theorem mem_literals {r : Nat × Nat} :
    r ∈ s.literals ↔ ∃ xs cs ys, s.tokens = xs ++ .literal cs :: ys ∧
    r = (Token.widthOf xs, Token.widthOf xs + Text.width cs) := by
  rw [literals, ← Piece.literalsFrom_tokens, Token.mem_literalsFrom]
  simp only [Nat.zero_add]
  rfl

theorem Clean.token {language : Language} (h : s.Clean language) :
    ∀ t ∈ s.tokens, t.Clean language := by
  intro t ht
  obtain ⟨p, hp, ht⟩ := List.mem_flatMap.mp ht
  have hclean := h p hp
  cases p with
  | code cells =>
    obtain ⟨c, hc, rfl⟩ := List.mem_map.mp ht
    exact hclean c hc
  | literal cells =>
    obtain rfl := List.mem_singleton.mp ht
    exact hclean

end Statement

end EndpointCensus
