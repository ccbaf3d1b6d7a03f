import EndpointCensus.Proofs.Expr.Behind
import EndpointCensus.Proofs.Idiom.UrlTable
import EndpointCensus.Proofs.Statement.Balanced
import EndpointCensus.Proofs.Statement.Veil
import EndpointCensus.Proofs.Statement.WellFormed
import Mathlib.Data.List.Chain

/-!
Slices that cannot fail. Expressions are cut at places of the masked text, and a cut fails where
its place lies beyond the text or within a character of the original. A hidden character stands
behind another one of its literal or behind the delimiter, also in a literal that is left open,
and nothing is cut behind a delimiter. So no expression that is reached from a statement begins
with a hidden character, all its cuts are between characters, and it is what stands at its
offset in the statement.
-/

namespace EndpointCensus

/-! ### Hidden characters -/

namespace Glyph

/-- A hidden character stands behind another one or behind a delimiter. -/
def Guards (g h : Glyph) : Prop := h.veiled = true → g.veiled = true ∨ isDelimiter g.char = true

/-- No hidden character stands first or behind a character other than a delimiter that shows. -/
structure IsGuarded (gs : List Glyph) : Prop where
  first : gs.head?.any Glyph.veiled = false
  chain : gs.IsChain Guards

theorem isGuarded_nil : IsGuarded [] := ⟨rfl, .nil⟩

theorem guards_of_head? {gs : List Glyph} (h : gs.head?.any Glyph.veiled = false) (g : Glyph) :
    ∀ x ∈ gs.head?, Guards g x := by
  intro x hx hveiled
  rw [hx] at h
  exact absurd (hveiled.symm.trans h) (by decide)

namespace IsGuarded

variable {g : Glyph} {gs hs : List Glyph}

theorem append (hgs : IsGuarded gs) (hhs : IsGuarded hs) : IsGuarded (gs ++ hs) where
  first := by
    cases gs with
    | nil => exact hhs.first
    | cons g gs => exact hgs.first
  chain := List.isChain_append.mpr ⟨hgs.chain, hhs.chain, fun g _ => guards_of_head? hhs.first g⟩

theorem flatten {gss : List (List Glyph)} (h : ∀ gs ∈ gss, IsGuarded gs) :
    IsGuarded gss.flatten := by
  induction gss with
  | nil => exact isGuarded_nil
  | cons gs gss ih =>
    obtain ⟨hgs, hgss⟩ := List.forall_mem_cons.mp h
    exact hgs.append (ih hgss)

theorem of_shown (h : ∀ g ∈ gs, g.veiled = false) : IsGuarded gs where
  first := Text.head?_any_of_forall h
  chain := by
    induction gs with
    | nil => exact .nil
    | cons g gs ih =>
      have hrest := (List.forall_mem_cons.mp h).2
      exact List.isChain_append.mpr
        ⟨.singleton g, ih hrest, fun g _ => guards_of_head? (Text.head?_any_of_forall hrest) g⟩

theorem before (h : IsGuarded (gs ++ hs)) : IsGuarded gs where
  first := by
    cases gs with
    | nil => rfl
    | cons g gs => exact h.first
  chain := h.chain.prefix (List.prefix_append gs hs)

theorem behind (h : IsGuarded (gs ++ hs)) (hfirst : hs.head?.any Glyph.veiled = false) :
    IsGuarded hs :=
  ⟨hfirst, h.chain.suffix (List.suffix_append gs hs)⟩

/-- Behind a character that shows and is no delimiter nothing is hidden. -/
theorem tail (h : IsGuarded (g :: gs)) (hdelimiter : isDelimiter g.char = false) :
    IsGuarded gs := by
  refine @behind [g] gs h ?_
  cases gs with
  | nil => rfl
  | cons x gs =>
    cases hveiled : x.veiled with
    | false => exact hveiled
    | true =>
      have hshown : g.veiled = false := h.first
      rcases (List.isChain_cons_cons.mp h.chain).1 hveiled with hg | hg
      · exact absurd (hg.symm.trans hshown) (by decide)
      · exact absurd (hg.symm.trans hdelimiter) (by decide)

end IsGuarded

/-! ### Literals -/

/-- Up to its end the veil has no gap. -/
theorem isChain_veilFrom {first last pos : Nat} (hpos : first ≤ pos) (cs : List Char) :
    (veilFrom first last pos cs).IsChain Guards := by
  induction cs generalizing pos with
  | nil => exact .nil
  | cons c cs ih =>
    have hrest := ih (hpos.trans (Nat.le_add_right pos c.utf8Size))
    cases cs with
    | nil => exact .singleton _
    | cons d cs =>
      refine List.isChain_cons_cons.mpr ⟨fun hveiled => .inl ?_, hrest⟩
      simp only [Bool.and_eq_true, decide_eq_true_eq] at hveiled ⊢
      omega

/-- What the veil begins behind guards it. -/
theorem isGuarded_veilFrom {last : Nat} {ds : List Char} (hds : ∀ d ∈ ds, isDelimiter d = true)
    (hne : ds ≠ []) (cs : List Char) : IsGuarded (veilFrom (Text.width ds) last 0 (ds ++ cs)) := by
  have hfront : ∀ (pos : Nat) (xs : List Char), pos + Text.width xs ≤ Text.width ds →
      veilFrom (Text.width ds) last pos xs = plainGlyphs xs := by
    intro pos xs hle
    induction xs generalizing pos with
    | nil => rfl
    | cons x xs ih =>
      have hx := x.utf8Size_pos
      rw [Text.width_cons] at hle
      rw [veilFrom, ih _ (by omega), decide_eq_false (by omega : ¬Text.width ds ≤ pos)]
      rfl
  rw [veilFrom_append, hfront 0 ds (by omega)]
  have hplain : IsGuarded (plainGlyphs ds) := .of_shown fun g hg => by
    obtain ⟨d, -, rfl⟩ := List.mem_map.mp hg
    rfl
  constructor
  · obtain ⟨d, ds, rfl⟩ := List.exists_cons_of_ne_nil hne
    rfl
  · refine List.isChain_append.mpr ⟨hplain.chain, isChain_veilFrom (by omega) cs,
      fun g hg h _ _ => .inr ?_⟩
    obtain ⟨d, hd, rfl⟩ := List.mem_map.mp (List.mem_of_getLast? hg)
    exact hds d hd

theorem isGuarded_veilLiteral {cs : List Char} (h : IsLiteral cs) : IsGuarded (veilLiteral cs) := by
  have hsingle {q : Char} {rest : List Char} (hq : isDelimiter q = true)
      (hlength : delimiterLength (q :: rest) = 1) : IsGuarded (veilLiteral (q :: rest)) := by
    have hguarded :=
      @isGuarded_veilFrom (Text.width (q :: rest) - 1) [q] (by simpa using hq) (by simp) rest
    rw [Text.width_cons, utf8Size_of_isDelimiter hq] at hguarded
    rwa [veilLiteral, hlength]
  cases h with
  | once hq hlength => exact hsingle hq hlength
  | leftOpen hq hlength => exact hsingle (isDelimiter_of_isQuote hq) hlength
  | @thrice q interior hq =>
    have hdelimiter := isDelimiter_of_isQuote hq
    have hwidth : Text.width (List.replicate 3 q) = 3 := by
      simp [List.replicate, utf8Size_of_isDelimiter hdelimiter]
    rw [veilLiteral, List.append_assoc, delimiterLength_triple hq]
    have hguarded :=
      @isGuarded_veilFrom (Text.width (List.replicate 3 q ++ (interior ++ List.replicate 3 q)) - 3)
        (List.replicate 3 q) (fun d hd => List.eq_of_mem_replicate hd ▸ hdelimiter) (by simp)
      (interior ++ List.replicate 3 q)
    rwa [hwidth] at hguarded

theorem isGuarded_statement {s : Statement} (h : s.Sound) : IsGuarded s.glyphs := by
  rw [Statement.glyphs, List.flatMap]
  refine .flatten fun gs hgs => ?_
  obtain ⟨p, hp, rfl⟩ := List.mem_map.mp hgs
  cases p with
  | code cells =>
    refine .of_shown fun g hg => ?_
    obtain ⟨c, -, rfl⟩ := List.mem_map.mp hg
    rfl
  | literal cells => exact isGuarded_veilLiteral (h.literals cells hp)

/-! ### Edges -/

/-- Byte `n` lies between two glyphs, or at either end, and no hidden one begins there. -/
def IsEdge (gs : List Glyph) (n : Nat) : Prop :=
  ∃ xs ys, gs = xs ++ ys ∧ glyphWidth xs = n ∧ ys.head?.any Glyph.veiled = false

theorem IsEdge.isCut {gs : List Glyph} {n : Nat} (h : IsEdge gs n) : IsCut gs n := by
  obtain ⟨xs, ys, hgs, hwidth, -⟩ := h
  exact ⟨xs, ys, hgs, hwidth⟩

theorem isEdge_width (gs : List Glyph) :
    IsEdge gs (glyphWidth gs) := ⟨gs, [], (List.append_nil gs).symm, rfl, rfl⟩

theorem IsGuarded.isEdge_zero {gs : List Glyph} (h : IsGuarded gs) :
    IsEdge gs 0 := ⟨[], gs, rfl, rfl, h.first⟩

/-- The edges of a character that shows. -/
theorem IsGuarded.isEdge {gs : List Glyph} (h : IsGuarded gs) {us vs : List Char} {c : Char}
    (hmasked : maskedText gs = us ++ c :: vs) (hveil : c ≠ '_')
    (hdelimiter : isDelimiter c = false) :
    IsEdge gs (Text.width us) ∧ IsEdge gs (Text.width us + c.utf8Size) := by
  obtain ⟨xs, ys, rfl, rfl, rfl⟩ := exists_glyph_of_maskedText hmasked hveil
  rw [width_maskedText_eq]
  refine ⟨⟨xs, _, rfl, rfl, rfl⟩, ⟨xs ++ [⟨c, false⟩], ys, by simp, ?_, ?_⟩⟩
  · rw [glyphWidth_append]
    rfl
  · exact ((h.behind rfl).tail hdelimiter).first

theorem IsGuarded.isEdge_bracket {gs : List Glyph} (h : IsGuarded gs) {us vs : List Char} {c : Char}
    (hmasked : maskedText gs = us ++ c :: vs) (hc : Text.isBracket c = true) :
    IsEdge gs (Text.width us) ∧ IsEdge gs (Text.width us + 1) := by
  have hshown : c ≠ '_' ∧ isDelimiter c = false ∧ c.utf8Size = 1 := by
    unfold Text.isBracket Text.isOpener Text.isCloser at hc
    simp only [Bool.or_eq_true, beq_iff_eq] at hc
    rcases hc with ((rfl | rfl) | rfl) | ((rfl | rfl) | rfl) <;> decide
  obtain ⟨hveil, hdelimiter, hsize⟩ := hshown
  rw [← hsize]
  exact h.isEdge hmasked hveil hdelimiter

/-- Separators cut at edges, in order. -/
theorem IsGuarded.splitTopLevel {gs : List Glyph} (h : IsGuarded gs) {sep : Char}
    (hveil : sep ≠ '_') (hdelimiter : isDelimiter sep = false) {start stop : Nat}
    (hstart : IsEdge gs start) (hstop : IsEdge gs stop) :
    ∀ r ∈ Text.splitTopLevel sep (maskedText gs) start stop, IsEdge gs r.1 ∧ IsEdge gs r.2 := by
  obtain ⟨xs, ys, rfl, rfl, hfirst⟩ := hstart
  have hseek : Text.seek 0 (glyphWidth xs) (maskedText (xs ++ ys)) =
      (glyphWidth xs, maskedText ys) := by
    rw [Draft.maskedText_append, ← width_maskedText_eq xs, Text.seek_append, Nat.zero_add]
  unfold Text.splitTopLevel
  rw [hseek]
  refine Text.forall_mem_splitFrom ⟨xs, ys, rfl, rfl, hfirst⟩ hstop fun us vs hys => ?_
  have hmasked : maskedText (xs ++ ys) = (maskedText xs ++ us) ++ sep :: vs := by
    rw [Draft.maskedText_append, hys, List.append_assoc]
  have hedges := h.isEdge hmasked hveil hdelimiter
  rwa [Text.width_append, width_maskedText_eq] at hedges

end Glyph

namespace Text

/-- The bounds of a range are in order. -/
theorem le_of_mem_splitFrom_range {sep : Char} (hsep : sep.utf8Size = 1)
    {stop first pos depth : Nat} {cs : List Char} (hfirst : first ≤ pos) (hstop : first ≤ stop) :
    ∀ r ∈ splitFrom sep stop first pos depth cs, r.1 ≤ r.2 := by
  induction cs generalizing first pos depth with
  | nil => exact fun r hr => (List.mem_singleton.mp hr) ▸ hstop
  | cons c cs ih =>
    unfold splitFrom
    dsimp only
    split
    · exact fun r hr => (List.mem_singleton.mp hr) ▸ hstop
    · split
      · exact ih (by omega) hstop
      · split
        · exact ih (by omega) hstop
        · split
          · next hc =>
            obtain ⟨hc, -⟩ := Bool.and_eq_true_iff.mp hc
            rw [beq_iff_eq.mp hc, hsep]
            intro r hr
            rcases List.mem_cons.mp hr with rfl | hr
            · exact hfirst
            · exact ih (Nat.le_refl _) (by omega) r hr
          · exact ih (by omega) hstop

theorem isBoundary_append (xs ys : List Char) : isBoundary (xs ++ ys) (width xs) = true := by
  induction xs with
  | nil => cases ys <;> rfl
  | cons c xs ih =>
    have hpos := c.utf8Size_pos
    obtain ⟨n, hn⟩ : ∃ n, c.utf8Size + width xs = n + 1 := ⟨c.utf8Size + width xs - 1, by omega⟩
    rw [width_cons, List.cons_append, hn, isBoundary, ← hn, Nat.add_sub_cancel_left, ih]
    · simp
    · exact fun h => by contradiction

end Text

namespace Expr

/-! ### Decoding with checked cuts -/

/-- What is decoded, or the range of bytes where that failed. -/
abbrev Decoding := Except (Nat × Nat)

namespace Checked

/-- What is read in a range of bytes that must be one of the expression. -/
def within {α : Type} (e : Expr) (start stop : Nat) (x : α) : Decoding α :=
  if e.hasRange start stop then .ok x else .error (start, stop)

def slice (e : Expr) (start stop : Nat) : Decoding Expr := within e start stop (e.slice start stop)

def tail (e : Expr) (start : Nat) : Decoding Expr := slice e (min start e.width) e.width

/-- The ranges between separators, where all bytes that are looked at are there. -/
def ranges (e : Expr) (sep : Char) (start stop : Nat) : Decoding (List (Nat × Nat)) :=
  match Text.splitTopLevel? sep e.masked start stop with
  | some rs => .ok rs
  | none => .error (start, stop)

def split (e : Expr) (sep : Char) (start stop : Nat) : Decoding (List Expr) := do
  (← ranges e sep start stop).mapM fun r => slice e r.1 r.2

def toArg (e : Expr) : Decoding Arg :=
  let name := e.masked.takeWhile Text.isAsciiWord
  match name, (e.masked.drop name.length).dropWhile (· == ' ') with
  | c :: _, '=' :: rest =>
    if !Text.isAsciiDigit c && rest.head? != some '=' then do
      let keyword ← within e 0 (Text.width name) (e.chars 0 (Text.width name))
      return ⟨some keyword, ← slice e (e.width - Text.width rest) e.width⟩
    else return ⟨none, e⟩
  | _, _ => return ⟨none, e⟩

def argsIn (e : Expr) (start : Nat) : Decoding (Option Args) :=
  if Text.charAt? e.masked start == some '(' then
    match Text.findMatching e.masked start with
    | some close => do
      let parts ← split e ',' (start + 1) close
      return some ⟨← (parts.filter (!·.isEmpty)).mapM toArg, close + 1⟩
    | none => return none
  else return none

def callPrefix (e : Expr) : Decoding (Option Call) :=
  match callHead? e.masked with
  | some (start, stop, paren) => do
    match ← argsIn e paren with
    | some args => return some ⟨← within e start stop (e.chars start stop), args⟩
    | none => return none
  | none => return none

def items (e : Expr) : Decoding (Option (List Expr)) :=
  match e.masked.head?.bind closerOf?, Text.findMatching e.masked 0 with
  | some closer, some stop =>
    if stop + 1 == e.width && Text.charAt? e.masked stop == some closer then do
      return some ((← split e ',' 1 stop).filter (!·.isEmpty))
    else return none
  | _, _ => return none

def pair (item : Expr) : Decoding (Option (Expr × Expr)) := do
  match ← ranges item ':' 0 item.width with
  | [key, value] => return some (← slice item key.1 key.2, ← slice item value.1 value.2)
  | _ => return none

def dictItems (e : Expr) : Decoding (Option (List (Expr × Expr))) :=
  if e.masked.head? == some '{' then do
    match ← items e with
    | some items => return some ((← items.mapM pair).filterMap id)
    | none => return none
  else return none

end Checked

/-! ### Cuts at edges -/

open Glyph (IsGuarded IsEdge)

variable {e x : Expr}

/-- A part that begins with no hidden character. -/
def GuardedPart (x e : Expr) : Prop := x.Part e ∧ IsGuarded x.glyphs

theorem takeGlyphs_prefix (n : Nat) (gs : List Glyph) : takeGlyphs n gs <+: gs := by
  induction gs generalizing n with
  | nil => cases n <;> exact List.prefix_rfl
  | cons g gs ih =>
    cases n with
    | zero => exact List.nil_prefix
    | succ n =>
      rw [takeGlyphs]
      · exact List.cons_prefix_cons.mpr ⟨rfl, ih _⟩
      · exact fun h => by contradiction

theorem isGuarded_dropWhile {gs : List Glyph} (h : IsGuarded gs) :
    IsGuarded (gs.dropWhile Glyph.isBlank) := by
  induction gs with
  | nil => exact h
  | cons g gs ih =>
    rw [List.dropWhile_cons]
    split
    · next hblank =>
      exact ih (h.tail (isDelimiter_of_isBlank (Bool.and_eq_true_iff.mp hblank).2))
    · exact h

theorem isGuarded_slice (he : IsGuarded e.glyphs) {start : Nat} (hstart : IsEdge e.glyphs start)
    (stop : Nat) : IsGuarded (e.slice start stop).glyphs := by
  obtain ⟨xs, ys, hglyphs, rfl, hfirst⟩ := hstart
  rw [hglyphs] at he
  obtain ⟨more, hmore⟩ := takeGlyphs_prefix (stop - glyphWidth xs) ys
  have hraw : IsGuarded (takeGlyphs (stop - glyphWidth xs) ys) := .before (hmore ▸ he.behind hfirst)
  rw [glyphs_slice, hglyphs, dropGlyphs_append]
  obtain ⟨back, hback⟩ := Text.dropEndWhile_prefix Glyph.isBlank
    ((takeGlyphs (stop - glyphWidth xs) ys).dropWhile Glyph.isBlank)
  exact .before (hback ▸ isGuarded_dropWhile hraw)

theorem isBoundary_of_isCut {n : Nat} (h : Glyph.IsCut e.glyphs n) :
    isBoundary e.text n = true := by
  obtain ⟨xs, ys, hglyphs, rfl⟩ := h
  have htext : e.text = plainText xs ++ plainText ys := by
    rw [text, hglyphs, plainText, List.map_append]
    rfl
  rw [htext, Token.glyphWidth_eq]
  exact Text.isBoundary_append _ _

/-- Between cuts a range can be read. -/
theorem Checked.within_ok {α : Type} {start stop : Nat} (hle : start ≤ stop)
    (hstart : Glyph.IsCut e.glyphs start) (hstop : Glyph.IsCut e.glyphs stop) (x : α) :
    Checked.within e start stop x = .ok x := by
  have hrange : e.hasRange start stop = true := by
    rw [hasRange, isBoundary_of_isCut hstart, isBoundary_of_isCut hstop, decide_eq_true hle]
    rfl
  rw [Checked.within, if_pos hrange]

/-- A slice between edges is cut out, and it is a part that begins with no hidden character. -/
theorem slice_checked (he : IsGuarded e.glyphs) {start stop : Nat} (hle : start ≤ stop)
    (hstart : IsEdge e.glyphs start) (hstop : IsEdge e.glyphs stop) :
    Checked.slice e start stop = .ok (e.slice start stop) ∧ GuardedPart (e.slice start stop) e :=
  ⟨Checked.within_ok hle hstart.isCut hstop.isCut _, (slice_part hstart.isCut hstop.isCut).1,
    isGuarded_slice he hstart stop⟩

theorem ok_bind {α β ε : Type} (x : α) (f : α → Except ε β) : (Except.ok x >>= f) = f x := rfl

theorem mapM_ok {α β ε : Type} {f : α → Except ε β} {g : α → β} {xs : List α}
    (h : ∀ x ∈ xs, f x = .ok (g x)) : xs.mapM f = .ok (xs.map g) := by
  induction xs with
  | nil => rfl
  | cons x xs ih =>
    obtain ⟨hx, hxs⟩ := List.forall_mem_cons.mp h
    rw [List.mapM_cons, hx, ih hxs]
    rfl

theorem Checked.ranges_ok {sep : Char} {start stop : Nat} (hstop : stop ≤ e.width) :
    Checked.ranges e sep start stop = .ok (Text.splitTopLevel sep e.masked start stop) := by
  have hwidth : Text.width e.masked = e.width := width_maskedText_eq e.glyphs
  have hinside : ¬(start < stop && Text.width e.masked < stop) = true := by
    rw [Bool.and_eq_true, decide_eq_true_eq, decide_eq_true_eq, hwidth]
    omega
  rw [Checked.ranges, Text.splitTopLevel?, if_neg hinside]

theorem le_width_of_isEdge {n : Nat} (h : IsEdge e.glyphs n) : n ≤ e.width := by
  obtain ⟨xs, ys, hglyphs, rfl, -⟩ := h
  rw [width, hglyphs, glyphWidth_append]
  exact Nat.le_add_right _ _

/-- A separator is one byte of code. -/
def IsSeparator (sep : Char) : Prop := sep.utf8Size = 1 ∧ sep ≠ '_' ∧ isDelimiter sep = false

instance (sep : Char) : Decidable (IsSeparator sep) :=
  inferInstanceAs (Decidable (sep.utf8Size = 1 ∧ sep ≠ '_' ∧ isDelimiter sep = false))

theorem isSeparator_comma : IsSeparator ',' := by decide

theorem isSeparator_colon : IsSeparator ':' := by decide

/-- The ranges between separators can be cut out. -/
theorem slice_range_checked (he : IsGuarded e.glyphs) {sep : Char} (hsep : IsSeparator sep)
    {start stop : Nat} (hle : start ≤ stop) (hstart : IsEdge e.glyphs start)
    (hstop : IsEdge e.glyphs stop) : ∀ r ∈ Text.splitTopLevel sep e.masked start stop,
      Checked.slice e r.1 r.2 = .ok (e.slice r.1 r.2) ∧ GuardedPart (e.slice r.1 r.2) e := by
  intro r hr
  obtain ⟨hsize, hveil, hdelimiter⟩ := hsep
  obtain ⟨hfirst, hlast⟩ := he.splitTopLevel hveil hdelimiter hstart hstop r hr
  have hle' : r.1 ≤ r.2 := by
    obtain ⟨xs, ys, hglyphs, rfl, -⟩ := hstart
    have hseek : Text.seek 0 (glyphWidth xs) e.masked = (glyphWidth xs, maskedText ys) := by
      rw [masked, hglyphs, Draft.maskedText_append, ← width_maskedText_eq xs, Text.seek_append,
        Nat.zero_add]
    unfold Text.splitTopLevel at hr
    rw [hseek] at hr
    exact Text.le_of_mem_splitFrom_range hsize (Nat.le_refl _) hle r hr
  exact slice_checked he hle' hfirst hlast

theorem split_checked (he : IsGuarded e.glyphs) {sep : Char} (hsep : IsSeparator sep)
    {start stop : Nat} (hle : start ≤ stop) (hstart : IsEdge e.glyphs start)
    (hstop : IsEdge e.glyphs stop) :
    Checked.split e sep start stop = .ok (e.split sep start stop) ∧
    ∀ x ∈ e.split sep start stop, GuardedPart x e := by
  have hranges := slice_range_checked he hsep hle hstart hstop
  refine ⟨?_, fun x hx => ?_⟩
  · rw [Checked.split, Checked.ranges_ok (le_width_of_isEdge hstop)]
    exact mapM_ok fun r hr => (hranges r hr).1
  · obtain ⟨r, hr, rfl⟩ := List.mem_map.mp hx
    exact (hranges r hr).2

/-- What shows without delimiters at the beginning is code. -/
theorem exists_plainGlyphs_of_isGuarded {gs : List Glyph} {xs ys : List Char} (h : IsGuarded gs)
    (hmasked : maskedText gs = xs ++ ys) (hxs : ∀ c ∈ xs, isDelimiter c = false) :
    ∃ hs, gs = plainGlyphs xs ++ hs ∧ maskedText hs = ys := by
  induction xs generalizing gs with
  | nil => exact ⟨gs, rfl, hmasked⟩
  | cons c xs ih =>
    obtain ⟨hc, hxs⟩ := List.forall_mem_cons.mp hxs
    cases gs with
    | nil => contradiction
    | cons g gs =>
      have hshown : g.shown = [g.char] := by
        have hveiled : g.veiled = false := h.first
        rw [Glyph.shown, hveiled]
        rfl
      rw [maskedText, hshown] at hmasked
      obtain ⟨hchar, hrest⟩ := List.cons.inj hmasked
      obtain ⟨hs, rfl, hhs⟩ := ih (h.tail (hchar ▸ hc)) hrest hxs
      have hplain : g = ⟨c, false⟩ := by
        obtain ⟨d, veiled⟩ := g
        exact congr (congrArg Glyph.mk hchar) h.first
      exact ⟨hs, by rw [hplain]; rfl, hhs⟩

theorem isCut_of_isGuarded {gs : List Glyph} {xs ys : List Char} (h : IsGuarded gs)
    (hmasked : maskedText gs = xs ++ ys) (hxs : ∀ c ∈ xs, isDelimiter c = false) :
    Glyph.IsCut gs (Text.width xs) := by
  obtain ⟨hs, rfl, -⟩ := exists_plainGlyphs_of_isGuarded h hmasked hxs
  exact ⟨_, hs, rfl, glyphWidth_plainGlyphs xs⟩

/-- The value of a keyword stands behind an equals sign of the code, and the keyword is code. -/
theorem keyword_checked (he : IsGuarded e.glyphs) {rest : List Char}
    (hafter : (e.masked.drop (e.masked.takeWhile Text.isAsciiWord).length).dropWhile (· == ' ') =
      '=' :: rest) :
    (∀ {α : Type} (x : α), Checked.within e 0 (Text.width (e.masked.takeWhile Text.isAsciiWord)) x =
      .ok x) ∧ Checked.slice e (e.width - Text.width rest) e.width =
        .ok (e.slice (e.width - Text.width rest) e.width) ∧
      GuardedPart (e.slice (e.width - Text.width rest) e.width) e := by
  have hparts := (List.take_append_drop (e.masked.takeWhile Text.isAsciiWord).length e.masked).symm
  have hblanks := List.takeWhile_append_dropWhile (p := (· == ' '))
    (l := e.masked.drop (e.masked.takeWhile Text.isAsciiWord).length)
  rw [hafter] at hblanks
  rw [← hblanks, ← List.append_assoc] at hparts
  have hwidth := congrArg Text.width hparts
  rw [masked, width_maskedText_eq, Text.width_append, Text.width_cons] at hwidth
  have hedge : IsEdge e.glyphs (e.width - Text.width rest) := by
    rw [Expr.width, hwidth, ← Nat.add_assoc, Nat.add_sub_cancel]
    exact (he.isEdge hparts (by decide) (by decide)).2
  refine ⟨fun x => Checked.within_ok (Nat.zero_le _) (Glyph.isCut_zero _) ?_ x,
    slice_checked he (Nat.sub_le _ _) hedge (Glyph.isEdge_width _)⟩
  refine isCut_of_isGuarded he (List.takeWhile_append_dropWhile (p := Text.isAsciiWord)).symm
    fun c hc => ?_
  have hword : Text.isAsciiWord c = true := List.all_eq_true.mp List.all_takeWhile c hc
  exact isDelimiter_of_isNamePart (Text.isNamePart_of_isAsciiWord hword)

theorem toArg_checked (he : IsGuarded e.glyphs) :
    Checked.toArg e = .ok e.toArg ∧ GuardedPart e.toArg.value e := by
  have hself : GuardedPart e e := ⟨.refl e, he⟩
  unfold Checked.toArg
  dsimp only
  split
  · next c name rest hname hafter =>
    obtain ⟨hkeyword, hvalue, hpart⟩ := keyword_checked he hafter
    have hchars (n : Nat) : e.chars 0 n = plainText (takeGlyphs n e.glyphs) := by
      rw [chars, dropGlyphs, Nat.sub_zero]
    have htoArg : e.toArg = if !Text.isAsciiDigit c && rest.head? != some '=' then
        ⟨some (e.chars 0 (Text.width (e.masked.takeWhile Text.isAsciiWord))),
          e.slice (e.width - Text.width rest) e.width⟩
        else ⟨none, e⟩ := by
      unfold toArg
      dsimp only
      rw [hafter, hname, hchars]
      rfl
    rw [htoArg]
    split
    · refine ⟨?_, hpart⟩
      rw [hkeyword, hvalue]
      rfl
    · exact ⟨rfl, hself⟩
  · next hother =>
    have htoArg : e.toArg = ⟨none, e⟩ := by
      unfold toArg
      dsimp only
      split
      · next c name rest hname hafter => exact (hother c name rest hname hafter).elim
      · rfl
    rw [htoArg]
    exact ⟨rfl, hself⟩

/-- What a bracket holds is cut into parts that begin with no hidden character. -/
theorem bracketed_checked (he : IsGuarded e.glyphs) {us vs : List Char} {c : Char} {close : Nat}
    (hmasked : e.masked = us ++ c :: vs) (hc : Text.isOpener c = true)
    (hclose : Text.findMatching e.masked (Text.width us) = some close) :
    Checked.split e ',' (Text.width us + 1) close = .ok (e.split ',' (Text.width us + 1) close) ∧
      (∀ x ∈ e.split ',' (Text.width us + 1) close, GuardedPart x e) ∧
      IsEdge e.glyphs (close + 1) := by
  rw [hmasked, Text.findMatching_append hc] at hclose
  obtain ⟨us', d, vs', rfl, hd, rfl⟩ := Text.exists_closer_of_closingFrom hclose
  have hcloser : e.masked = (us ++ c :: us') ++ d :: vs' := by rw [hmasked]; simp
  have hend : Text.width (us ++ c :: us') = Text.width us + 1 + Text.width us' := by
    rw [Text.width_append, Text.width_cons, Text.utf8Size_of_isOpener hc, Nat.add_assoc]
  obtain ⟨-, hopen⟩ := he.isEdge_bracket hmasked (by rw [Text.isBracket, hc, Bool.true_or])
  obtain ⟨hclosing, hclosed⟩ := he.isEdge_bracket hcloser (by rw [Text.isBracket, hd, Bool.or_true])
  rw [hend] at hclosing hclosed
  obtain ⟨hsplit, hparts⟩ :=
    split_checked he isSeparator_comma (Nat.le_add_right _ _) hopen hclosing
  exact ⟨hsplit, hparts, hclosed⟩

theorem argsIn?_checked (he : IsGuarded e.glyphs) (start : Nat) :
    Checked.argsIn e start = .ok (e.argsIn? e.masked start) ∧
      ∀ args, e.argsIn? e.masked start = some args → (∀ a ∈ args.items, GuardedPart a.value e) ∧
      IsEdge e.glyphs args.stop := by
  unfold Checked.argsIn argsIn?
  split
  · next hparen =>
    obtain ⟨us, vs, hmasked, rfl⟩ := Text.eq_of_charAt? (beq_iff_eq.mp hparen)
    cases hclose : Text.findMatching e.masked (Text.width us) with
    | none => exact ⟨rfl, fun args h => by contradiction⟩
    | some close =>
      obtain ⟨hsplit, hparts, hclosed⟩ := bracketed_checked he hmasked rfl hclose
      have hargs : ∀ x ∈ (e.split ',' (Text.width us + 1) close).filter (!·.isEmpty),
          Checked.toArg x = .ok x.toArg ∧ GuardedPart x.toArg.value e := fun x hx => by
        obtain ⟨hpart, hguarded⟩ := hparts x (List.mem_filter.mp hx).1
        obtain ⟨harg, hvalue, hvalue'⟩ := toArg_checked hguarded
        exact ⟨harg, hvalue.trans hpart, hvalue'⟩
      refine ⟨?_, fun args h => ?_⟩
      · have hitems := mapM_ok fun x hx => (hargs x hx).1
        dsimp only
        rw [hsplit, ok_bind, hitems]
        rfl
      · obtain rfl := Option.some.inj h
        refine ⟨fun a ha => ?_, hclosed⟩
        obtain ⟨x, hx, rfl⟩ := List.mem_map.mp ha
        exact (hargs x hx).2
  · exact ⟨rfl, fun args h => by contradiction⟩

theorem items?_checked (he : IsGuarded e.glyphs) :
    Checked.items e = .ok e.items? ∧ ∀ items, e.items? = some items →
    ∀ x ∈ items, GuardedPart x e := by
  unfold Checked.items items?
  dsimp only
  cases hcloser : e.masked.head?.bind closerOf? with
  | none => exact ⟨rfl, fun items h => by contradiction⟩
  | some closer =>
    cases hstop : Text.findMatching e.masked 0 with
    | none => exact ⟨rfl, fun items h => by contradiction⟩
    | some stop =>
      obtain ⟨c, hhead, hc⟩ := Option.bind_eq_some_iff.mp hcloser
      obtain ⟨vs, hmasked⟩ := List.head?_eq_some_iff.mp hhead
      obtain ⟨hsplit, hparts, -⟩ :=
        @bracketed_checked e he [] vs c stop hmasked (opener_of_closerOf? hc).1 hstop
      rw [Text.width_nil, Nat.zero_add] at hsplit hparts
      dsimp only
      split
      · refine ⟨?_, fun items h x hx => ?_⟩
        · rw [hsplit]
          rfl
        · obtain rfl := Option.some.inj h
          exact hparts x (List.mem_filter.mp hx).1
      · exact ⟨rfl, fun items h => by contradiction⟩

/-- An item that has two parts around a colon. -/
def pairOf? (item : Expr) : Option (Expr × Expr) :=
  match item.split ':' 0 item.width with
  | [key, value] => some (key, value)
  | _ => none

theorem pairOf?_checked (he : IsGuarded e.glyphs) :
    Checked.pair e = .ok e.pairOf? ∧ ∀ key value, e.pairOf? = some (key, value) →
      GuardedPart key e ∧ GuardedPart value e := by
  have hranges :=
    slice_range_checked he isSeparator_colon (Nat.zero_le _) he.isEdge_zero (Glyph.isEdge_width _)
  unfold Checked.pair pairOf?
  rw [Checked.ranges_ok (Nat.le_refl _), ok_bind, split, slices]
  revert hranges
  change (∀ r ∈ Text.splitTopLevel ':' e.masked 0 e.width, _) → _
  generalize Text.splitTopLevel ':' e.masked 0 e.width = ranges
  intro hranges
  rcases ranges with _ | ⟨first, _ | ⟨second, _ | ⟨third, more⟩⟩⟩
  · exact ⟨rfl, fun key value h => by contradiction⟩
  · exact ⟨rfl, fun key value h => by contradiction⟩
  · obtain ⟨hkey, hkey'⟩ := hranges first List.mem_cons_self
    obtain ⟨hvalue, hvalue'⟩ := hranges second (List.mem_cons_of_mem _ List.mem_cons_self)
    refine ⟨?_, fun key value h => ?_⟩
    · dsimp only
      rw [hkey, ok_bind, hvalue]
      rfl
    · obtain ⟨rfl, rfl⟩ := Prod.mk.inj (Option.some.inj h)
      exact ⟨hkey', hvalue'⟩
  · exact ⟨rfl, fun key value h => by contradiction⟩

theorem dictItems?_checked (he : IsGuarded e.glyphs) :
    Checked.dictItems e = .ok e.dictItems? ∧ ∀ entries, e.dictItems? = some entries →
      ∀ r ∈ entries, GuardedPart r.1 e ∧ GuardedPart r.2 e := by
  obtain ⟨hchecked, hparts⟩ := items?_checked he
  have hentries : e.dictItems? = if e.masked.head? == some '{'
      then e.items?.map (·.filterMap pairOf?) else none := rfl
  rw [Checked.dictItems, hentries, hchecked, ok_bind]
  split
  · cases hitems : e.items? with
    | none => exact ⟨rfl, fun entries h => by contradiction⟩
    | some items =>
      have hentry : ∀ item ∈ items, Checked.pair item = .ok item.pairOf? := fun item hitem =>
        (pairOf?_checked (hparts items hitems item hitem).2).1
      refine ⟨?_, fun entries h r hr => ?_⟩
      · dsimp only
        rw [mapM_ok hentry, ok_bind, Option.map_some, List.filterMap_map]
        rfl
      · obtain rfl := Option.some.inj h
        obtain ⟨item, hitem, hr⟩ := List.mem_filterMap.mp hr
        obtain ⟨hpart, hguarded⟩ := hparts items hitems item hitem
        obtain ⟨⟨hkey, hkey'⟩, ⟨hvalue, hvalue'⟩⟩ := (pairOf?_checked hguarded).2 r.1 r.2 hr
        exact ⟨⟨hkey.trans hpart, hkey'⟩, ⟨hvalue.trans hpart, hvalue'⟩⟩
  · exact ⟨rfl, fun entries h => by contradiction⟩

theorem exists_of_namedCall? {cs : List Char} {r : List Char × List Char}
    (h : namedCall? cs = some r) :
    ∃ rest, cs = r.1 ++ rest ∧ ∀ c ∈ r.1, Text.isNamePart c = true ∨ c = '.' := by
  unfold namedCall? at h
  split at h
  · next name rest hdotted =>
    dsimp only at h
    split at h
    · obtain rfl := Option.some.inj h
      exact ⟨rest, Text.eq_of_dottedName? hdotted⟩
    · contradiction
  · contradiction

/-- The name of a call is cut where characters begin, if no delimiter stands in front of it. -/
theorem namedCall?_isCut (he : IsGuarded e.glyphs) {before cs : List Char}
    (hmasked : e.masked = before ++ cs) (hbefore : ∀ c ∈ before, isDelimiter c = false)
    {r : List Char × List Char} (hcall : namedCall? cs = some r) :
    Glyph.IsCut e.glyphs (Text.width e.masked - Text.width cs) ∧
      Glyph.IsCut e.glyphs (Text.width e.masked - Text.width cs + Text.width r.1) := by
  obtain ⟨rest, rfl, hparts⟩ := exists_of_namedCall? hcall
  have hstart : Text.width e.masked - Text.width (r.1 ++ rest) = Text.width before := by
    rw [hmasked, Text.width_append, Nat.add_sub_cancel]
  rw [hstart]
  refine ⟨isCut_of_isGuarded he hmasked hbefore, ?_⟩
  rw [← Text.width_append]
  refine isCut_of_isGuarded he (hmasked.trans (List.append_assoc _ _ _).symm) fun c hc => ?_
  rcases List.mem_append.mp hc with hc | hc
  · exact hbefore c hc
  · rcases hparts c hc with hpart | rfl
    · exact isDelimiter_of_isNamePart hpart
    · rfl

/-- The head of a call is code. -/
theorem callHead?_isCut (he : IsGuarded e.glyphs) {start stop paren : Nat}
    (h : callHead? e.masked = some (start, stop, paren)) :
    start ≤ stop ∧ Glyph.IsCut e.glyphs start ∧ Glyph.IsCut e.glyphs stop := by
  unfold callHead? at h
  dsimp only at h
  rcases Option.or_eq_some_iff.mp h with hnew | ⟨-, hplain⟩
  · obtain ⟨cs, hcs, hcall⟩ := Option.bind_eq_some_iff.mp hnew
    obtain ⟨behind, hbehind, hblanks⟩ := Option.bind_eq_some_iff.mp hcs
    obtain ⟨gap, hblank, rfl, -⟩ := Text.blanks?_eq_some_iff.mp hblanks
    obtain ⟨r, hr, heq⟩ := Option.map_eq_some_iff.mp hcall
    obtain ⟨rfl, hstop⟩ := Prod.mk.inj heq
    obtain ⟨rfl, -⟩ := Prod.mk.inj hstop
    have hmasked : e.masked = ("new".toList ++ gap) ++ cs := by
      rw [Text.after?_eq_some_iff.mp hbehind, List.append_assoc]
    refine ⟨Nat.le_add_right _ _, namedCall?_isCut he hmasked (fun c hc => ?_) hr⟩
    rcases List.mem_append.mp hc with hc | hc
    · have hword : "new".toList.all (!isDelimiter ·) = true := by decide
      simpa using List.all_eq_true.mp hword c hc
    · exact isDelimiter_of_isBlank (hblank.2 c hc)
  · obtain ⟨r, hr, heq⟩ := Option.map_eq_some_iff.mp hplain
    obtain ⟨rfl, hstop⟩ := Prod.mk.inj heq
    obtain ⟨rfl, -⟩ := Prod.mk.inj hstop
    exact ⟨Nat.le_add_right _ _, @namedCall?_isCut _ he [] _ rfl (by simp) _ hr⟩

theorem callPrefix?_checked (he : IsGuarded e.glyphs) :
    Checked.callPrefix e = .ok e.callPrefix? ∧ ∀ call, e.callPrefix? = some call →
      (∀ a ∈ call.args.items, GuardedPart a.value e) ∧ IsEdge e.glyphs call.args.stop := by
  unfold Checked.callPrefix callPrefix?
  dsimp only
  cases hhead : callHead? e.masked with
  | none => exact ⟨rfl, fun call h => by contradiction⟩
  | some r =>
    obtain ⟨start, stop, paren⟩ := r
    obtain ⟨hle, hstart, hstop⟩ := callHead?_isCut he hhead
    obtain ⟨hchecked, hparts⟩ := argsIn?_checked he paren
    dsimp only
    rw [hchecked, ok_bind]
    cases hargs : e.argsIn? e.masked paren with
    | none => exact ⟨rfl, fun call h => by contradiction⟩
    | some args =>
      refine ⟨?_, fun call h => ?_⟩
      · dsimp only
        rw [Checked.within_ok hle hstart hstop]
        rfl
      · obtain rfl := Option.some.inj h
        exact hparts args hargs

theorem tail_checked (he : IsGuarded e.glyphs) {start : Nat} (hstart : IsEdge e.glyphs start) :
    Checked.tail e start = .ok (e.tail start) ∧ GuardedPart (e.tail start) e := by
  rw [Checked.tail, tail, Nat.min_eq_left (le_width_of_isEdge hstart)]
  exact slice_checked he (le_width_of_isEdge hstart) hstart (Glyph.isEdge_width _)

/-! ### Expressions that are reached -/

/-- Decoding arrives at an expression of the statement by any number of steps. -/
inductive Derived (s : Statement) : Expr → Prop
  | whole : Derived s (ofStatement s)
  /-- An argument, positional or with a keyword. -/
  | argument {e : Expr} {call : Call} {a : Arg} {n : Nat} (he : Derived s e)
      (hcall : e.callPrefix? = some call) (ha : call.args.items[n]? = some a) : Derived s a.value
  | item {e x : Expr} {items : List Expr} {n : Nat} (he : Derived s e)
      (hitems : e.items? = some items) (hx : items[n]? = some x) : Derived s x
  | key {e key value : Expr} {entries : List (Expr × Expr)} (he : Derived s e)
      (hentries : e.dictItems? = some entries) (hmem : (key, value) ∈ entries) : Derived s key
  | value {e key value : Expr} {entries : List (Expr × Expr)} (he : Derived s e)
      (hentries : e.dictItems? = some entries) (hmem : (key, value) ∈ entries) : Derived s value
  | tail {e : Expr} {call : Call} (he : Derived s e) (hcall : e.callPrefix? = some call) :
      Derived s (e.tail call.args.stop)

theorem GuardedPart.trans {y : Expr} (hx : GuardedPart x y) (hy : GuardedPart y e) :
    GuardedPart x e :=
  ⟨hx.1.trans hy.1, hx.2⟩

/-- What is reached from a statement is a part of it that begins with no hidden character. -/
theorem Derived.guardedPart {s : Statement} (hs : s.Sound) (h : Derived s x) :
    GuardedPart x (ofStatement s) := by
  induction h with
  | whole => exact ⟨.refl _, Glyph.isGuarded_statement hs⟩
  | argument _ hcall ha ih =>
    exact (((callPrefix?_checked ih.2).2 _ hcall).1 _ (List.mem_of_getElem? ha)).trans ih
  | item _ hitems hx ih =>
    exact ((items?_checked ih.2).2 _ hitems _ (List.mem_of_getElem? hx)).trans ih
  | key _ hentries hmem ih => exact ((dictItems?_checked ih.2).2 _ hentries _ hmem).1.trans ih
  | value _ hentries hmem ih => exact ((dictItems?_checked ih.2).2 _ hentries _ hmem).2.trans ih
  | tail _ hcall ih => exact (tail_checked ih.2 ((callPrefix?_checked ih.2).2 _ hcall).2).2.trans ih

/-- The characters stand in a text at byte `start`. -/
def StandsAt (part whole : List Char) (start : Nat) : Prop :=
  ∃ before after, whole = before ++ (part ++ after) ∧ Text.width before = start

theorem Part.standsAt {s : Statement} (h : x.Part (ofStatement s)) :
    StandsAt x.text s.text x.offset ∧ StandsAt x.masked s.masked x.offset := by
  obtain ⟨before, after, hglyphs, hoffset⟩ := h
  have hstart : x.offset = glyphWidth before := hoffset.trans (Nat.zero_add _)
  have hsplit : s.glyphs = before ++ (x.glyphs ++ after) := hglyphs
  refine ⟨⟨plainText before, plainText after, ?_, ?_⟩, ⟨maskedText before, maskedText after, ?_, ?_⟩⟩
  · rw [← s.plainText_glyphs, hsplit]
    simp [plainText, text]
  · rw [hstart, Token.glyphWidth_eq]
  · rw [Statement.masked, hsplit, Draft.maskedText_append, Draft.maskedText_append]
    rfl
  · rw [hstart, width_maskedText_eq]

/-- No step cuts the expression out of range or within a character; it is as wide in the masked text
as in the original, and it stands at its offset in both. -/
structure DecodesInPlace (s : Statement) (e : Expr) : Prop where
  callPrefix : Checked.callPrefix e = .ok e.callPrefix?
  items : Checked.items e = .ok e.items?
  dictItems : Checked.dictItems e = .ok e.dictItems?
  tail : ∀ call, e.callPrefix? = some call → Checked.tail e call.args.stop =
    .ok (e.tail call.args.stop)
  width_eq : Text.width e.text = Text.width e.masked
  text : StandsAt e.text s.text e.offset
  masked : StandsAt e.masked s.masked e.offset

/-- What is reached from a statement, whatever the text is, is decoded without a
failure and keeps its place. -/
theorem derived_in_place {language : Language} {cs : List Char} {s : Statement}
    (hs : s ∈ (readStatements language cs).statements) (hx : Derived s x) : DecodesInPlace s x := by
  obtain ⟨hpart, hguarded⟩ := hx.guardedPart (Statement.sound_of_mem_readStatements hs)
  obtain ⟨hcall, hcalls⟩ := callPrefix?_checked hguarded
  obtain ⟨htext, hmasked⟩ := hpart.standsAt
  exact ⟨hcall, (items?_checked hguarded).1, (dictItems?_checked hguarded).1,
    fun call h => (tail_checked hguarded (hcalls call h).2).1, (width_maskedText x.glyphs).symm,
    htext, hmasked⟩

/-- An item of the value in a dictionary, before a literal that is left open and closes the
call with its last byte. -/
theorem derived_in_place_item :
    ∃ s ∈ (readStatements .python "f(\x7b'ключ': [1, 'é,']\x7d, k='ж)\n)".toList).statements,
      ∃ x, Derived s x ∧ x.text = "'é,'".toList ∧ x.masked = "'___'".toList ∧ x.offset = 19 ∧
      DecodesInPlace s x := by
  have hread :
      ((readStatements .python "f(\x7b'ключ': [1, 'é,']\x7d, k='ж)\n)".toList).statements.any fun s =>
      decide ((((ofStatement s).callPrefix?.bind fun (call : Call) => call.args.items[0]?).bind
        fun (a : Arg) =>
        (a.value.dictItems?.bind fun (entries : List (Expr × Expr)) => entries[0]?).bind
          fun (r : Expr × Expr) =>
          r.2.items?.bind fun (items : List Expr) => items[1]?).map
            (fun (x : Expr) => (x.text, x.masked, x.offset)) =
        some ("'é,'".toList, "'___'".toList, 19))) = true := by
    decide +kernel
  obtain ⟨s, hs, hsteps⟩ := List.any_eq_true.mp hread
  rw [decide_eq_true_eq] at hsteps
  obtain ⟨x, hx, hlook⟩ := Option.map_eq_some_iff.mp hsteps
  obtain ⟨a, ha, hx⟩ := Option.bind_eq_some_iff.mp hx
  obtain ⟨call, hcall, ha⟩ := Option.bind_eq_some_iff.mp ha
  obtain ⟨r, hr, hx⟩ := Option.bind_eq_some_iff.mp hx
  obtain ⟨entries, hentries, hr⟩ := Option.bind_eq_some_iff.mp hr
  obtain ⟨items, hitems, hx⟩ := Option.bind_eq_some_iff.mp hx
  obtain ⟨htext, hrest⟩ := Prod.mk.inj hlook
  obtain ⟨hmasked, hoffset⟩ := Prod.mk.inj hrest
  have hderived : Derived s x :=
    .item (.value (.argument .whole hcall ha) hentries (List.mem_of_getElem? hr)) hitems hx
  exact ⟨s, hs, x, hderived, htext, hmasked, hoffset, derived_in_place hs hderived⟩

end Expr

end EndpointCensus
