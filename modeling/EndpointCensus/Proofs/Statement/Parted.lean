import EndpointCensus.Proofs.Statement.Below
import EndpointCensus.Proofs.Statement.Entry
import EndpointCensus.Proofs.Statement.Origin
import EndpointCensus.Proofs.Statement.Reading

/-!
A statement with one line more. Two drafts are parted when one of them has entered a further line
where the other has a space: they look the same, and the lines that come after the break stand one
further down. What is done to both, on a line and on the one below it, leaves them parted.
-/

namespace EndpointCensus

/-! ### Looks -/

/-- A piece without the lines its characters were copied from. -/
def Piece.look (p : Piece) : Bool × List Char := (p.isLiteral, p.chars)

namespace Piece

theorem glyphs_of_look (p : Piece) :
    p.glyphs = if p.look.1 then veilLiteral p.look.2 else p.look.2.map fun c => ⟨c, false⟩ := by
  cases p with
  | code cells => simp [glyphs, look, isLiteral, chars, Piece.cells]
  | literal cells => rfl

/-- Pieces that look the same show the same. -/
theorem glyphs_congr {ps qs : List Piece} (h : qs.map look = ps.map look) :
    qs.flatMap glyphs = ps.flatMap glyphs := by
  have hmap (rs : List Piece) : rs.flatMap glyphs =
      (rs.map look).flatMap fun x => if x.1 then veilLiteral x.2 else x.2.map fun c =>
        ⟨c, false⟩ := by
    rw [List.flatMap_map]
    congr 1
    funext p
    exact p.glyphs_of_look
  rw [hmap, hmap, h]

theorem textOf_congr {ps qs : List Piece} (h : qs.map look = ps.map look) :
    textOf qs = textOf ps := by
  have hmap (rs : List Piece) : textOf rs = (rs.map look).flatMap Prod.snd := by
    rw [List.flatMap_map]
    rfl
  rw [hmap, hmap, h]

theorem literalsFrom_congr {ps qs : List Piece} (h : qs.map look = ps.map look) (start : Nat) :
    literalsFrom start qs = literalsFrom start ps := by
  induction ps generalizing qs start with
  | nil =>
    obtain rfl := List.map_eq_nil_iff.mp h
    rfl
  | cons p ps ih =>
    obtain ⟨q, qs, rfl, hlook, hrest⟩ := List.map_eq_cons_iff.mp h
    rw [look, look, Prod.mk.injEq] at hlook
    rw [literalsFrom_cons, literalsFrom_cons, hlook.1, hlook.2, ih hrest]

end Piece

/-- Entries of a statement that is broken on line `n` behind `offset` bytes. -/
def PartedEntries (offset n : Nat) (entries entries' : List (Nat × Nat)) : Prop :=
  ∃ later start earlier, entries = later ++ (start, n) :: earlier ∧
    entries' = later.map (fun e => (e.1, e.2 + 1)) ++ (offset, n + 1) :: (start, n) :: earlier

/-! ### Drafts -/

namespace Draft

/-- The drafts look the same, but the second one entered line `n + 1` at `offset`. -/
structure Parted (offset n : Nat) (d d' : Draft) : Prop where
  begins : d.startLine ≤ n
  startLine : d'.startLine = d.startLine
  endLine : d'.endLine = d.endLine + 1
  indent : d'.indent = d.indent
  settled : d'.settled.map Piece.look = d.settled.map Piece.look
  tail : d'.tail.map Cell.char = d.tail.map Cell.char
  openLiteral : d'.openLiteral.map (List.map Cell.char) = d.openLiteral.map (List.map Cell.char)
  width : d'.width = d.width
  depth : d'.depth = d.depth
  maxDepth : d'.maxDepth = d.maxDepth
  lineStarts : PartedEntries offset n d.lineStarts d'.lineStarts

variable {offset n : Nat} {d d' : Draft}

theorem cellWidth_congr {xs ys : List Cell} (h : ys.map Cell.char = xs.map Cell.char) :
    cellWidth ys = cellWidth xs := by
  rw [cellWidth, cellWidth, h]

theorem takeWhile_congr {xs ys : List Cell} (h : ys.map Cell.char = xs.map Cell.char) :
    (ys.takeWhile Cell.isBlank).map Cell.char = (xs.takeWhile Cell.isBlank).map Cell.char := by
  have hmap (zs : List Cell) : (zs.takeWhile Cell.isBlank).map Cell.char =
      (zs.map Cell.char).takeWhile Text.isBlank :=
    List.takeWhile_map.symm
  rw [hmap, hmap, h]

theorem dropWhile_congr {xs ys : List Cell} (h : ys.map Cell.char = xs.map Cell.char) :
    (ys.dropWhile Cell.isBlank).map Cell.char = (xs.dropWhile Cell.isBlank).map Cell.char := by
  rw [map_char_dropWhile, map_char_dropWhile, h]

namespace Parted

theorem cases_openLiteral (h : d.Parted offset n d') :
    (d.openLiteral = none ∧ d'.openLiteral = none) ∨
      ∃ cs cs', d.openLiteral = some cs ∧ d'.openLiteral = some cs' ∧
      cs'.map Cell.char = cs.map Cell.char := by
  have hopen := h.openLiteral
  cases hd : d.openLiteral with
  | none =>
    rw [hd, Option.map_none, Option.map_eq_none_iff] at hopen
    exact .inl ⟨rfl, hopen⟩
  | some cs =>
    rw [hd, Option.map_some, Option.map_eq_some_iff] at hopen
    obtain ⟨cs', hcs', hchars⟩ := hopen
    exact .inr ⟨cs, cs', rfl, hcs', hchars⟩

theorem append (h : d.Parted offset n d') (cells cells' : List Cell)
    (hcells : cells'.map Cell.char = cells.map Cell.char) :
    (d.append cells).Parted offset n (d'.append cells') := by
  have hwidth : d'.width + cellWidth cells' = d.width + cellWidth cells := by
    rw [h.width, cellWidth_congr hcells]
  rcases h.cases_openLiteral with ⟨hnone, hnone'⟩ | ⟨cs, cs', hsome, hsome', hchars⟩
  · rw [append_of_none hnone, append_of_none hnone']
    exact { h with tail := by simp [hcells, h.tail], width := hwidth }
  · rw [append_of_some hsome, append_of_some hsome']
    exact { h with openLiteral := by simp [hcells, hchars], width := hwidth }

theorem trimCode (h : d.Parted offset n d') : d.trimCode.Parted offset n d'.trimCode := by
  unfold Draft.trimCode
  rcases h.cases_openLiteral with ⟨hnone, hnone'⟩ | ⟨cs, cs', hsome, hsome', -⟩
  · rw [hnone, hnone']
    have hwidth : d'.width - cellWidth (d'.tail.takeWhile Cell.isBlank) =
        d.width - cellWidth (d.tail.takeWhile Cell.isBlank) := by
      rw [h.width, cellWidth_congr (takeWhile_congr h.tail)]
    dsimp only
    exact { h with tail := dropWhile_congr h.tail, openLiteral := rfl, width := hwidth }
  · rw [hsome, hsome']
    exact h

theorem lastLine (h : d.Parted offset n d') (line : Nat) :
    (d'.lastLine == some (line + 1)) = (d.lastLine == some line) := by
  obtain ⟨later, start, earlier, hentries, hentries'⟩ := h.lineStarts
  unfold Draft.lastLine
  rw [hentries, hentries']
  cases later with
  | nil => simp
  | cons e later => simp

/-- The one enters a line where the other enters the line below. -/
theorem enterLine (h : d.Parted offset n d') (line : Nat) :
    (d.enterLine line).Parted offset n (d'.enterLine (line + 1)) := by
  have hstart {e e' : Draft} (he : e.Parted offset n e') :
      ({ e with lineStarts := (e.width, line) :: e.lineStarts, endLine := line } : Draft).Parted offset n
        { e' with lineStarts := (e'.width, line + 1) :: e'.lineStarts, endLine := line + 1 } := by
    obtain ⟨later, start, earlier, hentries, hentries'⟩ := he.lineStarts
    refine { he with
      endLine := rfl, lineStarts := ⟨(e.width, line) :: later, start, earlier, ?_, ?_⟩ }
    · rw [hentries, List.cons_append]
    · rw [hentries', he.width, List.map_cons, List.cons_append]
  unfold Draft.enterLine
  rw [h.lastLine, h.width]
  split
  · exact h
  · apply hstart
    split
    · exact h
    · exact h.trimCode.append _ _ rfl

theorem pushCode (h : d.Parted offset n d') (line : Nat) (chunk : List Char) :
    (d.pushCode line chunk).Parted offset n (d'.pushCode (line + 1) chunk) := by
  unfold Draft.pushCode
  rw [h.lastLine]
  apply (h.enterLine line).append
  rw [map_char_cellsOf, map_char_cellsOf]

theorem closeLiteral (h : d.Parted offset n d') :
    d.closeLiteral.Parted offset n d'.closeLiteral := by
  unfold Draft.closeLiteral
  rcases h.cases_openLiteral with ⟨hnone, hnone'⟩ | ⟨cs, cs', hsome, hsome', hchars⟩
  · rw [hnone, hnone']
    exact h
  · rw [hsome, hsome']
    refine { h with settled := ?_, tail := rfl, openLiteral := rfl }
    simp [Piece.look, Piece.isLiteral, Piece.chars, Piece.cells, hchars, h.tail, h.settled]

theorem pushLiteral (h : d.Parted offset n d') (line : Nat) (chunk : List Char) (continues : Bool) :
    (d.pushLiteral line chunk continues).Parted offset n
      (d'.pushLiteral (line + 1) chunk continues) := by
  have hgrown {e e' : Draft} (he : e.Parted offset n e') :
      ({ e with openLiteral := some (e.openLiteral.getD []) } : Draft).Parted offset n
        { e' with openLiteral := some (e'.openLiteral.getD []) } := by
    refine { he with openLiteral := ?_ }
    rcases he.cases_openLiteral with ⟨hnone, hnone'⟩ | ⟨cs, cs', hsome, hsome', hchars⟩
    · rw [hnone, hnone']
    · rw [hsome, hsome']
      simp [hchars]
  have hpushed := (hgrown (h.enterLine line)).append (cellsOf line chunk) (cellsOf (line + 1) chunk)
    (by rw [map_char_cellsOf, map_char_cellsOf])
  unfold Draft.pushLiteral
  dsimp only
  split
  · exact hpushed
  · exact hpushed.closeLiteral

theorem openBracket (h : d.Parted offset n d') : d.openBracket.Parted offset n d'.openBracket :=
  { h with
    depth := congrArg (· + 1) h.depth
    maxDepth := by simp [Draft.openBracket, h.depth, h.maxDepth] }

theorem closeBracket (h : d.Parted offset n d') : d.closeBracket.Parted offset n d'.closeBracket :=
  { h with depth := congrArg (· - 1) h.depth }

theorem isOpen (h : d.Parted offset n d') : d'.isOpen = d.isOpen := by
  have hopen := congrArg Option.isSome h.openLiteral
  simp only [Option.isSome_map] at hopen
  rw [Draft.isOpen, Draft.isOpen, h.depth, hopen]

theorem withoutContinuation? (h : d.Parted offset n d') :
    Option.Rel (Parted offset n) d.withoutContinuation? d'.withoutContinuation? := by
  have hdrop := dropWhile_congr h.tail
  have htake := takeWhile_congr h.tail
  unfold Draft.withoutContinuation?
  generalize d.tail.dropWhile Cell.isBlank = xs at hdrop ⊢
  generalize d'.tail.dropWhile Cell.isBlank = ys at hdrop ⊢
  cases xs with
  | nil =>
    obtain rfl := List.map_eq_nil_iff.mp hdrop
    exact .none
  | cons c xs =>
    obtain ⟨c', ys, rfl, hchar, hrest⟩ := List.map_eq_cons_iff.mp hdrop
    dsimp only
    rw [hchar]
    split
    · have hcut : (c' :: d'.tail.takeWhile Cell.isBlank).map Cell.char =
          (c :: d.tail.takeWhile Cell.isBlank).map Cell.char := by
            rw [List.map_cons, List.map_cons, hchar, htake]
      exact .some { h with tail := hrest, width := by rw [h.width, cellWidth_congr hcut] }
    · exact .none

theorem pieces (h : d.Parted offset n d') : d'.pieces.map Piece.look = d.pieces.map Piece.look := by
  have hopen : (d'.openLiteral.getD []).map Cell.char = (d.openLiteral.getD []).map Cell.char := by
    rcases h.cases_openLiteral with ⟨hnone, hnone'⟩ | ⟨cs, cs', hsome, hsome', hchars⟩
    · rw [hnone, hnone']
    · rw [hsome, hsome']
      exact hchars
  simp [Draft.pieces, Piece.look, Piece.isLiteral, Piece.chars, Piece.cells, List.map_reverse,
    h.settled, h.tail, hopen]

theorem text (h : d.Parted offset n d') : d'.text = d.text := by
  have hpieces (e : Draft) : e.text = Piece.textOf e.pieces := by
    have hlast (cells : List Cell) : (Piece.code cells).chars = cells.map Cell.char := rfl
    rw [Draft.pieces, Piece.textOf_concat, hlast, Draft.text, Draft.cells]
    simp only [List.map_append, List.map_flatMap, List.append_assoc]
    rfl
  rw [hpieces, hpieces, Piece.textOf_congr h.pieces]

end Parted

/-! ### Where the statement goes on -/

/-- The text goes on behind `lead` with the character `b`, and it lasts: a bracket is open, or one
was closed behind `lead`. What was read and not appended counts. -/
def GoesOn (lead : List Char) (b : Char) (seen : List Char) (d : Draft) : Prop :=
  ∃ more, d.text = lead ++ b :: more ∧
  (1 ≤ d.depth ∨ ∃ c ∈ b :: more ++ seen, Text.isCloser c = true)

/-- A tail that lacks something lies behind it. -/
theorem exists_of_append_eq {α : Type} {p : α → Prop} {xs ys us ws : List α}
    (h : xs ++ ys = us ++ ws) (hys : ∃ y ∈ ys, p y) (hws : ∀ w ∈ ws, ¬p w) :
    ∃ zs, us = xs ++ zs ∧ ys = zs ++ ws := by
  rcases List.append_eq_append_iff.mp h with ⟨zs, hus, hys'⟩ | ⟨zs, -, hws'⟩
  · exact ⟨zs, hus, hys'⟩
  · obtain ⟨y, hy, hp⟩ := hys
    exact absurd hp (hws y (by simp [hws', hy]))

theorem text_trimCode (d : Draft) :
    ∃ blanks, d.text = d.trimCode.text ++ blanks ∧ ∀ c ∈ blanks, Text.isBlank c = true := by
  unfold trimCode
  cases hopen : d.openLiteral with
  | some literal => exact ⟨[], (List.append_nil _).symm, fun c hc => absurd hc List.not_mem_nil⟩
  | none =>
    refine ⟨(d.tail.takeWhile Cell.isBlank).reverse.map Cell.char, ?_, fun c hc => ?_⟩
    · have htail : d.tail.reverse = (d.tail.dropWhile Cell.isBlank).reverse ++
          (d.tail.takeWhile Cell.isBlank).reverse := by
        rw [← List.reverse_append, List.takeWhile_append_dropWhile]
      simp only [text, cells, hopen, Option.getD_none, List.reverse_nil, List.append_nil]
      rw [htail, ← List.append_assoc, List.map_append]
    · obtain ⟨x, hx, rfl⟩ := List.mem_map.mp hc
      exact List.all_eq_true.mp List.all_takeWhile x (List.mem_reverse.mp hx)

namespace GoesOn

variable {lead : List Char} {b : Char} {seen : List Char}

theorem mono (h : d.GoesOn lead b seen) {seen' : List Char} (hseen : seen ⊆ seen') :
    d.GoesOn lead b seen' := by
  obtain ⟨more, htext, hlasts⟩ := h
  refine ⟨more, htext, hlasts.imp_right ?_⟩
  rintro ⟨c, hc, hcloser⟩
  refine ⟨c, ?_, hcloser⟩
  rcases List.mem_append.mp hc with hc | hc
  · exact List.mem_append_left _ hc
  · exact List.mem_append_right _ (hseen hc)

theorem append (h : d.GoesOn lead b seen) (cells : List Cell) :
    (d.append cells).GoesOn lead b seen := by
  obtain ⟨more, htext, hlasts⟩ := h
  refine ⟨more ++ cells.map Cell.char, by simp [htext], ?_⟩
  rw [(d.counts_append cells).1]
  refine hlasts.imp_right fun ⟨c, hc, hcloser⟩ => ⟨c, ?_, hcloser⟩
  simp only [List.cons_append, List.mem_cons, List.mem_append] at hc ⊢
  tauto

theorem not_isBlank_of_isCloser {c : Char} (h : Text.isCloser c = true) :
    Text.isBlank c = false := by
  rw [Bool.eq_false_iff]
  intro hblank
  rw [(Assembly.not_mark_of_isBlank hblank).2.1] at h
  contradiction

theorem trimCode (hb : Text.isBlank b = false) (h : d.GoesOn lead b seen) :
    d.trimCode.GoesOn lead b seen := by
  obtain ⟨more, htext, hlasts⟩ := h
  obtain ⟨blanks, hcut, hblanks⟩ := d.text_trimCode
  have hnot : ∀ c ∈ blanks, ¬Text.isBlank c = false := fun c hc => by simp [hblanks c hc]
  obtain ⟨zs, htrim, hzs⟩ :=
    exists_of_append_eq (htext.symm.trans hcut) ⟨b, List.mem_cons_self, hb⟩ hnot
  cases zs with
  | nil =>
    exact absurd hb (hnot b (by rw [← List.nil_append blanks, ← hzs]; exact List.mem_cons_self))
  | cons c zs =>
    rw [List.cons_append, List.cons.injEq] at hzs
    obtain ⟨rfl, rfl⟩ := hzs
    refine ⟨zs, htrim, ?_⟩
    rw [depth_trimCode]
    refine hlasts.imp_right fun ⟨c, hc, hcloser⟩ => ⟨c, ?_, hcloser⟩
    have hne : c ∉ blanks := fun hmem => hnot c hmem (not_isBlank_of_isCloser hcloser)
    simp only [List.cons_append, List.mem_cons, List.mem_append] at hc ⊢
    tauto

theorem enterLine (hb : Text.isBlank b = false) (h : d.GoesOn lead b seen) (line : Nat) :
    (d.enterLine line).GoesOn lead b seen := by
  have hstart {e : Draft} (he : e.GoesOn lead b seen) (starts : List (Nat × Nat)) :
      ({ e with lineStarts := starts, endLine := line } : Draft).GoesOn lead b seen := he
  unfold Draft.enterLine
  split
  · exact h
  · apply hstart
    split
    · exact h
    · exact (h.trimCode hb).append _

theorem pushCode (hb : Text.isBlank b = false) (h : d.GoesOn lead b seen) (line : Nat) :
    (d.pushCode line seen.reverse).GoesOn lead b [] := by
  obtain ⟨more, htext, hlasts⟩ := h.enterLine hb line
  refine ⟨more ++ (if d.lastLine == some line then seen.reverse else Text.trimStart seen.reverse),
    ?_, ?_⟩
  · rw [Draft.pushCode, text_append, map_char_cellsOf, htext]
    simp
  · rw [Draft.pushCode, (counts_append _ _).1]
    refine hlasts.imp_right ?_
    rintro ⟨c, hc, hcloser⟩
    refine ⟨c, ?_, hcloser⟩
    have htrim (hmem : c ∈ seen) : c ∈ Text.trimStart seen.reverse := by
      have hkeep :=
        Text.filter_trimStart (p := Text.isCloser)
          (fun c hc => (Assembly.not_mark_of_isBlank hc).2.1) seen.reverse
      have hin : c ∈ (Text.trimStart seen.reverse).filter Text.isCloser := by
        rw [hkeep]
        exact List.mem_filter.mpr ⟨List.mem_reverse.mpr hmem, hcloser⟩
      exact (List.mem_filter.mp hin).1
    simp only [List.cons_append, List.mem_cons, List.mem_append, List.append_nil] at hc ⊢
    rcases hc with hc | hc | hc
    · exact .inl hc
    · exact .inr (.inl hc)
    · refine .inr (.inr ?_)
      split
      · exact List.mem_reverse.mpr hc
      · exact htrim hc

theorem pushLiteral (hb : Text.isBlank b = false) (h : d.GoesOn lead b []) (line : Nat)
    (chunk : List Char) (continues : Bool) :
    (d.pushLiteral line chunk continues).GoesOn lead b [] := by
  have hopen {e : Draft} (he : e.GoesOn lead b []) :
      ({ e with openLiteral := some (e.openLiteral.getD []) } : Draft).GoesOn lead b [] := by
    have htext : ({ e with openLiteral := some (e.openLiteral.getD []) } : Draft).text =
        e.text := by
      simp [Draft.text, Draft.cells]
    unfold GoesOn
    rw [htext]
    exact he
  have hclose {e : Draft} (he : e.GoesOn lead b []) : e.closeLiteral.GoesOn lead b [] := by
    have hdepth : e.closeLiteral.depth = e.depth := by
      unfold closeLiteral
      split <;> rfl
    unfold GoesOn
    rw [text_closeLiteral, hdepth]
    exact he
  have hpushed := (hopen (h.enterLine hb line)).append (cellsOf line chunk)
  unfold Draft.pushLiteral
  dsimp only
  split
  · exact hpushed
  · exact hclose hpushed

theorem openBracket (h : d.GoesOn lead b seen) (seen' : List Char) :
    d.openBracket.GoesOn lead b seen' := by
  obtain ⟨more, htext, -⟩ := h
  exact ⟨more, htext, .inl (Nat.le_add_left 1 d.depth)⟩

theorem closeBracket (h : d.GoesOn lead b seen) {c : Char} (hc : Text.isCloser c = true) :
    d.closeBracket.GoesOn lead b (c :: seen) := by
  obtain ⟨more, htext, -⟩ := h
  exact ⟨more, htext, .inr ⟨c, by simp, hc⟩⟩

/-- Of a closed draft, a continuation is cut off behind the bracket that was closed. -/
theorem withoutContinuation? (h : d.GoesOn lead b []) (hclosed : d.isOpen = false) {e : Draft}
    (he : d.withoutContinuation? = some e) : e.GoesOn lead b [] := by
  obtain ⟨more, htext, hlasts⟩ := h
  rw [isOpen, Bool.or_eq_false_iff, bne_eq_false_iff_eq] at hclosed
  have hopen : d.openLiteral = none :=
    Option.isNone_iff_eq_none.mp (Option.isSome_eq_false_iff.mp hclosed.2)
  rw [List.append_nil] at hlasts
  obtain ⟨c, hc, hcloser⟩ := hlasts.resolve_left (by omega)
  unfold Draft.withoutContinuation? at he
  split at he
  · contradiction
  · next x before hdrop =>
    split at he
    · next hx =>
      obtain rfl := Option.some.inj he
      have htail : d.tail.reverse =
          before.reverse ++ (d.tail.takeWhile Cell.isBlank ++ [x]).reverse := by
        rw [← List.reverse_append, List.append_assoc, List.singleton_append, ← hdrop,
          List.takeWhile_append_dropWhile]
      have hcut : d.text = ({ d with
          tail := before
          width := d.width - cellWidth (x :: d.tail.takeWhile Cell.isBlank) } : Draft).text ++
            (d.tail.takeWhile Cell.isBlank ++ [x]).reverse.map Cell.char := by
        simp only [text, cells, hopen, Option.getD_none, List.reverse_nil, List.append_nil]
        rw [htail, ← List.append_assoc, List.map_append]
      have hplain : ∀ w ∈ (d.tail.takeWhile Cell.isBlank ++ [x]).reverse.map Cell.char,
          ¬Text.isCloser w = true := by
        intro w hw hcloses
        obtain ⟨y, hy, rfl⟩ := List.mem_map.mp hw
        rcases List.mem_append.mp (List.mem_reverse.mp hy) with hy | hy
        · have hblank : Text.isBlank y.char = true := List.all_eq_true.mp List.all_takeWhile y hy
          rw [not_isBlank_of_isCloser hcloses] at hblank
          contradiction
        · obtain rfl := List.mem_singleton.mp hy
          rw [beq_iff_eq.mp hx] at hcloses
          contradiction
      obtain ⟨zs, htext', hzs⟩ :=
        exists_of_append_eq (htext.symm.trans hcut) ⟨c, hc, hcloser⟩ hplain
      have hmem : c ∈ zs := by
        rw [hzs] at hc
        exact (List.mem_append.mp hc).resolve_right fun hw => hplain c hw hcloser
      cases zs with
      | nil => exact absurd hmem List.not_mem_nil
      | cons z zs =>
        rw [List.cons_append, List.cons.injEq] at hzs
        obtain ⟨rfl, -⟩ := hzs
        exact ⟨zs, htext', .inr ⟨c, List.mem_append_left [] hmem, hcloser⟩⟩
    · contradiction

end GoesOn

end Draft

/-! ### Statements -/

/-- The statements look the same, but the second one entered line `n + 1` at `offset`. -/
structure Statement.Parted (offset n : Nat) (s s' : Statement) : Prop where
  startLine : s'.startLine = s.startLine
  endLine : s'.endLine = s.endLine + 1
  indent : s'.indent = s.indent
  pieces : s'.pieces.map Piece.look = s.pieces.map Piece.look
  maxDepth : s'.maxDepth = s.maxDepth
  lineStarts : PartedEntries offset n s.lineStarts.toList.reverse s'.lineStarts.toList.reverse

theorem Draft.GoesOn.exists_finish {lead : List Char} {b : Char} (hb : Text.isBlank b = false)
    {d d' : Draft} (h : d.GoesOn lead b []) {offset n : Nat} (hparted : d.Parted offset n d') :
    ∃ s s', d.finish = some s ∧ d'.finish = some s' ∧ s.Parted offset n s' ∧
    ∃ more, s.text = lead ++ b :: more := by
  have htrim := hparted.trimCode
  obtain ⟨more, htext, -⟩ := h.trimCode hb
  have hvisible {e : Draft} (he : e.text = lead ++ b :: more) :
      (e.pieces.all fun p => p.cells.all Cell.isBlank) = false := by
    have hcells : e.pieces.flatMap Piece.cells = e.cells := by simp [pieces, cells, Piece.cells]
    obtain ⟨c, hc, rfl⟩ : ∃ c ∈ e.cells, c.char = b := by
      rw [← List.mem_map, ← Draft.text, he]
      simp
    rw [← hcells, List.mem_flatMap] at hc
    obtain ⟨p, hp, hc⟩ := hc
    rw [List.all_eq_false]
    refine ⟨p, hp, ?_⟩
    rw [Bool.not_eq_true, List.all_eq_false]
    exact ⟨c, hc, by simpa [Cell.isBlank] using hb⟩
  have hcells : d.trimCode.pieces.flatMap Piece.cells = d.trimCode.cells := by
    simp [pieces, cells, Piece.cells]
  unfold Draft.finish
  dsimp only
  rw [hvisible htext, hvisible (htrim.text.trans htext), if_neg Bool.false_ne_true,
    if_neg Bool.false_ne_true]
  refine ⟨_, _, rfl, rfl, ⟨htrim.startLine, htrim.endLine, htrim.indent, htrim.pieces,
    htrim.maxDepth, ?_⟩, more, ?_⟩
  · simpa using htrim.lineStarts
  · rw [Statement.text, Statement.cells, hcells]
    exact htext

namespace Statement.Parted

variable {offset n : Nat} {s s' : Statement}

theorem text (h : s.Parted offset n s') : s'.text = s.text := by
  rw [text_eq, text_eq, Piece.textOf_congr h.pieces]

theorem masked (h : s.Parted offset n s') : s'.masked = s.masked :=
  congrArg maskedText (Piece.glyphs_congr h.pieces)

theorem literals (h : s.Parted offset n s') :
    s'.literals = s.literals := Piece.literalsFrom_congr h.pieces 0

theorem takeWhile_append_of_nil {α : Type} {p : α → Bool} (xs : List α) {ys : List α}
    (h : ys.takeWhile p = []) : (xs ++ ys).takeWhile p = xs.takeWhile p := by
  rw [List.takeWhile_append]
  split
  · next hall =>
    have hprefix := List.takeWhile_prefix (l := xs) p
    rw [h, List.append_nil, hprefix.eq_of_length hall]
  · rfl

/-- Where the entries ascend, a byte before the break is on the line it was on, and one
behind it is on the next. -/
theorem lineAt (h : s.Parted offset n s')
    (hstarts : s'.lineStarts.toList.Pairwise fun e f => e.1 ≤ f.1) (o : Nat) :
    s'.lineAt o = if o < offset then s.lineAt o else s.lineAt o + 1 := by
  obtain ⟨later, start, earlier, hentries, hentries'⟩ := h.lineStarts
  rw [List.reverse_eq_iff] at hentries hentries'
  simp only [List.reverse_append, List.reverse_cons, ← List.map_reverse, List.append_assoc]
    at hentries hentries'
  rw [← List.append_assoc] at hentries hentries'
  have hlast : (earlier.reverse ++ [(start, n)]).getLast? = some (start, n) := by simp
  generalize earlier.reverse ++ [(start, n)] = above at hentries hentries' hlast
  generalize later.reverse = below at hentries hentries'
  rw [List.singleton_append] at hentries'
  rw [hentries'] at hstarts
  obtain ⟨habove, hbehind, hacross⟩ := List.pairwise_append.mp hstarts
  obtain ⟨hfirst, hbelow⟩ := List.pairwise_cons.mp hbehind
  have hstart : ∀ e ∈ below, offset ≤ e.1 :=
    fun e he => hfirst (e.1, e.2 + 1) (List.mem_map_of_mem he)
  have hstarts' : s.lineStarts.toList.Pairwise fun e f => e.1 ≤ f.1 := by
    rw [hentries]
    refine List.pairwise_append.mpr ⟨habove, (List.pairwise_map.mp hbelow : _), fun e he f hf => ?_⟩
    exact hacross e he (f.1, f.2 + 1) (List.mem_cons_of_mem _ (List.mem_map_of_mem hf))
  rw [lineAt_eq (hentries' ▸ hstarts), lineAt_eq hstarts', h.startLine, hentries, hentries']
  by_cases ho : o < offset
  · have hnone : below.takeWhile (fun e => e.1 ≤ o) = [] := by
      rw [List.takeWhile_eq_nil_iff]
      intro hlength
      have := hstart _ (List.getElem_mem hlength)
      simp only [List.get_eq_getElem, decide_eq_true_eq]
      omega
    rw [if_pos ho, takeWhile_append_of_nil above hnone, takeWhile_append_of_nil above (by simp [ho])]
  · have hall : ∀ e ∈ above, decide (e.1 ≤ o) = true := by
      intro e he
      have := hacross e he _ List.mem_cons_self
      exact decide_eq_true (by omega)
    have hdown : (below.map fun e => (e.1, e.2 + 1)).takeWhile (fun e => e.1 ≤ o) =
        (below.takeWhile fun e => e.1 ≤ o).map fun e => (e.1, e.2 + 1) := List.takeWhile_map
    have hhere : ((offset, n + 1) :: below.map fun e => (e.1, e.2 + 1)).takeWhile
        (fun e => e.1 ≤ o) = (offset, n + 1) :: (below.takeWhile fun e => e.1 ≤ o).map fun e =>
          (e.1, e.2 + 1) := by
      rw [List.takeWhile_cons, if_pos (decide_eq_true (Nat.le_of_not_lt ho)), hdown]
    rw [if_neg ho, List.takeWhile_append_of_pos hall, List.takeWhile_append_of_pos hall, hhere]
    cases hmost : (below.takeWhile fun e => e.1 ≤ o).getLast? with
    | none =>
      rw [List.getLast?_eq_none_iff.mp hmost]
      simp [hlast]
    | some e => simp [List.getLast?_append, List.getLast?_cons, hmost]

end Statement.Parted

end EndpointCensus
