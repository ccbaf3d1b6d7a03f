import EndpointCensus.Proofs.Line.Literal
import EndpointCensus.Proofs.Statement.Literal
import EndpointCensus.Proofs.Statement.Pieces
import EndpointCensus.Proofs.Statement.Substance
import EndpointCensus.Proofs.Text.Balance

/-!
Assembly keeps count. The brackets of a code segment are counted while it is read, and its text is
appended later, up to a semicolon or at its end; white space is trimmed and a closed statement may
be taken up again in between. At every step the count of a draft is that of its code together with
what was read and not appended. Literals stay whole: what a draft holds of a literal begins with its
delimiter until the line comes that closes it.
-/

namespace EndpointCensus

open Text (marks)

/-- The code is balanced, with no semicolon outside of brackets, and the literals are whole. -/
structure Statement.Sound (s : Statement) : Prop where
  balance : ({} : Balance).read (s.pieces.flatMap Piece.codeChars) = ⟨0, s.maxDepth, 0⟩
  literals : ∀ cells, Piece.literal cells ∈ s.pieces → IsLiteral (cells.map Cell.char)

/-! ### Drafts -/

namespace Draft

def code (d : Draft) : List Char :=
  d.settled.reverse.flatMap Piece.codeChars ++ d.tail.reverse.map Cell.char

/-- What is open of a literal begins with its delimiter. -/
def LiteralOpen : Option (List Char) → Option (List Cell) → Prop :=
  Option.Rel fun marker cells => IsMarker marker ∧ marker <+: cells.reverse.map Cell.char

/-- A draft on a line where the literal of delimiter `entered` is open and where `seen` was read, in
reverse, and not appended. -/
structure Sound (entered : Option (List Char)) (seen : List Char) (d : Draft) : Prop where
  balance : ({} : Balance).read (d.code ++ seen.reverse) = ⟨d.depth, d.maxDepth, 0⟩
  literals : ∀ cells, Piece.literal cells ∈ d.settled → IsLiteral (cells.map Cell.char)
  literalOpen : LiteralOpen entered d.openLiteral

variable {entered : Option (List Char)} {seen : List Char} {d : Draft}

theorem Sound.openLiteral_eq_none (h : d.Sound none seen) : d.openLiteral = none := by
  have hopen := h.literalOpen
  revert hopen
  cases d.openLiteral with
  | none => exact fun _ => rfl
  | some cells => exact fun hopen => nomatch hopen

theorem LiteralOpen.append {cells : List Cell} (h : LiteralOpen entered (some cells))
    (more : List Cell) : LiteralOpen entered (some (more.reverse ++ cells)) := by
  cases h with
  | some h =>
    refine .some ⟨h.1, h.2.trans ?_⟩
    rw [List.reverse_append, List.map_append]
    exact List.prefix_append _ _

theorem sound_ofLine (l : Line) :
    (ofLine l).Sound none [] := ⟨rfl, fun _ hc => absurd hc List.not_mem_nil, .none⟩

/-- Only the marks of the code are counted. -/
theorem Sound.congr {d' : Draft} {entered' : Option (List Char)} {seen' : List Char}
    (h : d.Sound entered seen)
    (hmarks : marks (d'.code ++ seen'.reverse) = marks (d.code ++ seen.reverse))
    (hdepth : d'.depth = d.depth) (hpeak : d'.maxDepth = d.maxDepth)
    (hsettled : d'.settled = d.settled) (hopen : LiteralOpen entered' d'.openLiteral) :
    d'.Sound entered' seen' where
  balance := by rw [Balance.read_eq_of_marks _ hmarks, h.balance, hdepth, hpeak]
  literals := by
    rw [hsettled]
    exact h.literals
  literalOpen := hopen

theorem append_of_none (h : d.openLiteral = none) (cells : List Cell) :
    d.append cells =
      { d with tail := cells.reverse ++ d.tail, width := d.width + cellWidth cells } := by
  rw [append, h]

theorem append_of_some {literal : List Cell} (h : d.openLiteral = some literal)
    (cells : List Cell) :
    d.append cells = { d with
      openLiteral := some (cells.reverse ++ literal), width := d.width + cellWidth cells } := by
  rw [append, h]

theorem marks_dropWhile_isBlank (cells : List Cell) :
    marks ((cells.dropWhile Cell.isBlank).map Cell.char) = marks (cells.map Cell.char) := by
  rw [map_char_dropWhile, Text.marks_trimStart]

theorem Sound.trimCode (h : d.Sound entered seen) : d.trimCode.Sound entered seen := by
  unfold Draft.trimCode
  split
  · exact h
  · refine h.congr ?_ rfl rfl rfl h.literalOpen
    simp [code, marks_dropWhile_isBlank]

theorem Sound.append_joint (h : d.Sound entered seen) : (d.append [.joint]).Sound entered seen := by
  have hopen := h.literalOpen
  cases hd : d.openLiteral with
  | none =>
    rw [append_of_none hd]
    refine h.congr ?_ rfl rfl rfl hopen
    have hjoint : marks (' ' :: seen.reverse) = marks seen.reverse := Text.marks_cons_of_not rfl _
    simpa [code, Cell.joint] using hjoint
  | some literal =>
    rw [append_of_some hd]
    rw [hd] at hopen
    exact h.congr rfl rfl rfl rfl (hopen.append [.joint])

theorem Sound.enterLine (h : d.Sound entered seen) (line : Nat) :
    (d.enterLine line).Sound entered seen := by
  have hjoined : (if d.width == 0 then d else d.trimCode.append [.joint]).Sound entered seen := by
    split
    · exact h
    · exact h.trimCode.append_joint
  unfold Draft.enterLine
  split
  · exact h
  · exact ⟨hjoined.balance, hjoined.literals, hjoined.literalOpen⟩

/-- What was read is appended. -/
theorem Sound.pushCode (h : d.Sound none seen) (line : Nat) :
    (d.pushCode line seen.reverse).Sound none [] := by
  have hline := h.enterLine line
  have hopen := hline.openLiteral_eq_none
  have happended (chunk : List Char) (hchunk : marks chunk = marks seen.reverse) :
      ((d.enterLine line).append (cellsOf line chunk)).Sound none [] := by
    rw [append_of_none hopen]
    refine hline.congr ?_ rfl rfl rfl hline.literalOpen
    simpa [code] using hchunk
  unfold Draft.pushCode
  split
  · exact happended _ rfl
  · exact happended _ (Text.marks_trimStart _)

theorem Sound.pushLiteral_true {marker chunk : List Char} (h : d.Sound entered [])
    (hmarker : IsMarker marker) (hruns : Runs entered marker chunk) (line : Nat) :
    (d.pushLiteral line chunk true).Sound (some marker) [] := by
  have hline := h.enterLine line
  have hopen := hline.literalOpen
  rw [Draft.pushLiteral_true]
  refine hline.congr rfl rfl rfl rfl ?_
  rcases hruns with rfl | ⟨rfl, hbegins⟩
  · revert hopen
    cases (d.enterLine line).openLiteral with
    | none => exact fun hopen => nomatch hopen
    | some literal => exact fun hopen => hopen.append _
  · rw [hline.openLiteral_eq_none]
    refine .some ⟨hmarker, ?_⟩
    simpa using hbegins

/-- The end of a literal makes it whole. -/
theorem isLiteral_of_ends {chunk : List Char} {cells : Option (List Cell)}
    (hopen : LiteralOpen entered cells) (hends : Ends entered chunk) :
    IsLiteral ((cells.getD []).reverse.map Cell.char ++ chunk) := by
  rcases hends with ⟨rfl, hchunk⟩ | ⟨marker, rfl, before, rfl⟩
  · cases hopen
    exact hchunk
  · cases hopen with
    | some h =>
      obtain ⟨hmarker, interior, hcells⟩ := h
      rw [Option.getD_some, ← hcells, List.append_assoc, ← List.append_assoc interior,
        ← List.append_assoc]
      exact hmarker.isLiteral (interior ++ before)

theorem Sound.pushLiteral_false {chunk : List Char} (h : d.Sound entered [])
    (hends : Ends entered chunk) (line : Nat) : (d.pushLiteral line chunk false).Sound none [] := by
  have hline := h.enterLine line
  rw [Draft.pushLiteral_false]
  refine ⟨?_, fun cells hcells => ?_, .none⟩
  · have hcount := hline.balance
    simpa [code, Piece.codeChars] using hcount
  · rcases List.mem_cons.mp hcells with hcells | hcells
    · rw [Piece.literal.inj hcells]
      have hliteral := isLiteral_of_ends hline.literalOpen hends
      simpa using hliteral
    · rcases List.mem_cons.mp hcells with hcells | hcells
      · contradiction
      · exact hline.literals cells hcells

theorem Sound.openBracket (h : d.Sound none seen) {c : Char} (hc : Text.isOpener c = true) :
    d.openBracket.Sound none (c :: seen) := by
  refine ⟨?_, h.literals, h.literalOpen⟩
  have hcode : d.openBracket.code = d.code := rfl
  rw [hcode, List.reverse_cons, ← List.append_assoc, Balance.read_append, h.balance]
  simp [Balance.step, hc, Draft.openBracket]

theorem Sound.closeBracket (h : d.Sound none seen) {c : Char} (hc : Text.isCloser c = true) :
    d.closeBracket.Sound none (c :: seen) := by
  refine ⟨?_, h.literals, h.literalOpen⟩
  have hcode : d.closeBracket.code = d.code := rfl
  rw [hcode, List.reverse_cons, ← List.append_assoc, Balance.read_append, h.balance]
  simp [Balance.step, hc, Text.isOpener_eq_false_of_isCloser hc, Draft.closeBracket]

/-- A character that changes no depth is read, but for a semicolon at depth zero. -/
theorem Sound.read (h : d.Sound none seen) {c : Char} (hopener : Text.isOpener c = false)
    (hcloser : Text.isCloser c = false) (hbreak : (c == ';' && d.depth == 0) = false) :
    d.Sound none (c :: seen) := by
  refine ⟨?_, h.literals, h.literalOpen⟩
  rw [List.reverse_cons, ← List.append_assoc, Balance.read_append, h.balance]
  simp [Balance.step, hopener, hcloser, hbreak]

/-- What is read between statements may go to one at depth zero. -/
theorem Sound.wait (h : d.Sound none []) (hdepth : d.depth = 0)
    (hseen : ∀ c ∈ seen, Text.isOpener c = false ∧ c ≠ ';') : d.Sound none seen := by
  refine ⟨?_, h.literals, h.literalOpen⟩
  have hcount := h.balance
  rw [List.reverse_nil, List.append_nil] at hcount
  rw [Balance.read_append, hcount]
  exact Balance.read_of_level hdepth fun c hc => hseen c (List.mem_reverse.mp hc)

theorem Sound.withoutContinuation? (h : d.Sound none []) {e : Draft}
    (he : d.withoutContinuation? = some e) : e.Sound none [] := by
  unfold Draft.withoutContinuation? at he
  split at he
  · contradiction
  · next c before hdrop =>
    split at he
    · next hc =>
      obtain rfl := Option.some.inj he
      refine h.congr ?_ rfl rfl rfl h.literalOpen
      have htail : marks (before.map Cell.char) = marks (d.tail.map Cell.char) := by
        rw [← marks_dropWhile_isBlank d.tail, hdrop, List.map_cons, beq_iff_eq.mp hc]
        rfl
      simp [code, htail]
    · contradiction

theorem depth_trimCode (d : Draft) : d.trimCode.depth = d.depth := by
  unfold Draft.trimCode
  split <;> rfl

theorem Sound.finish (h : d.Sound none []) (hdepth : d.depth = 0) {s : Statement}
    (hs : d.finish = some s) : s.Sound := by
  have htrim := h.trimCode
  have hcount := htrim.balance
  have hopen := htrim.openLiteral_eq_none
  unfold Draft.finish at hs
  dsimp only at hs
  split at hs
  · contradiction
  · obtain rfl := Option.some.inj hs
    refine ⟨?_, fun cells hcells => htrim.literals cells ?_⟩
    · rw [depth_trimCode, hdepth] at hcount
      simpa [pieces, hopen, Piece.codeChars, code] using hcount
    · simpa [pieces] using hcells

theorem depth_pushCode (d : Draft) (line : Nat) (chunk : List Char) :
    (d.pushCode line chunk).depth = d.depth := by
  have happend (e : Draft) (cells : List Cell) : (e.append cells).depth = e.depth := by
    unfold Draft.append
    dsimp only
    split <;> rfl
  unfold Draft.pushCode Draft.enterLine
  rw [happend]
  split
  · rfl
  · dsimp only
    split
    · rfl
    · rw [happend, depth_trimCode]

end Draft

/-! ### Assemblies -/

namespace Assembly

/-- An assembly on a line where the literal of delimiter `entered` is open and where `seen` was read
and not appended. Between statements nothing was read that counts. -/
structure Sound (entered : Option (List Char)) (seen : List Char) (a : Assembly) : Prop where
  finished : ∀ s ∈ a.finished, s.Sound
  pending : ∀ d, a.pending = some d → d.Sound none [] ∧ d.depth = 0
  current : ∀ d, a.current = some d → d.Sound entered seen
  idle : a.current = none → entered = none ∧ ∀ c ∈ seen, Text.isOpener c = false ∧ c ≠ ';'

variable {entered : Option (List Char)} {seen : List Char} {a : Assembly} {language : Language}

theorem Sound.emit_finished (h : a.Sound entered seen) {d : Draft} (hd : d.Sound none [])
    (hdepth : d.depth = 0) : ∀ s ∈ (a.emit d).finished, s.Sound := by
  unfold emit
  split
  · next s hs =>
    intro t ht
    rcases List.mem_cons.mp ht with rfl | ht
    · exact hd.finish hdepth hs
    · exact h.finished t ht
  · exact h.finished

theorem Sound.emit (h : a.Sound entered seen) {d : Draft} (hd : d.Sound none [])
    (hdepth : d.depth = 0) : (a.emit d).Sound entered seen where
  finished := h.emit_finished hd hdepth
  pending := by
    rw [pending_emit]
    exact h.pending
  current := by
    rw [current_emit]
    exact h.current
  idle := by
    rw [current_emit]
    exact h.idle

theorem Sound.flushPending (h : a.Sound entered seen) : a.flushPending.Sound entered seen := by
  unfold Assembly.flushPending
  split
  · next d hd =>
    have hnone : ({ a with pending := none } : Assembly).Sound entered seen :=
      ⟨h.finished, fun _ hc => by contradiction, h.current, h.idle⟩
    exact hnone.emit (h.pending d hd).1 (h.pending d hd).2
  · exact h

/-- A change of drafts is one of the assembly, whichever draft it is applied to. -/
theorem Sound.modifyFor {next : Option (List Char)} {seen' : List Char} (h : a.Sound entered seen)
    (l : Line) (chunk : List Char) {f : Draft → Draft}
    (hf : ∀ d : Draft, d.Sound entered seen → (f d).Sound next seen') :
    (a.modifyFor language l chunk f).Sound next seen' := by
  have hplaced (b : Assembly) (hb : b.Sound entered seen) (d : Draft) (hd : d.Sound entered seen) :
      ({ b with current := some (f d) } : Assembly).Sound next seen' := by
    refine ⟨hb.finished, hb.pending, fun e he => ?_, fun hc => by contradiction⟩
    obtain rfl : f d = e := Option.some.inj he
    exact hf d hd
  have hwait (d : Draft) (hd : d.Sound none []) (hdepth : d.depth = 0) (hnone : a.current = none) :
      d.Sound entered seen := by
    obtain ⟨rfl, hseen⟩ := h.idle hnone
    exact hd.wait hdepth hseen
  unfold Assembly.modifyFor
  split
  · next _ d hd => exact hplaced a h d (h.current d hd)
  · next d hnone hd =>
    obtain ⟨hsound, hdepth⟩ := h.pending d hd
    split
    · refine hplaced { a with pending := none } ?_ d (hwait d hsound hdepth hnone)
      exact ⟨h.finished, fun _ hc => by contradiction, h.current, h.idle⟩
    · exact hplaced _ h.flushPending _ (hwait _ (Draft.sound_ofLine l) rfl hnone)
  · next hnone _ => exact hplaced a h _ (hwait _ (Draft.sound_ofLine l) rfl hnone)

theorem Sound.modifyCurrent {seen' : List Char} (h : a.Sound none seen) {f : Draft → Draft}
    (hf : ∀ d : Draft, d.Sound none seen → (f d).Sound none seen')
    (hidle : a.current = none → ∀ c ∈ seen', Text.isOpener c = false ∧ c ≠ ';') :
    (a.modifyCurrent f).Sound none seen' := by
  unfold Assembly.modifyCurrent
  refine ⟨h.finished, h.pending, fun d hd => ?_, fun hnone =>
    ⟨rfl, hidle (Option.map_eq_none_iff.mp hnone)⟩⟩
  obtain ⟨e, he, rfl⟩ := Option.map_eq_some_iff.mp hd
  exact hf e (h.current e he)

theorem Sound.pushCode (h : a.Sound none seen) (l : Line) :
    (a.pushCode language l seen.reverse).Sound none [] := by
  unfold Assembly.pushCode
  split
  · exact h.modifyCurrent (fun d hd => hd.pushCode l.number) fun _ c hc =>
      absurd hc List.not_mem_nil
  · exact h.modifyFor l _ fun d hd => hd.pushCode l.number

/-- Code appended outside of brackets leaves the statement outside of brackets. -/
theorem Sound.depth_pushCode (h : a.Sound none seen) (hdepth : a.depth = 0) (l : Line)
    (chunk : List Char) : (a.pushCode language l chunk).depth = 0 := by
  have hpushed (d : Draft) (hd : d.depth = 0) : (d.pushCode l.number chunk).depth = 0 :=
    (d.depth_pushCode l.number chunk).trans hd
  have hcurrent (d : Draft) (hd : a.current = some d) : d.depth = 0 := by
    rwa [Assembly.depth, hd] at hdepth
  unfold Assembly.pushCode
  split
  · unfold Assembly.modifyCurrent Assembly.depth
    cases hd : a.current with
    | none => rfl
    | some d => exact hpushed d (hcurrent d hd)
  · unfold Assembly.modifyFor
    split
    · next _ d hd => exact hpushed d (hcurrent d hd)
    · next d hnone hd =>
      split
      · exact hpushed d (h.pending d hd).2
      · exact hpushed (.ofLine l) rfl
    · exact hpushed (.ofLine l) rfl

theorem Sound.endStatement (h : a.Sound none []) (hdepth : a.depth = 0) :
    a.endStatement.Sound none [] := by
  unfold Assembly.endStatement
  split
  · next d hd =>
    have hclosed : d.depth = 0 := by
      rw [← hdepth, Assembly.depth, hd]
      rfl
    have hnone : ({ a with current := none } : Assembly).Sound none [] :=
      ⟨h.finished, h.pending, fun _ hc => by contradiction,
        fun _ => ⟨rfl, fun _ hc => absurd hc List.not_mem_nil⟩⟩
    exact hnone.flushPending.emit (h.current d hd) hclosed
  · exact h

theorem Sound.read (h : a.Sound none seen) {c : Char} (hopener : Text.isOpener c = false)
    (hcloser : Text.isCloser c = false) (hbreak : (c == ';' && a.depth == 0) = false) :
    a.Sound none (c :: seen) := by
  refine ⟨h.finished, h.pending, fun d hd => ?_, fun hnone => ⟨rfl, fun e he => ?_⟩⟩
  · have hdepth : a.depth = d.depth := by
      rw [Assembly.depth, hd]
      rfl
    exact (h.current d hd).read hopener hcloser (hdepth ▸ hbreak)
  · rcases List.mem_cons.mp he with rfl | he
    · refine ⟨hopener, ?_⟩
      rw [Assembly.depth, hnone] at hbreak
      rintro rfl
      contradiction
    · exact (h.idle hnone).2 e he

/-- A code segment, of which `seen` was read since its last semicolon. -/
theorem Sound.feedCode (h : a.Sound none seen) (l : Line) (rest : List Char) :
    (a.feedCode language l (seen.reverse ++ rest) seen rest).Sound none [] := by
  induction rest generalizing a seen with
  | nil =>
    rw [List.append_nil]
    exact h.pushCode l
  | cons c rest ih =>
    have hnext : seen.reverse ++ c :: rest = (c :: seen).reverse ++ rest := by simp
    unfold Assembly.feedCode
    rw [hnext]
    split
    · next hopener => exact ih (h.modifyFor l _ fun d hd => hd.openBracket hopener)
    · next hopener =>
      split
      · next hcloser =>
        refine ih (h.modifyCurrent (fun d hd => hd.closeBracket hcloser) fun hnone d hd => ?_)
        rcases List.mem_cons.mp hd with rfl | hd
        · refine ⟨Text.isOpener_eq_false_of_isCloser hcloser, ?_⟩
          rintro rfl
          contradiction
        · exact (h.idle hnone).2 d hd
      · next hcloser =>
        split
        · next hbreak =>
          have hdepth : a.depth = 0 := beq_iff_eq.mp (Bool.and_eq_true_iff.mp hbreak).2
          have hended : (a.pushCode language l seen.reverse).endStatement.Sound none [] :=
            (h.pushCode l).endStatement (h.depth_pushCode hdepth l _)
          exact ih hended
        · next hbreak =>
          exact ih (h.read (Bool.eq_false_iff.mpr hopener) (Bool.eq_false_iff.mpr hcloser)
            (Bool.eq_false_iff.mpr hbreak))

theorem Sound.feedSegments {left : Option (List Char)} (h : a.Sound entered []) {l : Line}
    {segments : List Segment} (hsegments : Segments entered segments left)
    (hopen : l.literalOpen = left.isSome) : (a.feedSegments language l segments).Sound left [] := by
  induction hsegments generalizing a with
  | nil => exact h
  | @skip s rest left hkind hrest ih =>
    unfold Assembly.feedSegments
    cases hs : s.kind with
    | comment => exact ih h hopen
    | code =>
      have hcode : (a.feedCode language l s.chars [] s.chars).Sound none [] := h.feedCode l s.chars
      exact ih hcode hopen
    | literal => exact absurd hs hkind
  | @ends entered cs rest left hends hrest ih =>
    have hcontinues : (l.literalOpen && !rest.any (·.kind == .literal)) = false := by
      rw [Bool.and_eq_false_iff, Bool.not_eq_false', hopen]
      cases hleft : left.isSome with
      | false => exact .inl rfl
      | true =>
        obtain ⟨s, hs, hkind, -⟩ := hrest.exists_literal rfl hleft
        exact .inr (List.any_eq_true.mpr ⟨s, hs, beq_iff_eq.mpr hkind⟩)
    unfold Assembly.feedSegments
    dsimp only
    rw [hcontinues]
    exact ih (h.modifyFor l cs fun d hd => hd.pushLiteral_false hends l.number) hopen
  | @runs entered marker cs hmarker hruns =>
    have hcontinues : (l.literalOpen && !([] : List Segment).any (·.kind == .literal)) = true := by
      rw [hopen]
      rfl
    unfold Assembly.feedSegments
    dsimp only
    rw [hcontinues]
    exact h.modifyFor l cs fun d hd => hd.pushLiteral_true hmarker hruns l.number

theorem Sound.endLine (h : a.Sound entered []) : (a.endLine language).Sound entered [] := by
  unfold Assembly.endLine
  split
  · exact h
  · next d hd =>
    have hsound := h.current d hd
    split
    · exact h
    · next hclosed =>
      have hnotOpen : d.depth = 0 ∧ d.openLiteral = none := by
        simpa [Draft.isOpen] using hclosed
      obtain ⟨hdepth, hliteral⟩ := hnotOpen
      have hentered : entered = none := by
        have hopen := hsound.literalOpen
        rw [hliteral] at hopen
        cases hopen
        rfl
      subst hentered
      have hnone : ({ a with current := none } : Assembly).Sound none [] :=
        ⟨h.finished, h.pending, fun _ hc => by contradiction,
          fun _ => ⟨rfl, fun _ hc => absurd hc List.not_mem_nil⟩⟩
      split
      · next e he =>
        refine ⟨h.finished, h.pending, fun e' he' => ?_, fun hc => by contradiction⟩
        obtain rfl : e = e' := Option.some.inj he'
        exact hsound.withoutContinuation? he
      · split
        · have hflushed := hnone.flushPending
          refine ⟨hflushed.finished, fun e he => ?_, hflushed.current, hflushed.idle⟩
          obtain rfl : d = e := Option.some.inj he
          exact ⟨hsound, hdepth⟩
        · exact hnone.emit hsound hdepth

/-- A line that is passed over leaves no literal open. -/
theorem Sound.feedLine {left : Option (List Char)} (h : a.Sound entered []) {l : Line}
    (hl : l.Passes entered left) : (a.feedLine language l).Sound left [] := by
  unfold Assembly.feedLine
  split
  · next hskip =>
    obtain ⟨hentered, hblank⟩ : entered = none ∧ l.hasContent = false := by
      rcases Bool.or_eq_true_iff.mp hskip with htag | hidle
      · exact hl.comment (beq_iff_eq.mp htag)
      · obtain ⟨hnone, hblank⟩ := Bool.and_eq_true_iff.mp hidle
        exact ⟨(h.idle (Option.isNone_iff_eq_none.mp hnone)).1, (Bool.not_eq_true' _).mp hblank⟩
    have hleft : left = none := by
      rw [← Option.not_isSome_iff_eq_none]
      intro hsome
      obtain ⟨s, hs, -, hcontent⟩ := hl.segments.exists_literal hentered hsome
      exact List.any_eq_false.mp hblank s hs hcontent
    rw [hleft, ← hentered]
    exact h
  · exact (h.feedSegments hl.segments hl.literalOpen).endLine

/-- Whatever was read, the statements so far are sound. -/
theorem Sound.foldl_feedLine (h : a.Sound entered []) (language : Language) {lines : List Line}
    (hlines : Lines entered lines) :
    ∃ left, (lines.foldl (Assembly.feedLine language) a).Sound left [] := by
  induction hlines generalizing a with
  | nil => exact ⟨_, h⟩
  | cons hline _ ih => exact ih (h.feedLine hline)

theorem sound_start : ({} : Assembly).Sound none [] :=
  ⟨fun _ hs => absurd hs List.not_mem_nil, fun _ hd => by contradiction, fun _ hd => by contradiction,
    fun _ => ⟨rfl, fun _ hc => absurd hc List.not_mem_nil⟩⟩

end Assembly

/-- The statements of a text are balanced, and their literals are whole. -/
theorem Statement.sound_of_mem_readStatements {language : Language} {cs : List Char} {s : Statement}
    (h : s ∈ (readStatements language cs).statements) : s.Sound := by
  have hcode : ({ mode := .code } : Cursor).Sound :=
    Cursor.sound_start fun _ _ hc => by contradiction
  have hlines : Lines none (classify language cs).lines :=
    lines_scanLines language 1 hcode rfl (physicalLines cs)
  obtain ⟨left, hsound⟩ := Assembly.sound_start.foldl_feedLine language
    (hlines.of_prefix (classify language cs).prefix_lines)
  rw [readStatements, LineTable.assemble_eq] at h
  exact hsound.flushPending.finished s (List.mem_reverse.mp h)

end EndpointCensus
