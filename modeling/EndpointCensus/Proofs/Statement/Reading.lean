import EndpointCensus.Proofs.Line.Break
import EndpointCensus.Proofs.Statement.Balanced
import EndpointCensus.Proofs.Statement.Entry
import EndpointCensus.Proofs.Statement.Invariant

/-!
Code that is read in part. Brackets are counted where they are read and text is appended later, but
a draft that is open does not tell when its text was appended: what was read so far may be appended
at once and the rest after it. And the depth of the open draft is the number of brackets that are
open in the code read so far, statement after statement.
-/

namespace EndpointCensus

/-! ### Drafts -/

namespace Draft

variable {d : Draft} {n : Nat}

theorem append_append (d : Draft) (xs ys : List Cell) :
    (d.append xs).append ys = d.append (xs ++ ys) := by
  unfold append
  cases h : d.openLiteral <;> simp [cellWidth_append, Nat.add_assoc]

theorem append_nil (d : Draft) : d.append [] = d := by
  obtain ⟨_, _, _, _, _, openLiteral, _⟩ := d
  cases openLiteral <;> rfl

theorem lastLine_append (d : Draft) (cells : List Cell) :
    (d.append cells).lastLine = d.lastLine := by
  unfold append lastLine
  cases d.openLiteral <;> rfl

theorem lastLine_pushCode (d : Draft) (n : Nat) (chunk : List Char) :
    (d.pushCode n chunk).lastLine = some n := by
  rw [pushCode, lastLine_append, lastLine_enterLine]

theorem cellsOf_append (n : Nat) (xs ys : List Char) :
    cellsOf n (xs ++ ys) = cellsOf n xs ++ cellsOf n ys :=
  List.map_append

theorem enterLine_of_lastLine (h : d.lastLine = some n) :
    d.enterLine n = d := if_pos (beq_iff_eq.mpr h)

theorem pushCode_of_lastLine (h : d.lastLine = some n) (chunk : List Char) :
    d.pushCode n chunk = d.append (cellsOf n chunk) := by
  rw [pushCode, enterLine_of_lastLine h, if_pos (beq_iff_eq.mpr h)]

/-- Text that is not blank may be appended in two parts. -/
theorem pushCode_append (d : Draft) (n : Nat) {xs : List Char} (hxs : Text.allBlank xs = false)
    (ys : List Char) : d.pushCode n (xs ++ ys) = (d.pushCode n xs).pushCode n ys := by
  have htrim : Text.trimStart (xs ++ ys) = Text.trimStart xs ++ ys := by
    have hne : xs.dropWhile Text.isBlank ≠ [] := by
      intro hnil
      rw [List.dropWhile_eq_nil_iff] at hnil
      exact Bool.eq_false_iff.mp hxs (List.all_eq_true.mpr hnil)
    unfold Text.trimStart
    rw [List.dropWhile_append, if_neg (by simpa using hne)]
  rw [pushCode_of_lastLine (d.lastLine_pushCode n xs), pushCode, pushCode, append_append,
    ← cellsOf_append]
  split
  · rfl
  · rw [htrim]

/-- Nothing but the count of brackets. -/
def withDepth (d : Draft) (depth maxDepth : Nat) : Draft :=
  { d with depth := depth, maxDepth := maxDepth }

theorem pushCode_withDepth (d : Draft) (depth maxDepth n : Nat) (chunk : List Char) :
    (d.withDepth depth maxDepth).pushCode n chunk =
      (d.pushCode n chunk).withDepth depth maxDepth := by
  have happend (e : Draft) (cells : List Cell) :
      (e.withDepth depth maxDepth).append cells = (e.append cells).withDepth depth maxDepth := by
    unfold append withDepth
    cases e.openLiteral <;> rfl
  have htrim (e : Draft) : (e.withDepth depth maxDepth).trimCode =
      e.trimCode.withDepth depth maxDepth := by
    obtain ⟨_, _, _, _, _, openLiteral, _⟩ := e
    cases openLiteral <;> rfl
  have henter : (d.withDepth depth maxDepth).enterLine n =
      (d.enterLine n).withDepth depth maxDepth := by
    have hlast : (d.withDepth depth maxDepth).lastLine = d.lastLine := rfl
    have hwidth : (d.withDepth depth maxDepth).width = d.width := rfl
    unfold enterLine
    rw [hlast, hwidth, htrim, happend]
    split
    · rfl
    · dsimp only
      split <;> rfl
  have hlast : (d.withDepth depth maxDepth).lastLine = d.lastLine := rfl
  rw [pushCode, henter, happend, hlast]
  rfl

theorem counts_pushCode (d : Draft) (n : Nat) (chunk : List Char) :
    (d.pushCode n chunk).depth = d.depth ∧ (d.pushCode n chunk).maxDepth = d.maxDepth := by
  have h := d.pushCode_withDepth d.depth d.maxDepth n chunk
  rw [show d.withDepth d.depth d.maxDepth = d from rfl] at h
  rw [h]
  exact ⟨rfl, rfl⟩

theorem counts_append (d : Draft) (cells : List Cell) :
    (d.append cells).depth = d.depth ∧ (d.append cells).maxDepth = d.maxDepth := by
  unfold append
  cases d.openLiteral <;> exact ⟨rfl, rfl⟩

theorem counts_enterLine (d : Draft) (n : Nat) :
    (d.enterLine n).depth = d.depth ∧ (d.enterLine n).maxDepth = d.maxDepth := by
  have h := d.counts_pushCode n []
  rw [pushCode, (counts_append _ _).1, (counts_append _ _).2] at h
  exact h

theorem counts_pushLiteral (d : Draft) (n : Nat) (chunk : List Char) (continues : Bool) :
    (d.pushLiteral n chunk continues).depth = d.depth ∧
    (d.pushLiteral n chunk continues).maxDepth = d.maxDepth := by
  have hclose (e : Draft) : e.closeLiteral.depth = e.depth ∧
      e.closeLiteral.maxDepth = e.maxDepth := by
    unfold closeLiteral
    cases e.openLiteral <;> exact ⟨rfl, rfl⟩
  unfold pushLiteral
  dsimp only
  split
  · rw [(counts_append _ _).1, (counts_append _ _).2]
    exact d.counts_enterLine n
  · rw [(hclose _).1, (hclose _).2, (counts_append _ _).1, (counts_append _ _).2]
    exact d.counts_enterLine n

theorem depth_withoutContinuation? {e : Draft} (h : d.withoutContinuation? = some e) :
    e.depth = d.depth := by
  unfold withoutContinuation? at h
  split at h
  · contradiction
  · split at h
    · obtain rfl := Option.some.inj h
      rfl
    · contradiction

theorem pushCode_openBracket (d : Draft) (n : Nat) (chunk : List Char) :
    d.openBracket.pushCode n chunk = (d.pushCode n chunk).openBracket := by
  obtain ⟨hdepth, hpeak⟩ := d.counts_pushCode n chunk
  rw [openBracket, openBracket, hdepth, hpeak]
  exact d.pushCode_withDepth _ _ n chunk

theorem pushCode_closeBracket (d : Draft) (n : Nat) (chunk : List Char) :
    d.closeBracket.pushCode n chunk = (d.pushCode n chunk).closeBracket := by
  obtain ⟨hdepth, hpeak⟩ := d.counts_pushCode n chunk
  have hclose : (d.pushCode n chunk).closeBracket =
      (d.pushCode n chunk).withDepth (d.depth - 1) d.maxDepth := by
    rw [closeBracket, hdepth, withDepth, ← hpeak]
  rw [hclose, ← pushCode_withDepth]
  rfl

end Draft

/-! ### Code segments -/

namespace Assembly

variable {language : Language} {l : Line} {a : Assembly} {d : Draft}

/-- Code that is read up to a place: the assembly, and what was read and not
appended, in reverse. -/
def readCode (language : Language) (l : Line) (seen : List Char) (a : Assembly) :
    List Char → Assembly × List Char
  | [] => (a, seen)
  | c :: rest =>
    if Text.isOpener c then
      readCode language l (c :: seen) (a.modifyFor language l (c :: seen).reverse .openBracket) rest
    else if Text.isCloser c then readCode language l (c :: seen)
      (a.modifyCurrent .closeBracket) rest
    else if c == ';' && a.depth == 0 then
      readCode language l [] (a.pushCode language l seen.reverse).endStatement rest
    else readCode language l (c :: seen) a rest

theorem leadsWithDot_append {xs : List Char} (h : Text.allBlank xs = false) (ys : List Char) :
    leadsWithDot (xs ++ ys) = leadsWithDot xs := by
  obtain ⟨c, hc⟩ : ∃ c, firstVisible? xs = some c := by
    rw [← Option.ne_none_iff_exists', ne_eq, firstVisible?_eq_none, h]
    exact Bool.false_ne_true
  have hboth : firstVisible? (xs ++ ys) = some c := by
    rw [firstVisible?, List.find?_append, show xs.find? (fun c => !Text.isBlank c) = some c from hc,
      Option.some_or]
  rw [leadsWithDot_eq, leadsWithDot_eq, hc, hboth]

theorem allBlank_of_mem {c : Char} (hc : Text.isBlank c = false) {cs : List Char} (hmem : c ∈ cs) :
    Text.allBlank cs = false := List.all_eq_false.mpr ⟨c, hmem, by simp [hc]⟩

theorem modifyFor_append {xs : List Char} (h : Text.allBlank xs = false) (ys : List Char)
    (f : Draft → Draft) : a.modifyFor language l (xs ++ ys) f = a.modifyFor language l xs f := by
  unfold modifyFor
  rw [leadsWithDot_append h]

/-- Whatever comes next, code up to a place is read in the same way. -/
theorem feedCode_append (a : Assembly) (seen cs more : List Char) :
    a.feedCode language l (seen.reverse ++ (cs ++ more)) seen (cs ++ more) =
      let first := readCode language l seen a cs
      first.1.feedCode language l (first.2.reverse ++ more) first.2 more := by
  induction cs generalizing a seen with
  | nil => rfl
  | cons c cs ih =>
    have hnext : seen.reverse ++ c :: (cs ++ more) = (c :: seen).reverse ++ (cs ++ more) := by simp
    rw [List.cons_append, feedCode, readCode]
    split
    · next hopener =>
      have hvisible : Text.isBlank c = false := by
        rw [Bool.eq_false_iff]
        intro hblank
        rw [(not_mark_of_isBlank hblank).1] at hopener
        contradiction
      rw [hnext, modifyFor_append (allBlank_of_mem hvisible (by simp))]
      exact ih _ (c :: seen)
    · split
      · rw [hnext]
        exact ih _ (c :: seen)
      · split
        · exact ih _ []
        · rw [hnext]
          exact ih a (c :: seen)

theorem modifyCurrent_of_current (h : a.current = some d) (f : Draft → Draft) :
    a.modifyCurrent f = { a with current := some (f d) } := by
  unfold modifyCurrent
  rw [h, Option.map_some]

theorem pushCode_of_current (h : a.current = some d) (chunk : List Char) :
    a.pushCode language l chunk = { a with current := some (d.pushCode l.number chunk) } := by
  unfold pushCode modifyCurrent modifyFor
  rw [h]
  split <;> rfl

/-- What was read of an open statement may be appended before the rest is read. -/
theorem feedCode_push (h : a.current = some d) {xs : List Char} (hxs : Text.allBlank xs = false)
    (seen rest : List Char) :
    a.feedCode language l (xs ++ (seen.reverse ++ rest)) (seen ++ xs.reverse) rest =
      (a.pushCode language l xs).feedCode language l (seen.reverse ++ rest) seen rest := by
  induction rest generalizing a d seen with
  | nil =>
    rw [List.append_nil, feedCode, feedCode, pushCode_of_current h,
      pushCode_of_current (d := d.pushCode l.number xs) (by rw [pushCode_of_current h]),
      pushCode_of_current h, d.pushCode_append l.number hxs]
  | cons c rest ih =>
    have hnext : xs ++ (seen.reverse ++ c :: rest) = xs ++ ((c :: seen).reverse ++ rest) := by simp
    have hnext' : seen.reverse ++ c :: rest = (c :: seen).reverse ++ rest := by simp
    have hpushed := @pushCode_of_current language l _ _ h xs
    have hdepth : (a.pushCode language l xs).depth = a.depth := by
      rw [hpushed, depth, depth, h, Option.map_some, Option.map_some,
        (d.counts_pushCode l.number xs).1]
    rw [feedCode, feedCode, hdepth]
    split
    · have hboth : (a.pushCode language l xs).modifyFor language l
          (seen.reverse ++ c :: rest) .openBracket =
            (a.modifyFor language l (xs ++ (seen.reverse ++ c :: rest)) .openBracket).pushCode
              language l xs := by
        rw [hpushed, modifyFor_of_current h, modifyFor_of_current (d := d.pushCode l.number xs) rfl,
          pushCode_of_current (d := d.openBracket) rfl, d.pushCode_openBracket]
      rw [hboth, modifyFor_of_current h, hnext, hnext']
      exact ih rfl (c :: seen)
    · split
      · have hboth : (a.pushCode language l xs).modifyCurrent .closeBracket =
            (a.modifyCurrent .closeBracket).pushCode language l xs := by
          rw [hpushed, modifyCurrent_of_current h,
            modifyCurrent_of_current (d := d.pushCode l.number xs) rfl,
            pushCode_of_current (d := d.closeBracket) rfl, d.pushCode_closeBracket]
        rw [hboth, modifyCurrent_of_current h, hnext, hnext']
        exact ih rfl (c :: seen)
      · split
        · have hboth : (a.pushCode language l xs).pushCode language l seen.reverse =
              a.pushCode language l (seen ++ xs.reverse).reverse := by
            rw [hpushed, pushCode_of_current (d := d.pushCode l.number xs) rfl, pushCode_of_current h,
              List.reverse_append, List.reverse_reverse, d.pushCode_append l.number hxs]
          rw [hboth]
        · rw [hnext, hnext']
          exact ih h (c :: seen)

end Assembly

/-! ### The depth of the code -/

/-- The code among characters with their kinds. -/
def codeOf (marked : List (Char × SegmentKind)) : List Char :=
  (marked.filter (·.2 == .code)).map Prod.fst

theorem codeOf_append (xs ys : List (Char × SegmentKind)) :
    codeOf (xs ++ ys) = codeOf xs ++ codeOf ys := by
  simp [codeOf]

theorem codeOf_segment (kind : SegmentKind) (cs : List Char) :
    codeOf (cs.map fun c => (c, kind)) = if kind = .code then cs else [] := by
  cases kind <;> simp [codeOf, List.filter_map, Function.comp_def]

theorem codeOf_marked_cons (s : Segment) (segments : List Segment) :
    codeOf (marked (s :: segments)) = (if s.kind = .code then s.chars else []) ++
      codeOf (marked segments) := by
  rw [marked, List.flatMap_cons, codeOf_append, codeOf_segment]
  rfl

theorem allBlank_codeOf {segments : List Segment} (h : segments.any Segment.hasContent = false) :
    Text.allBlank (codeOf (marked segments)) = true := by
  induction segments with
  | nil => rfl
  | cons s rest ih =>
    rw [List.any_cons, Bool.or_eq_false_iff] at h
    have hs := h.1
    rw [codeOf_marked_cons, Text.allBlank, List.all_append, Bool.and_eq_true]
    refine ⟨?_, ih h.2⟩
    split
    · next hkind => simpa [Segment.hasContent, Text.allBlank, hkind] using hs
    · rfl

theorem read_codeOf_of_blank (b : Balance) {l : Line} (h : l.hasContent = false) :
    b.read (codeOf (marked l.segments)) = b := by
  have hblank := allBlank_codeOf h
  have hmarks : Text.marks (codeOf (marked l.segments)) = Text.marks [] := by
    rw [Text.marks, List.filter_eq_nil_iff.mpr]
    · rfl
    · intro c hc
      rw [Text.isMark_of_isBlank (List.all_eq_true.mp hblank c hc)]
      exact Bool.false_ne_true
  rw [b.read_eq_of_marks hmarks, Balance.read_nil]

namespace Assembly

variable {language : Language} {l : Line} {a : Assembly} {n : Nat}

/-- The open draft is `n` brackets deep, if there is one; nothing is held back beside it, and what
is held back is at depth zero. -/
structure Counts (n : Nat) (a : Assembly) : Prop where
  depth : a.depth = n
  pending : ∀ d, a.pending = some d → d.depth = 0
  alone : a.current.isSome = true → a.pending = none

namespace Counts

/-- Inside brackets a draft is open. -/
theorem exists_current (h : a.Counts n) (hn : 1 ≤ n) :
    ∃ base d, a = ⟨base, some d, none⟩ ∧ d.depth = n := by
  have hdepth := h.depth
  have halone := h.alone
  obtain ⟨base, current, pending⟩ := a
  cases current with
  | none =>
    rw [Assembly.depth, Option.map_none, Option.getD_none] at hdepth
    omega
  | some d =>
    obtain rfl : pending = none := halone rfl
    exact ⟨base, d, rfl, hdepth⟩

theorem modifyFor (h : a.Counts n) (chunk : List Char) {f : Draft → Draft} {g : Nat → Nat}
    (hf : ∀ d, (f d).depth = g d.depth) : (a.modifyFor language l chunk f).Counts (g n) := by
  have hdepth := h.depth
  unfold Assembly.depth at hdepth
  unfold Assembly.modifyFor
  split
  · next d p hd =>
    rw [hd, Option.map_some, Option.getD_some] at hdepth
    refine ⟨?_, h.pending, fun _ => h.alone (by rw [hd]; rfl)⟩
    rw [Assembly.depth, Option.map_some, Option.getD_some, hf, hdepth]
  · next d hnone hd =>
    rw [hnone, Option.map_none, Option.getD_none] at hdepth
    split
    · refine ⟨?_, fun _ hc => by contradiction, fun _ => rfl⟩
      rw [Assembly.depth, Option.map_some, Option.getD_some, hf, h.pending d hd, ← hdepth]
    · refine ⟨?_, fun _ hc => ?_, fun _ => pending_flushPending a⟩
      · rw [Assembly.depth, Option.map_some, Option.getD_some, hf, ← hdepth]
        rfl
      · rw [show ({ a.flushPending with current := _ } : Assembly).pending =
          a.flushPending.pending from rfl, pending_flushPending] at hc
        contradiction
  · next hnone hd =>
    rw [hnone, Option.map_none, Option.getD_none] at hdepth
    refine ⟨?_, h.pending, fun _ => hd⟩
    rw [Assembly.depth, Option.map_some, Option.getD_some, hf, ← hdepth]
    rfl

theorem modifyCurrent (h : a.Counts n) {f : Draft → Draft} {g : Nat → Nat}
    (hf : ∀ d, (f d).depth = g d.depth) (hzero : g 0 = 0) : (a.modifyCurrent f).Counts (g n) := by
  have hdepth := h.depth
  unfold Assembly.depth at hdepth
  unfold Assembly.modifyCurrent
  cases hd : a.current with
  | none =>
    rw [hd, Option.map_none, Option.getD_none] at hdepth
    exact ⟨by rw [← hdepth, hzero]; rfl, h.pending, fun hc => by contradiction⟩
  | some d =>
    rw [hd, Option.map_some, Option.getD_some] at hdepth
    exact ⟨by rw [← hdepth, ← hf]; rfl, h.pending, fun _ => h.alone (by rw [hd]; rfl)⟩

theorem pushCode (h : a.Counts n) (chunk : List Char) : (a.pushCode language l chunk).Counts n := by
  have hpush (d : Draft) : (d.pushCode l.number chunk).depth = id d.depth :=
    (d.counts_pushCode l.number chunk).1
  unfold Assembly.pushCode
  split
  · exact h.modifyCurrent hpush rfl
  · exact h.modifyFor chunk hpush

theorem endStatement (h : a.Counts 0) : a.endStatement.Counts 0 := by
  have hnone : a.endStatement.current = none := current_endStatement a
  refine ⟨by rw [Assembly.depth, hnone]; rfl, fun d hd => ?_,
    fun hc => by rw [hnone] at hc; contradiction⟩
  unfold Assembly.endStatement at hd
  split at hd
  · rw [pending_emit, pending_flushPending] at hd
    contradiction
  · exact h.pending d hd

theorem readCode {b : Balance} (h : a.Counts b.depth) (seen cs : List Char) :
    (readCode language l seen a cs).1.Counts (b.read cs).depth := by
  induction cs generalizing a b seen with
  | nil => exact h
  | cons c cs ih =>
    unfold Assembly.readCode
    rw [Balance.read_cons, h.depth]
    unfold Balance.step
    split
    · exact ih (h.modifyFor (g := (· + 1)) _ fun _ => rfl) (c :: seen)
    · split
      · exact ih (h.modifyCurrent (g := (· - 1)) (fun _ => rfl) rfl) (c :: seen)
      · split
        · next hbreak =>
          have hzero : b.depth = 0 := beq_iff_eq.mp (Bool.and_eq_true_iff.mp hbreak).2
          rw [hzero] at h
          refine ih ?_ []
          rw [hzero]
          exact (h.pushCode _).endStatement
        · exact ih h (c :: seen)

theorem feedCode {b : Balance} (h : a.Counts b.depth) (cs : List Char) :
    (a.feedCode language l cs [] cs).Counts (b.read cs).depth := by
  have hread := @feedCode_append language l a [] cs []
  rw [List.append_nil, List.reverse_nil, List.nil_append] at hread
  rw [hread]
  exact (h.readCode [] cs).pushCode _

theorem feedSegments {b : Balance} (h : a.Counts b.depth) (segments : List Segment) :
    (a.feedSegments language l segments).Counts (b.read (codeOf (marked segments))).depth := by
  induction segments generalizing a b with
  | nil => exact h
  | cons s rest ih =>
    unfold Assembly.feedSegments
    rw [codeOf_marked_cons, Balance.read_append]
    cases hkind : s.kind with
    | comment =>
      rw [if_neg (by simp)]
      exact ih h
    | code =>
      rw [if_pos rfl]
      exact ih (h.feedCode s.chars)
    | literal =>
      have hpush (d : Draft) : (d.pushLiteral l.number s.chars
          (l.literalOpen && !rest.any (·.kind == .literal))).depth = id d.depth :=
        (d.counts_pushLiteral l.number s.chars _).1
      rw [if_neg (by simp)]
      exact ih (h.modifyFor s.chars hpush)

theorem endLine (h : a.Counts n) : (a.endLine language).Counts n := by
  have hdepth := h.depth
  unfold Assembly.endLine
  split
  · exact h
  · next d hd =>
    unfold Assembly.depth at hdepth
    rw [hd, Option.map_some, Option.getD_some] at hdepth
    have hpending : a.pending = none := h.alone (by rw [hd]; rfl)
    split
    · exact h
    · next hopen =>
      have hzero : d.depth = 0 := by
        simp only [Draft.isOpen, Bool.or_eq_true, bne_iff_ne, not_or, Decidable.not_not] at hopen
        exact hopen.1
      split
      · next e he => exact ⟨by rw [← hdepth]; exact Draft.depth_withoutContinuation? he, h.pending,
          fun _ => hpending⟩
      · split
        · refine ⟨?_, fun e he => ?_, fun hc => ?_⟩
          · rw [← hdepth, hzero, Assembly.depth, current_flushPending]
            rfl
          · obtain rfl : d = e := Option.some.inj he
            exact hzero
          · rw [current_flushPending] at hc
            contradiction
        · refine ⟨?_, fun e he => ?_, fun hc => ?_⟩
          · rw [← hdepth, hzero, Assembly.depth, current_emit]
            rfl
          · rw [pending_emit] at he
            exact h.pending e he
          · rw [current_emit] at hc
            contradiction

/-- A line that is passed over counts for nothing, as it has no code that could. -/
theorem feedLine {b : Balance} (h : a.Counts b.depth)
    (htag : l.tag = .comment → l.hasContent = false) :
    (a.feedLine language l).Counts (b.read (codeOf (marked l.segments))).depth := by
  unfold Assembly.feedLine
  split
  · next hskip =>
    have hcontent : l.hasContent = false := by
      simp only [Bool.or_eq_true, beq_iff_eq, Bool.and_eq_true, Bool.not_eq_true'] at hskip
      exact hskip.elim htag And.right
    rw [read_codeOf_of_blank b hcontent]
    exact h
  · exact (h.feedSegments l.segments).endLine

theorem foldl_feedLine {b : Balance} {lines : List Line} (h : a.Counts b.depth)
    (htags : ∀ l ∈ lines, l.tag = .comment → l.hasContent = false) :
    (lines.foldl (Assembly.feedLine language) a).Counts
      (b.read (codeOf (marked (lines.flatMap Line.segments)))).depth := by
  induction lines generalizing a b with
  | nil => exact h
  | cons l lines ih =>
    rw [List.foldl_cons, List.flatMap_cons, marked_append, codeOf_append, Balance.read_append]
    exact ih (h.feedLine (htags l List.mem_cons_self)) fun m hm =>
      htags m (List.mem_cons_of_mem l hm)

end Counts

end Assembly

end EndpointCensus
