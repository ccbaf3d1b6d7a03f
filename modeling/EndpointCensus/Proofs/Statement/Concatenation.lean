import EndpointCensus.Proofs.Line.Delimiter
import EndpointCensus.Proofs.Statement.Below
import EndpointCensus.Proofs.Statement.Pending
import Mathlib.Data.List.TakeWhile

/-!
The statements of a text that is put below another one. Where everything in the upper text closes,
the statements of both together are those of the upper text, followed by those of the lower one with
later line numbers. An upper script may still hold its last statement back. It is finished where it
stands as soon as the lower text starts anew, with neither a dot, which would continue it, nor a
semicolon, which opens nothing and lets it wait on.
-/

namespace EndpointCensus

/-- The first character that is not white space. -/
def firstVisible? (cs : List Char) : Option Char := cs.find? fun c => !Text.isBlank c

/-- The first character of code in segments that is not white space. -/
def firstCode? (segments : List Segment) : Option Char :=
  firstVisible? ((segments.filter (·.kind == .code)).flatMap Segment.chars)

theorem firstVisible?_eq_none {cs : List Char} :
    firstVisible? cs = none ↔ Text.allBlank cs = true := by
  simp [firstVisible?, Text.allBlank]

theorem leadsWithDot_eq (cs : List Char) :
    Assembly.leadsWithDot cs = (firstVisible? cs == some '.') := by
  rw [firstVisible?, List.find?_not_eq_head?_dropWhile]
  rfl

/-- What is assembled first continues no statement before it: a literal, or code that begins with
neither a dot nor a semicolon. -/
def StartsAnew : List Segment → Prop
  | [] => True
  | s :: rest =>
    match s.kind with
    | .comment => StartsAnew rest
    | .literal => s.chars.head?.any isDelimiter = true
    | .code =>
      match firstVisible? s.chars with
      | none => StartsAnew rest
      | some c => c ≠ '.' ∧ c ≠ ';'

namespace StartsAnew

theorem of_append {segments later : List Segment} (h : StartsAnew (segments ++ later)) :
    StartsAnew segments := by
  induction segments with
  | nil => trivial
  | cons s rest ih =>
    rw [List.cons_append] at h
    unfold StartsAnew at h ⊢
    cases hkind : s.kind with
    | comment => rw [hkind] at h; exact ih h
    | literal => rw [hkind] at h; exact h
    | code =>
      rw [hkind] at h
      cases hfirst : firstVisible? s.chars with
      | none => simp only [hfirst] at h ⊢; exact ih h
      | some c => simp only [hfirst] at h ⊢; exact h

/-- What has no content does not matter. -/
theorem drop {segments later : List Segment} (h : StartsAnew (segments ++ later))
    (hnone : segments.any Segment.hasContent = false) : StartsAnew later := by
  induction segments with
  | nil => exact h
  | cons s rest ih =>
    rw [List.any_cons, Bool.or_eq_false_iff] at hnone
    rw [List.cons_append] at h
    unfold StartsAnew at h
    cases hkind : s.kind with
    | comment => rw [hkind] at h; exact ih h hnone.2
    | literal =>
      rw [hkind] at h
      have hdelimited : s.IsDelimited := fun _ => h
      rw [hdelimited.hasContent hkind] at hnone
      exact absurd hnone.1 Bool.noConfusion
    | code =>
      have hblank : firstVisible? s.chars = none := by
        rw [firstVisible?_eq_none]
        simpa [Segment.hasContent, hkind] using hnone.1
      simp only [hkind, hblank] at h
      exact ih h hnone.2

end StartsAnew

/-! ### Texts that start anew -/

theorem firstCode?_cons (s : Segment) (segments : List Segment) :
    firstCode? (s :: segments) =
      if s.kind = .code then (firstVisible? s.chars).or (firstCode? segments)
        else firstCode? segments := by
  unfold firstCode? firstVisible?
  by_cases h : s.kind = .code <;> simp [h, List.find?_append]

/-- Segments start anew by their own literals and their first code, or by what follows them. -/
theorem startsAnew_append {segments later : List Segment}
    (hsegments : ∀ s ∈ segments, s.IsDelimited)
    (hcode : ∀ c, firstCode? (segments ++ later) = some c → c ≠ '.' ∧ c ≠ ';')
    (hlater : segments.any Segment.hasContent = false →
      (∀ c, firstCode? later = some c → c ≠ '.' ∧ c ≠ ';') → StartsAnew later) :
    StartsAnew (segments ++ later) := by
  induction segments with
  | nil => exact hlater rfl hcode
  | cons s rest ih =>
    rw [List.cons_append, firstCode?_cons] at hcode
    have hrest := fun t ht => hsegments t (List.mem_cons_of_mem s ht)
    rw [List.cons_append]
    unfold StartsAnew
    cases hkind : s.kind with
    | comment =>
      refine ih hrest (by simpa [hkind] using hcode) fun hnone => hlater ?_
      simp [List.any_cons, Segment.hasContent, hkind, hnone]
    | literal => exact hsegments s (List.mem_cons_self ..) hkind
    | code =>
      rw [if_pos hkind] at hcode
      cases hfirst : firstVisible? s.chars with
      | none =>
        refine ih hrest (by simpa [hfirst] using hcode) fun hnone => hlater ?_
        simp [List.any_cons, Segment.hasContent, hkind, firstVisible?_eq_none.mp hfirst, hnone]
      | some c => exact hcode c (by rw [hfirst, Option.some_or])

theorem startsAnew_scanLines {language : Language} {number : Nat} {mode : Mode}
    (hopen : mode.isOpenLiteral = false) (hnext : mode.nextLine = mode) {texts : List (List Char)}
    (hcode : ∀ c, firstCode? ((scanLines language number mode texts).1.flatMap Line.segments) =
      some c → c ≠ '.' ∧ c ≠ ';') :
    StartsAnew ((scanLines language number mode texts).1.flatMap Line.segments) := by
  induction texts generalizing number mode with
  | nil => trivial
  | cons cs rest ih =>
    obtain ⟨hsegments, hclosed⟩ := scanFrom_of_not_isOpenLiteral language number hopen hnext cs
    rw [scanLines, List.flatMap_cons] at hcode ⊢
    refine startsAnew_append hsegments hcode fun hnone hlater => ?_
    exact ih (hclosed hnone) (nextLine_scanFrom language number { mode } cs) hlater

/-! ### The seam -/

namespace Assembly

variable {a : Assembly} {language : Language}

/-- A chunk that does not lead with a dot finishes the statement that is held back. -/
theorem modifyFor_flushPending (ha : a.current = none) {chunk : List Char}
    (hchunk : leadsWithDot chunk = false) (l : Line) (f : Draft → Draft) :
    a.modifyFor language l chunk f = a.flushPending.modifyFor language l chunk f := by
  unfold modifyFor
  rw [current_flushPending, pending_flushPending, ha]
  cases hpending : a.pending with
  | none => simp [flushPending_of_none hpending]
  | some d => simp [hchunk]

theorem modifyCurrent_of_none (ha : a.current = none) (f : Draft → Draft) :
    a.modifyCurrent f = a := by
  unfold modifyCurrent
  rw [ha]
  cases a
  subst ha
  rfl

theorem depth_of_none (ha : a.current = none) : a.depth = 0 := by
  rw [depth, ha]
  rfl

theorem pushCode_flushPending (ha : a.current = none) {chunk : List Char} {c : Char}
    (hchunk : firstVisible? chunk = some c) (hdot : c ≠ '.') (l : Line) :
    a.pushCode language l chunk = a.flushPending.pushCode language l chunk := by
  have hvisible : Text.allBlank chunk = false := by
    rw [Bool.eq_false_iff, ne_eq, ← firstVisible?_eq_none, hchunk]
    exact Option.some_ne_none c
  have hlead : leadsWithDot chunk = false := by
    rw [leadsWithDot_eq, hchunk]
    simpa using hdot
  unfold pushCode
  rw [if_neg (by simp [hvisible]), if_neg (by simp [hvisible])]
  exact modifyFor_flushPending ha hlead l _

/-- White space is no mark of code. -/
theorem not_mark_of_isBlank {c : Char} (h : Text.isBlank c = true) :
    Text.isOpener c = false ∧ Text.isCloser c = false ∧ (c == ';') = false := by
  refine ⟨?_, ?_, ?_⟩
  all_goals
    rw [Bool.eq_false_iff]
    intro hmark
    simp only [Text.isOpener, Text.isCloser, Bool.or_eq_true, beq_iff_eq] at hmark
  · rcases hmark with (rfl | rfl) | rfl <;> contradiction
  · rcases hmark with (rfl | rfl) | rfl <;> contradiction
  · rw [hmark] at h
    contradiction

/-- Blank code leaves things as they are between statements. -/
theorem feedCode_of_blank (ha : a.current = none) (l : Line) (chunk seen : List Char)
    {rest : List Char} (hchunk : Text.allBlank chunk = true) (hrest : Text.allBlank rest = true) :
    a.feedCode language l chunk seen rest = a := by
  induction rest generalizing seen with
  | nil =>
    unfold feedCode pushCode
    rw [if_pos hchunk]
    exact modifyCurrent_of_none ha _
  | cons c rest ih =>
    rw [Text.allBlank, List.all_cons, Bool.and_eq_true] at hrest
    obtain ⟨hopener, hcloser, hsemicolon⟩ := not_mark_of_isBlank hrest.1
    unfold feedCode
    simp only [hopener, hcloser, hsemicolon, Bool.false_and, Bool.false_eq_true, ↓reduceIte]
    exact ih (c :: seen) hrest.2

/-- Code that starts anew finishes the statement that is held back, at its first bracket, at a
semicolon or at its end. -/
theorem feedCode_flushPending (ha : a.current = none) (l : Line) (seen rest : List Char) {c : Char}
    (hchunk : firstVisible? (seen.reverse ++ rest) = some c) (hdot : c ≠ '.')
    (hsemicolon : c ≠ ';') : a.feedCode language l (seen.reverse ++ rest) seen rest =
      a.flushPending.feedCode language l (seen.reverse ++ rest) seen rest := by
  have hb : a.flushPending.current = none := by rw [current_flushPending, ha]
  have hlead : leadsWithDot (seen.reverse ++ rest) = false := by
    rw [leadsWithDot_eq, hchunk]
    simpa using hdot
  induction rest generalizing seen with
  | nil => exact pushCode_flushPending ha hchunk hdot l
  | cons d rest ih =>
    have hnext : seen.reverse ++ d :: rest = (d :: seen).reverse ++ rest := by simp
    unfold feedCode
    rw [depth_of_none ha, depth_of_none hb]
    split
    · rw [modifyFor_flushPending ha hlead]
    · split
      · rw [modifyCurrent_of_none ha, modifyCurrent_of_none hb]
        rw [hnext] at hchunk hlead ⊢
        exact ih _ hchunk hlead
      · split
        · next hd =>
          obtain rfl : d = ';' := beq_iff_eq.mp (Bool.and_eq_true_iff.mp hd).1
          -- The semicolon is not the first thing to be seen, so something stands before it.
          have hseen : firstVisible? seen.reverse = some c := by
            rw [firstVisible?, List.find?_append, List.find?_cons_of_pos (by decide)] at hchunk
            rw [firstVisible?]
            cases hfirst : seen.reverse.find? fun c => !Text.isBlank c with
            | none =>
              rw [hfirst, Option.none_or] at hchunk
              exact absurd (Option.some.inj hchunk).symm hsemicolon
            | some e => rwa [hfirst, Option.some_or] at hchunk
          rw [pushCode_flushPending ha hseen hdot]
        · rw [hnext] at hchunk hlead ⊢
          exact ih _ hchunk hlead

theorem leadsWithDot_of_isDelimiter {chunk : List Char} (h : chunk.head?.any isDelimiter = true) :
    leadsWithDot chunk = false := by
  cases chunk with
  | nil => contradiction
  | cons c rest =>
    have hdelimiter : isDelimiter c = true := h
    have hdot : c ≠ '.' := by
      rintro rfl
      contradiction
    rw [leadsWithDot_eq, firstVisible?, List.find?_cons_of_pos
      (by simp [isBlank_of_isDelimiter hdelimiter])]
    simpa using hdot

theorem feedSegments_flushPending (ha : a.current = none) (l : Line) {segments : List Segment}
    (hanew : StartsAnew segments) (hcontent : segments.any Segment.hasContent = true) :
    a.feedSegments language l segments = a.flushPending.feedSegments language l segments := by
  have hb : a.flushPending.current = none := by rw [current_flushPending, ha]
  induction segments with
  | nil => contradiction
  | cons s rest ih =>
    unfold StartsAnew at hanew
    unfold feedSegments
    cases hkind : s.kind with
    | comment =>
      rw [hkind] at hanew
      have hnone : s.hasContent = false := by simp [Segment.hasContent, hkind]
      rw [List.any_cons, hnone, Bool.false_or] at hcontent
      exact ih hanew hcontent
    | literal =>
      rw [hkind] at hanew
      dsimp only
      rw [modifyFor_flushPending ha (leadsWithDot_of_isDelimiter hanew)]
    | code =>
      simp only [hkind] at hanew ⊢
      cases hfirst : firstVisible? s.chars with
      | none =>
        have hblank : Text.allBlank s.chars = true := firstVisible?_eq_none.mp hfirst
        have hnone : s.hasContent = false := by simp [Segment.hasContent, hblank]
        rw [hfirst] at hanew
        rw [List.any_cons, hnone, Bool.false_or] at hcontent
        rw [feedCode_of_blank ha l s.chars [] hblank hblank,
          feedCode_of_blank hb l s.chars [] hblank hblank]
        exact ih hanew hcontent
      | some c =>
        rw [hfirst] at hanew
        have hcode : a.feedCode language l s.chars [] s.chars =
            a.flushPending.feedCode language l s.chars [] s.chars :=
          feedCode_flushPending ha l [] s.chars hfirst hanew.1 hanew.2
        rw [hcode]

/-- Where lines start anew, the statement that is held back before them might as
well be finished. -/
theorem foldl_feedLine_flushPending (ha : a.current = none) {lines : List Line}
    (hanew : StartsAnew (lines.flatMap Line.segments))
    (hlines : ∀ l ∈ lines, l.tag = .comment → l.hasContent = false) :
    (lines.foldl (feedLine language) a).flushPending =
      (lines.foldl (feedLine language) a.flushPending).flushPending := by
  induction lines with
  | nil => exact (flushPending_of_none (pending_flushPending a)).symm
  | cons l rest ih =>
    rw [List.flatMap_cons] at hanew
    rw [List.foldl_cons, List.foldl_cons]
    unfold feedLine
    rw [current_flushPending, ha]
    by_cases hcontent : l.hasContent = true
    · have htag : (l.tag == .comment) = false := by
        rw [Bool.eq_false_iff, ne_eq, beq_iff_eq]
        intro htag
        rw [hlines l (List.mem_cons_self ..) htag] at hcontent
        contradiction
      simp only [htag, hcontent, Option.isNone_none, Bool.not_true, Bool.and_false, Bool.or_false,
        Bool.false_eq_true, ↓reduceIte]
      rw [feedSegments_flushPending ha l hanew.of_append hcontent]
    · have hnone : l.hasContent = false := Bool.eq_false_iff.mpr hcontent
      simp only [hnone, Option.isNone_none, Bool.not_false, Bool.and_true, Bool.or_true, ↓reduceIte]
      exact ih (hanew.drop hnone) fun m hm => hlines m (List.mem_cons_of_mem l hm)

end Assembly

/-! ### Texts one below the other -/

/-- The lines that statements are read from: those before the line of a
construct that never closes. -/
def LineTable.readable (table : LineTable) : List Line :=
  match table.unterminated with
  | some (limit, _) => table.lines.takeWhile fun (l : Line) => l.number < limit
  | none => table.lines

theorem LineTable.assemble_eq (language : Language) (table : LineTable) :
    table.assemble language =
      let a := (table.readable.foldl (Assembly.feedLine language) {}).flushPending
      { statements := a.finished.reverse, unclosed := a.current.map Draft.startLine } := by
  obtain ⟨lines, unterminated⟩ := table
  cases unterminated <;> rfl

theorem LineTable.prefix_lines (table : LineTable) : table.readable <+: table.lines := by
  unfold readable
  split
  · exact List.takeWhile_prefix _
  · exact List.prefix_rfl

theorem readable_classify_append {language : Language} {P : List Char} (hP : EndsLine P)
    (hterminated : (classify language P).unterminated = none) (S : List Char) :
    (classify language (P ++ S)).readable =
      (classify language P).lines ++ (classify language S).readable.map
        (Line.below (physicalLines P).length) := by
  rw [classify_append hP hterminated]
  unfold LineTable.readable
  cases hopen : (classify language S).unterminated with
  | none => rfl
  | some limit =>
    have hpos : 0 < limit.1 := pos_of_unterminated hopen
    have hupper : ∀ l ∈ (classify language P).lines,
        decide (l.number < limit.1 + (physicalLines P).length) = true := by
      intro l hl
      have := number_lt_of_mem_scanLines hl
      rw [decide_eq_true_eq]
      omega
    have hlower : ((fun (l : Line) => decide (l.number < limit.1 + (physicalLines P).length)) ∘
        Line.below (physicalLines P).length) = fun l => decide (l.number < limit.1) := by
      funext l
      simp [Line.below]
    simp only [Option.map_some]
    rw [List.takeWhile_append_of_pos hupper, List.takeWhile_map, hlower]

theorem flatMap_segments_below (n : Nat) (lines : List Line) :
    (lines.map (Line.below n)).flatMap Line.segments = lines.flatMap Line.segments :=
  List.flatMap_map ..

/-- Assembly goes over the seam as if the upper text had been finished there. -/
theorem Assembly.foldl_feedLine_seam {language : Language} {a : Assembly} (ha : a.current = none)
    (hwaits : a.OnlyScriptsWait language) (n : Nat) {S : List Char}
    (hS : language = .script → StartsAnew ((classify language S).lines.flatMap Line.segments)) :
    ((((classify language S).readable).map (Line.below n)).foldl (feedLine language) a).flushPending =
      (((classify language S).readable).foldl (feedLine language) {}).flushPending.after n
        a.flushPending.finished := by
  have hfresh : a.flushPending = ({} : Assembly).after n a.flushPending.finished := by
    have hcurrent : a.flushPending.current = none := by rw [current_flushPending, ha]
    have hpending : a.flushPending.pending = none := pending_flushPending a
    cases h : a.flushPending with
    | mk finished current pending =>
      rw [h] at hcurrent hpending
      subst hcurrent hpending
      rfl
  have hfinished : ((((classify language S).readable).map (Line.below n)).foldl
      (feedLine language) a).flushPending =
        ((((classify language S).readable).map (Line.below n)).foldl
          (feedLine language) a.flushPending).flushPending := by
    cases language with
    | python => rw [flushPending_of_none (hwaits rfl)]
    | script =>
      obtain ⟨later, hlater⟩ := (classify .script S).prefix_lines
      have hanew : StartsAnew ((classify .script S).readable.flatMap Line.segments) := by
        have hall := hS rfl
        rw [← hlater, List.flatMap_append] at hall
        exact hall.of_append
      refine foldl_feedLine_flushPending ha (by rwa [flatMap_segments_below]) fun l hl => ?_
      obtain ⟨m, hm, rfl⟩ := List.mem_map.mp hl
      have hline : m ∈ (classify .script S).lines := hlater ▸ List.mem_append_left later hm
      exact fun htag => hasContent_of_mem_scanLines (l := m) hline htag
  rw [hfinished, hfresh, ← after_foldl_feedLine, ← after_flushPending]
  rfl

/-- The statements of a text below one where everything closes are its own, with later line
numbers, and so are the lines where something never closes. The statements of the upper
text stay as they are. -/
theorem readStatements_append (language : Language) (P S : List Char) (hP : EndsLine P)
    (hterminated : (classify language P).unterminated = none)
    (hclosed : (readStatements language P).unclosed = none)
    (hS : language = .script →
      ∀ c, firstCode? ((classify language S).lines.flatMap Line.segments) = some c →
        c ≠ '.' ∧ c ≠ ';') :
    let n := (physicalLines P).length
    (readStatements language (P ++ S)).statements =
        (readStatements language P).statements ++
          (readStatements language S).statements.map (Statement.below n) ∧
      (readStatements language (P ++ S)).unclosed =
        (readStatements language S).unclosed.map (· + n) ∧
      (classify language (P ++ S)).unterminated =
        (classify language S).unterminated.map fun p => (p.1 + n, p.2) := by
  intro n
  have hupper : (classify language P).readable = (classify language P).lines := by
    unfold LineTable.readable
    rw [hterminated]
  have hanew (hscript : language = .script) : StartsAnew
      ((classify language S).lines.flatMap Line.segments) :=
    startsAnew_scanLines rfl rfl (hS hscript)
  have hwaits := Assembly.onlyScriptsWait_lines language (classify language P).lines
  have hlines := readable_classify_append hP hterminated S
  unfold readStatements at hclosed ⊢
  rw [LineTable.assemble_eq, hupper] at hclosed
  dsimp only at hclosed
  rw [Assembly.current_flushPending, Option.map_eq_none_iff] at hclosed
  simp only [LineTable.assemble_eq, hupper, hlines, List.foldl_append]
  have hseam := Assembly.foldl_feedLine_seam hclosed hwaits n hanew
  rw [hseam]
  refine ⟨?_, ?_, ?_⟩
  · simp [Assembly.after]
  · simp only [Assembly.after, Option.map_map]
    rfl
  · rw [classify_append hP hterminated]

/-- The upper text ends in a statement that is held back, and the lower one in a bracket and a
template that never close. -/
theorem readStatements_append_open :
    let P := "a(`;\n`)\n// (\n".toList
    let S := "\n/* . */ b;\nc(`".toList
    EndsLine P ∧ (classify .script P).unterminated = none ∧
      (readStatements .script P).unclosed = none ∧
      (∀ c, firstCode? ((classify .script S).lines.flatMap Line.segments) = some c →
        c ≠ '.' ∧ c ≠ ';') ∧
      (readStatements .script (P ++ S)).statements =
        (readStatements .script P).statements ++
          (readStatements .script S).statements.map (Statement.below 3) ∧
      (readStatements .script (P ++ S)).unclosed = (readStatements .script S).unclosed.map (· + 3) ∧
      (classify .script (P ++ S)).unterminated = (classify .script S).unterminated.map fun p =>
        (p.1 + 3, p.2) := by
  intro P S
  have hP : EndsLine P := .inr (by decide)
  have hterminated : (classify .script P).unterminated = none := by decide +kernel
  have hclosed : (readStatements .script P).unclosed = none := by decide +kernel
  have hfirst : firstCode? ((classify .script S).lines.flatMap Line.segments) = some 'b' := by
    decide +kernel
  have hS : ∀ c, firstCode? ((classify .script S).lines.flatMap Line.segments) = some c → c ≠ '.' ∧
      c ≠ ';' := by
    intro c hc
    obtain rfl := Option.some.inj (hfirst.symm.trans hc)
    decide
  exact ⟨hP, hterminated, hclosed, hS, readStatements_append .script P S hP hterminated hclosed
    fun _ => hS⟩

end EndpointCensus
