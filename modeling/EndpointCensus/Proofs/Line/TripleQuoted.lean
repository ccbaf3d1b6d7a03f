import EndpointCensus.Proofs.Line.Position
import Mathlib.Data.List.TakeWhile

/-!
Literals in triple quotes. Where such a literal closes is told by its characters alone: a backslash
passes over the next character of the line, and the first delimiter that is not passed over closes.
Up to there its lines hold nothing but the literal, and behind it the scanner is back in code.
-/

namespace EndpointCensus

/-! ### Interiors -/

def tripleQuote (q : Char) : List Char := [q, q, q]

/-- What follows the delimiter that closes a literal, if one does. -/
def closing? (q : Char) : Bool → List Char → Option (List Char)
  | _, [] => none
  | true, _ :: cs => closing? q false cs
  | false, c :: cs =>
    if c == '\\' then closing? q true cs
    else if (tripleQuote q).isPrefixOf (c :: cs) then some (cs.drop 2)
    else closing? q false cs

/-- The text between the delimiters of a literal: the delimiter behind it is the
first one that closes. -/
def IsInterior (q : Char) (cs : List Char) : Prop :=
  closing? q false (cs ++ tripleQuote q) = some []

instance (q : Char) (cs : List Char) : Decidable (IsInterior q cs) :=
  inferInstanceAs (Decidable (_ = _))

theorem ne_of_isQuote {q c : Char} (hq : isQuote q = true) (hc : isQuote c = false) : q ≠ c := by
  rintro rfl
  rw [hq] at hc
  contradiction

variable {q : Char}

theorem isPrefixOf_tripleQuote_iff {cs : List Char} :
    (tripleQuote q).isPrefixOf cs = true ↔ ∃ rest, cs = q :: q :: q :: rest := by
  rw [List.isPrefixOf_iff_prefix]
  exact ⟨fun ⟨rest, h⟩ => ⟨rest, h.symm⟩, fun ⟨rest, h⟩ => ⟨rest, h.symm⟩⟩

/-- A delimiter at the start of a text stands at the start of all that goes on from it. -/
theorem isPrefixOf_append_right (xs ys : List Char) (h : (tripleQuote q).isPrefixOf xs = true) :
    (tripleQuote q).isPrefixOf (xs ++ ys) = true := by
  rw [List.isPrefixOf_iff_prefix] at h ⊢
  exact h.trans (List.prefix_append xs ys)

/-- A text that is as long as a delimiter shows whether it starts with one. -/
theorem isPrefixOf_of_append {xs ys : List Char} (hlength : 3 ≤ xs.length)
    (h : (tripleQuote q).isPrefixOf (xs ++ ys) = true) : (tripleQuote q).isPrefixOf xs = true := by
  rw [List.isPrefixOf_iff_prefix] at h ⊢
  exact List.prefix_of_prefix_length_le h (List.prefix_append xs ys) hlength

theorem closing?_cons (c : Char) (cs : List Char) :
    closing? q false (c :: cs) =
      if c == '\\' then closing? q true cs
      else if (tripleQuote q).isPrefixOf (c :: cs) then some (cs.drop 2)
      else closing? q false cs := rfl

/-- Text that does not close a literal does so in none of its beginnings. -/
theorem closing?_of_append {escaped : Bool} {xs ys : List Char}
    (h : closing? q escaped (xs ++ ys) = none) : closing? q escaped xs = none := by
  induction xs generalizing escaped with
  | nil => cases escaped <;> rfl
  | cons c xs ih =>
    rw [List.cons_append] at h
    cases escaped with
    | true => exact ih h
    | false =>
      rw [closing?_cons] at h ⊢
      split at h
      · next hc =>
        rw [if_pos hc]
        exact ih h
      · next hc =>
        split at h
        · contradiction
        · next hopen =>
          rw [if_neg hc, if_neg (mt (isPrefixOf_append_right (c :: xs) ys) hopen)]
          exact ih h

/-- An interior goes on over a line break. -/
theorem closing?_line (hq : isQuote q = true) {escaped : Bool} {xs ys : List Char}
    (h : closing? q escaped (xs ++ '\n' :: ys) = some []) :
    closing? q escaped xs = none ∧ closing? q false ys = some [] := by
  have hbreak : q ≠ '\n' := ne_of_isQuote hq rfl
  induction xs generalizing escaped with
  | nil =>
    refine ⟨by cases escaped <;> rfl, ?_⟩
    cases escaped with
    | true => exact h
    | false =>
      have hopen : ¬(tripleQuote q).isPrefixOf ('\n' :: ys) = true := by
        rw [isPrefixOf_tripleQuote_iff]
        rintro ⟨rest, hrest⟩
        exact hbreak (List.cons.inj hrest).1.symm
      rw [List.nil_append, closing?_cons, if_neg (by decide), if_neg hopen] at h
      exact h
  | cons c xs ih =>
    rw [List.cons_append] at h
    cases escaped with
    | true => exact ih h
    | false =>
      rw [closing?_cons] at h ⊢
      split at h
      · next hc =>
        rw [if_pos hc]
        exact ih h
      · next hc =>
        split at h
        · next hprefix =>
          -- The delimiter would stand on this line, but the line break would be left behind it.
          obtain ⟨rest, hrest⟩ := isPrefixOf_tripleQuote_iff.mp hprefix
          obtain ⟨-, hrest⟩ := List.cons.inj hrest
          rw [hrest] at h
          obtain rfl : rest = [] := Option.some.inj h
          have hmem : '\n' ∈ [q, q] := hrest ▸ List.mem_append_right xs (List.mem_cons_self ..)
          simp [hbreak.symm] at hmem
        · next hopen =>
          rw [if_neg hc, if_neg (mt (isPrefixOf_append_right (c :: xs) ('\n' :: ys)) hopen)]
          exact ih h

/-- Text without backslashes and delimiters that does not end in the quote itself
can stand in a literal. -/
theorem isInterior_of_plain (hq : isQuote q = true) {cs : List Char} (hescape : '\\' ∉ cs)
    (hdelimiter : ¬tripleQuote q <:+: cs) (hlast : cs.getLast? ≠ some q) : IsInterior q cs := by
  unfold IsInterior
  induction cs with
  | nil =>
    have hne : ¬(q == '\\') = true := by simpa using ne_of_isQuote hq (c := '\\') rfl
    rw [List.nil_append, tripleQuote, closing?_cons, if_neg hne,
      if_pos (isPrefixOf_tripleQuote_iff.mpr ⟨[], rfl⟩)]
    rfl
  | cons c cs ih =>
    obtain ⟨hc, hcs⟩ := not_or.mp (mt List.mem_cons.mpr hescape)
    have hopen : ¬(tripleQuote q).isPrefixOf (c :: (cs ++ tripleQuote q)) = true := by
      intro hstart
      rw [← List.cons_append] at hstart
      by_cases hlength : 3 ≤ (c :: cs).length
      · exact hdelimiter (List.isPrefixOf_iff_prefix.mp (isPrefixOf_of_append hlength hstart)).isInfix
      · -- A shorter text is a part of the delimiter, and so ends in its quote.
        have hshort : c :: cs <+: tripleQuote q :=
          List.prefix_of_prefix_length_le (List.prefix_append _ _)
            (List.isPrefixOf_iff_prefix.mp hstart) (Nat.le_of_not_le hlength)
        have hall : (c :: cs).getLast (List.cons_ne_nil c cs) = q := by
          simpa [tripleQuote] using hshort.subset (List.getLast_mem (List.cons_ne_nil c cs))
        exact hlast (hall ▸ List.getLast?_eq_some_getLast (List.cons_ne_nil c cs))
    rw [List.cons_append, closing?_cons, if_neg (by simpa using Ne.symm hc), if_neg hopen]
    refine ih hcs (fun hinfix => hdelimiter ( hinfix.trans (List.suffix_cons c cs).isInfix))
      fun h => hlast ?_
    rw [List.getLast?_cons, h]
    rfl

/-! ### Scanning -/

variable {number since : Nat}

/-- The cursor in a literal that was opened on line `since`. -/
def insideTriple (q : Char) (since : Nat) (escaped : Bool) (seen : List Char) : Cursor :=
  { mode := .triple q since, seen, passing := escaped.toNat }

theorem step_escaped (seen : List Char) (c : Char) (rest : List Char) :
    (insideTriple q since true seen).step .python number c rest =
      ([], insideTriple q since false (c :: seen)) := rfl

theorem step_backslash (seen rest : List Char) :
    (insideTriple q since false seen).step .python number '\\' rest =
      ([], insideTriple q since true ('\\' :: seen)) := rfl

theorem step_plain {c : Char} (hc : ¬(c == '\\') = true) {rest : List Char}
    (hopen : ¬(tripleQuote q).isPrefixOf (c :: rest) = true) (seen : List Char) :
    (insideTriple q since false seen).step .python number c rest =
      ([], insideTriple q since false (c :: seen)) := by
  have hplain : (c == q && [q, q].isPrefixOf rest) = false := by
    rw [Bool.eq_false_iff]
    intro h
    obtain ⟨heq, hpair⟩ := Bool.and_eq_true_iff.mp h
    refine hopen ?_
    rw [beq_iff_eq.mp heq]
    simpa [tripleQuote, List.isPrefixOf] using hpair
  have hlexeme : lexeme .python number c rest (.triple q since) = .plain := by
    unfold lexeme
    simp only [hc, hplain, Bool.false_eq_true, ↓reduceIte]
  unfold Cursor.step
  rw [show (insideTriple q since false seen).mode = .triple q since from rfl, hlexeme]
  rfl

/-- A line that does not close the literal belongs to it. -/
theorem scanFrom_interior {escaped : Bool} {seen cs : List Char}
    (h : closing? q escaped cs = none) :
    scanFrom .python number (insideTriple q since escaped seen) cs =
      (cut .literal (cs.reverse ++ seen), .triple q since) := by
  induction cs generalizing escaped seen with
  | nil => rfl
  | cons c cs ih =>
    rw [List.reverse_cons, List.append_assoc, List.singleton_append, scanFrom]
    cases escaped with
    | true =>
      rw [step_escaped]
      simp only [ih (show closing? q false cs = none from h), List.nil_append]
    | false =>
      rw [closing?_cons] at h
      split at h
      · next hc =>
        obtain rfl : c = '\\' := beq_iff_eq.mp hc
        rw [step_backslash]
        simp only [ih h, List.nil_append]
      · next hc =>
        split at h
        · contradiction
        · next hopen =>
          rw [step_plain hc hopen]
          simp only [ih h, List.nil_append]

/-- The delimiter ends the literal, and what stands behind it is read as code. -/
theorem scanFrom_delimiter (hq : isQuote q = true) (seen rest : List Char) :
    scanFrom .python number (insideTriple q since false seen) (tripleQuote q ++ rest) =
      (⟨.literal, seen.reverse ++ tripleQuote q⟩ ::
        (scanFrom .python number { mode := .code } rest).1,
          (scanFrom .python number { mode := .code } rest).2) := by
  have hne : (q == '\\') = false := beq_eq_false_iff_ne.mpr (ne_of_isQuote hq rfl)
  have hlexeme : lexeme .python number q (q :: q :: rest) (.triple q since) = .closes 3 := by
    simp [lexeme, hne, List.isPrefixOf]
  have hfirst : (insideTriple q since false seen).step .python number q (q :: q :: rest) =
      ([], { mode := .triple q since, seen := q :: seen, passing := 2, closing := true }) := by
    unfold Cursor.step
    rw [show (insideTriple q since false seen).mode = .triple q since from rfl, hlexeme]
    rfl
  have hsecond (more : List Char) :
      ({ mode := .triple q since, seen := q :: seen, passing := 2, closing := true } :
        Cursor).step .python number q more = ([],
          { mode := .triple q since, seen := q :: q :: seen, passing := 1, closing := true }) := rfl
  have hthird (more : List Char) :
      ({ mode := .triple q since, seen := q :: q :: seen, passing := 1, closing := true } :
        Cursor).step .python number q more =
          ([⟨.literal, (q :: q :: q :: seen).reverse⟩], { mode := .code }) := rfl
  have hseen : (q :: q :: q :: seen).reverse = seen.reverse ++ tripleQuote q := by
    simp [tripleQuote]
  rw [tripleQuote, List.cons_append, List.cons_append, List.cons_append, List.nil_append, scanFrom,
    hfirst]
  dsimp only
  rw [scanFrom, hsecond]
  dsimp only
  rw [scanFrom, hthird, hseen]
  rfl

/-- The line that closes the literal. -/
theorem scanFrom_closing (hq : isQuote q = true) {escaped : Bool} {seen cs : List Char}
    (h : closing? q escaped (cs ++ tripleQuote q) = some []) (rest : List Char) :
    scanFrom .python number (insideTriple q since escaped seen) (cs ++ (tripleQuote q ++ rest)) =
      (⟨.literal, seen.reverse ++ (cs ++ tripleQuote q)⟩ ::
        (scanFrom .python number { mode := .code } rest).1,
          (scanFrom .python number { mode := .code } rest).2) := by
  induction cs generalizing escaped seen with
  | nil =>
    cases escaped with
    | true =>
      have hne : ¬(q == '\\') = true := by simpa using ne_of_isQuote hq (c := '\\') rfl
      simp [tripleQuote, closing?, hne, List.isPrefixOf] at h
    | false => exact scanFrom_delimiter hq seen rest
  | cons c cs ih =>
    have hseen : seen.reverse ++ (c :: cs ++ tripleQuote q) =
        (c :: seen).reverse ++ (cs ++ tripleQuote q) := by simp
    rw [List.cons_append] at h
    rw [List.cons_append, scanFrom, hseen]
    cases escaped with
    | true =>
      rw [step_escaped]
      simp only [ih (show closing? q false (cs ++ tripleQuote q) = some [] from h), List.nil_append]
    | false =>
      rw [closing?_cons] at h
      split at h
      · next hc =>
        obtain rfl : c = '\\' := beq_iff_eq.mp hc
        rw [step_backslash]
        simp only [ih h, List.nil_append]
      · next hc =>
        split at h
        · have hlength := congrArg (Option.map List.length) h
          simp [tripleQuote] at hlength
        · next hopen =>
          have hopen' : ¬(tripleQuote q).isPrefixOf (c :: (cs ++ (tripleQuote q ++ rest))) =
              true := by
            rw [← List.append_assoc]
            exact mt (isPrefixOf_of_append
              (by simp [tripleQuote] : 3 ≤ (c :: (cs ++ tripleQuote q)).length)) hopen
          rw [step_plain hc hopen']
          simp only [ih h, List.nil_append]

/-- The delimiter in code opens the literal. -/
theorem scanFrom_opening (hq : isQuote q = true) {k : Cursor} (hk : k.Sound)
    (hmode : k.mode = .code) (cs : List Char) :
    scanFrom .python number k (tripleQuote q ++ cs) =
      let inside := scanFrom .python number (insideTriple q number false (tripleQuote q)) cs
      (cut .code k.seen ++ inside.1, inside.2) := by
  have hne : (q == '#') = false := beq_eq_false_iff_ne.mpr (ne_of_isQuote hq rfl)
  have hlexeme : lexeme .python number q (q :: q :: cs) .code = .opens (.triple q number) 3 := by
    simp [lexeme, opening, hne, hq, List.isPrefixOf]
  have hfirst : k.step .python number q (q :: q :: cs) =
      (cut .code k.seen, { mode := .triple q number, seen := [q], passing := 2 }) := by
    unfold Cursor.step
    rw [hk.passing hmode, hmode, hlexeme]
    rfl
  have hsecond (more : List Char) :
      ({ mode := .triple q number, seen := [q], passing := 2 } : Cursor).step .python number q more =
        ([], { mode := .triple q number, seen := [q, q], passing := 1 }) := rfl
  have hthird (more : List Char) :
      ({ mode := .triple q number, seen := [q, q], passing := 1 } : Cursor).step .python number q
        more = ([], insideTriple q number false (tripleQuote q)) := rfl
  rw [show tripleQuote q ++ cs = q :: q :: q :: cs from rfl, scanFrom, hfirst]
  dsimp only
  rw [scanFrom, hsecond]
  dsimp only
  rw [scanFrom, hthird]
  rfl

/-! ### Lines -/

/-- What stands behind the last line break of a text. -/
def lastLine (cs : List Char) : List Char := (cs.reverse.takeWhile (· != '\n')).reverse

theorem lastLine_of_not_mem {cs : List Char} (h : '\n' ∉ cs) : lastLine cs = cs := by
  have hall : ∀ c ∈ cs.reverse, (c != '\n') = true := by
    intro c hc
    rw [bne_iff_ne]
    rintro rfl
    exact h (List.mem_reverse.mp hc)
  rw [lastLine, List.takeWhile_eq_self_iff.mpr hall, List.reverse_reverse]

theorem lastLine_append (xs ys : List Char) : lastLine (xs ++ '\n' :: ys) = lastLine ys := by
  have hreverse : (xs ++ '\n' :: ys).reverse = ys.reverse ++ '\n' :: xs.reverse := by simp
  rw [lastLine, lastLine, hreverse, List.takeWhile_append]
  split
  · next hall =>
    have hself : ys.reverse.takeWhile (· != '\n') = ys.reverse :=
      (List.takeWhile_prefix _).eq_of_length hall
    rw [hself]
    simp
  · rfl

theorem not_mem_tripleQuote (hq : isQuote q = true) : '\n' ∉ tripleQuote q := by
  have hbreak : q ≠ '\n' := ne_of_isQuote hq rfl
  simp [tripleQuote, hbreak.symm]

theorem getLast?_append_tripleQuote (hq : isQuote q = true) (xs : List Char) :
    (xs ++ tripleQuote q).getLast? ≠ some '\r' := by
  have hreturn : q ≠ '\r' := ne_of_isQuote hq rfl
  simpa [tripleQuote] using hreturn

/-- The first line of a text, from its front on. -/
theorem physicalLines_first {front xs : List Char} (hfront : '\n' ∉ front)
    (hreturn : front.getLast? ≠ some '\r') (hxs : '\n' ∉ xs) (more : List Char) :
    physicalLines (front ++ (xs ++ '\n' :: more)) = (front ++ chomp xs) :: physicalLines more := by
  have hbreak : '\n' ∉ front ++ xs := by simp [hfront, hxs]
  rw [← List.append_assoc, physicalLines, linesFrom_line hbreak, List.reverse_nil, List.nil_append,
    chomp_append hreturn]

/-- An interior of several lines does not close on the first of them, and what
follows is an interior again. -/
theorem IsInterior.exists_line (hq : isQuote q = true) {cs : List Char} (h : IsInterior q cs)
    (hmem : '\n' ∈ cs) :
    ∃ xs ys, cs = xs ++ '\n' :: ys ∧ '\n' ∉ xs ∧ closing? q false (chomp xs) = none ∧
      IsInterior q ys ∧ cs.count '\n' = ys.count '\n' + 1 := by
  obtain ⟨xs, ys, rfl, hxs⟩ := List.eq_append_cons_of_mem hmem
  unfold IsInterior at h
  rw [List.append_assoc, List.cons_append] at h
  obtain ⟨hline, hys⟩ := closing?_line hq h
  obtain ⟨ending, hending⟩ := chomp_prefix xs
  rw [← hending] at hline
  refine ⟨xs, ys, rfl, hxs, closing?_of_append hline, hys, ?_⟩
  rw [List.count_append, List.count_eq_zero.mpr hxs, List.count_cons_self, Nat.zero_add]

/-- A line that holds nothing but a part of a literal that goes on past it. -/
structure Line.IsBody (l : Line) : Prop where
  tag : l.tag = .literalBody
  literalOpen : l.literalOpen = true
  segments : ∃ seen, l.segments = cut .literal seen

variable {rest later : List Char}

theorem physicalLines_closing (hq : isQuote q = true) {front : List Char} (hfront : '\n' ∉ front)
    (hrest : '\n' ∉ rest) (hlater : later = [] ∨ ∃ more, later = '\n' :: more) :
    physicalLines (front ++ (tripleQuote q ++ (rest ++ later))) =
      (front ++ (tripleQuote q ++ lineEnding later rest)) :: physicalLines later.tail := by
  have hbreak : '\n' ∉ front ++ tripleQuote q := by simp [hfront, not_mem_tripleQuote hq]
  have hline :=
    physicalLines_line hbreak hrest hlater (by simp [tripleQuote])
      (getLast?_append_tripleQuote hq front)
  rwa [List.append_assoc, List.append_assoc] at hline

/-- The lines of a text that begins inside of a literal. -/
theorem scanLines_interior (number since : Nat) (hq : isQuote q = true) (hrest : '\n' ∉ rest)
    (hlater : later = [] ∨ ∃ more, later = '\n' :: more) {cs : List Char} (h : IsInterior q cs) :
    let n := number + cs.count '\n'
    let last := scanFrom .python n { mode := .code } (lineEnding later rest)
    let below := scanLines .python (n + 1) last.2 (physicalLines later.tail)
    ∃ body, (∀ l ∈ body, l.IsBody ∧ l.number < n) ∧
      scanLines .python number (.triple q since)
        (physicalLines (cs ++ (tripleQuote q ++ (rest ++ later)))) =
          (body ++ Line.ofSegments n (.triple q since) last.2
            (⟨.literal, lastLine cs ++ tripleQuote q⟩ :: last.1) :: below.1, below.2) := by
  induction hcount : cs.count '\n' generalizing cs number with
  | zero =>
    have hcs : '\n' ∉ cs := List.count_eq_zero.mp hcount
    have hscan : scanFrom .python number { mode := .triple q since } _ = _ :=
      scanFrom_closing hq h (lineEnding later rest)
    refine ⟨[], fun l hl => absurd hl List.not_mem_nil, ?_⟩
    rw [physicalLines_closing hq hcs hrest hlater, scanLines, hscan, lastLine_of_not_mem hcs]
    rfl
  | succ k ih =>
    obtain ⟨xs, ys, rfl, hxs, hchomp, hys, hsplit⟩ :=
      h.exists_line hq (List.count_pos_iff.mp (by omega))
    obtain ⟨body, hbody, hscan⟩ := ih (number + 1) hys (by omega)
    have hfirst : scanFrom .python number { mode := .triple q since } (chomp xs) = _ :=
      scanFrom_interior hchomp
    have hphysical : physicalLines (xs ++ '\n' :: ys ++ (tripleQuote q ++ (rest ++ later))) =
        chomp xs :: physicalLines (ys ++ (tripleQuote q ++ (rest ++ later))) := by
      rw [List.append_assoc, List.cons_append]
      exact physicalLines_first List.not_mem_nil (by simp) hxs _
    have hnumber : number + (k + 1) = number + 1 + k := by omega
    refine ⟨Line.ofSegments number (.triple q since) (.triple q since)
      (cut .literal ((chomp xs).reverse ++ [])) :: body, ?_, ?_⟩
    · intro l hl
      rcases List.mem_cons.mp hl with rfl | hl
      · exact ⟨⟨rfl, rfl, _, rfl⟩, by simp only [Line.ofSegments]; omega⟩
      · obtain ⟨hl, hlt⟩ := hbody l hl
        exact ⟨hl, by omega⟩
    · rw [hphysical, scanLines, hfirst, lastLine_append, hnumber]
      dsimp only
      rw [hscan]
      rfl

/-- The lines of a literal with the interior `cs` that begins on line `number` behind the segments
`front`, and the one it closes on, where the segments `back` stand behind it. -/
inductive LiteralLines (q : Char) (number : Nat) (mode mode' : Mode) (front back : List Segment)
    (cs : List Char) : List Line → Line → Prop
  | single : '\n' ∉ cs → LiteralLines q number mode mode' front back cs []
      (.ofSegments number mode mode' (front ++ ⟨.literal, tripleQuote q ++ (cs ++ tripleQuote q)⟩ ::
        back))
  | several (ds : List Char) {body : List Line} : '\n' ∈ cs →
      (∀ l ∈ body, l.IsBody ∧ l.number < number + cs.count '\n') →
      LiteralLines q number mode mode' front back cs
        (.ofSegments number mode (.triple q number) (front ++ [⟨.literal, tripleQuote q ++ ds⟩]) ::
          body)
        (.ofSegments (number + cs.count '\n') (.triple q number) mode'
          (⟨.literal, lastLine cs ++ tripleQuote q⟩ :: back))

/-- The segments of a line before a literal that begins behind `line`. -/
def segmentsBefore (q : Char) (number : Nat) (mode : Mode) (line : List Char) : List Segment :=
  let reached := ({ mode } : Cursor).read .python number (tripleQuote q) line
  reached.1 ++ cut .code reached.2.seen

/-- What stands before a literal on its line does not depend on the literal. -/
theorem scanFrom_segmentsBefore (hq : isQuote q = true) {mode : Mode}
    (hstart : ({ mode } : Cursor).Sound) {line : List Char}
    (hcode : (({ mode } : Cursor).read .python number (tripleQuote q) line).2.mode = .code)
    (cs : List Char) : scanFrom .python number { mode } (line ++ (tripleQuote q ++ cs)) =
      let inside := scanFrom .python number (insideTriple q number false (tripleQuote q)) cs
      (segmentsBefore q number mode line ++ inside.1, inside.2) := by
  have hahead : Conclusive (tripleQuote q) := .inl (Nat.le_succ 2)
  rw [scanFrom_append, hahead.read_append hstart cs line]
  dsimp only
  rw [scanFrom_opening hq (hstart.read _ line) hcode, segmentsBefore, List.append_assoc]

/-- A literal that begins behind `line`, its lines and those below. -/
theorem exists_literalLines (hq : isQuote q = true) (hrest : '\n' ∉ rest)
    (hlater : later = [] ∨ ∃ more, later = '\n' :: more) {mode : Mode}
    (hstart : ({ mode } : Cursor).Sound) {line : List Char} (hline : '\n' ∉ line)
    (hcode : (({ mode } : Cursor).read .python number (tripleQuote q) line).2.mode = .code)
    {cs : List Char} (h : IsInterior q cs) :
    let n := number + cs.count '\n'
    let last := scanFrom .python n { mode := .code } (lineEnding later rest)
    let below := scanLines .python (n + 1) last.2 (physicalLines later.tail)
    ∃ upto closing,
      LiteralLines q number mode last.2 (segmentsBefore q number mode line) last.1 cs upto closing ∧
        scanLines .python number mode
            (physicalLines (line ++ (tripleQuote q ++ (cs ++ (tripleQuote q ++ (rest ++ later)))))) =
          (upto ++ closing :: below.1, below.2) := by
  have hsegments := scanFrom_segmentsBefore hq hstart hcode
  have hfront : '\n' ∉ line ++ tripleQuote q := by simp [hline, not_mem_tripleQuote hq]
  by_cases hmem : '\n' ∈ cs
  · obtain ⟨xs, ys, rfl, hxs, hchomp, hys, hcount⟩ := h.exists_line hq hmem
    obtain ⟨body, hbody, hscan⟩ := scanLines_interior (number + 1) number hq hrest hlater hys
    have hfirst : scanFrom .python number { mode } (line ++ (tripleQuote q ++ chomp xs)) =
        (segmentsBefore q number mode line ++ [⟨.literal, tripleQuote q ++ chomp xs⟩],
          .triple q number) := by
      rw [hsegments, scanFrom_interior hchomp]
      simp [cut, tripleQuote]
    have hphysical :
        physicalLines
          (line ++ (tripleQuote q ++ (xs ++ '\n' :: ys ++ (tripleQuote q ++ (rest ++ later))))) =
            (line ++ (tripleQuote q ++ chomp xs)) :: physicalLines
              (ys ++ (tripleQuote q ++ (rest ++ later))) := by
      have hsplit := physicalLines_first hfront (getLast?_append_tripleQuote hq line) hxs
        (ys ++ (tripleQuote q ++ (rest ++ later)))
      simpa only [List.append_assoc, List.cons_append] using hsplit
    rw [show number + 1 + ys.count '\n' = number + (xs ++ '\n' :: ys).count '\n' by omega]
      at hbody hscan
    refine ⟨_, _, .several (chomp xs) hmem hbody, ?_⟩
    rw [hphysical, scanLines, hfirst, lastLine_append]
    dsimp only
    rw [hscan]
    rfl
  · have hinner : '\n' ∉ line ++ (tripleQuote q ++ cs) := by
      simp [hline, not_mem_tripleQuote hq, hmem]
    have hphysical := physicalLines_closing hq hinner hrest hlater
    have hscan : scanFrom .python number { mode }
        (line ++ (tripleQuote q ++ (cs ++ (tripleQuote q ++ lineEnding later rest)))) =
          (segmentsBefore q number mode line ++ ⟨.literal, tripleQuote q ++ (cs ++ tripleQuote q)⟩ ::
            (scanFrom .python number { mode := .code } (lineEnding later rest)).1,
          (scanFrom .python number { mode := .code } (lineEnding later rest)).2) := by
      rw [hsegments, scanFrom_closing hq h]
      rfl
    rw [List.count_eq_zero.mpr hmem, Nat.add_zero]
    refine ⟨[], _, .single hmem, ?_⟩
    simp only [List.append_assoc] at hphysical
    rw [hphysical, scanLines, hscan]
    rfl

end EndpointCensus
