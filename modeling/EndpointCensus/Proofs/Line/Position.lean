import EndpointCensus.Proofs.Line.Concatenation
import EndpointCensus.Proofs.Line.Delimiter

/-!
Places within a line. A line is read up to a place with a view to what comes next, for an
opening or closing marker is told by the characters after it. What stands behind a marker of
code does not change how the text before it is read, so a place in code stays one whatever is
written behind its marker.
-/

namespace EndpointCensus

/-! ### Lines as they are written -/

/-- A line without the carriage return before its line feed. -/
def chomp (cs : List Char) : List Char := if cs.getLast? = some '\r' then cs.dropLast else cs

theorem chomp_append {xs : List Char} (h : xs.getLast? ≠ some '\r') (ys : List Char) :
    chomp (xs ++ ys) = xs ++ chomp ys := by
  unfold chomp
  cases hys : ys with
  | nil => simp [h]
  | cons y rest =>
    have hlast : (xs ++ y :: rest).getLast? = (y :: rest).getLast? := by
      rw [List.getLast?_append, List.getLast?_eq_some_getLast (List.cons_ne_nil y rest),
        Option.some_or]
    rw [hlast, List.dropLast_append_of_ne_nil (List.cons_ne_nil y rest)]
    split <;> rfl

theorem chomp_prefix (cs : List Char) : chomp cs <+: cs := by
  unfold chomp
  split
  · exact List.dropLast_prefix cs
  · exact List.prefix_rfl

theorem linesFrom_line {cs : List Char} (h : '\n' ∉ cs) (seen more : List Char) :
    linesFrom seen (cs ++ '\n' :: more) = chomp (seen.reverse ++ cs) :: physicalLines more := by
  induction cs generalizing seen with
  | nil =>
    rw [List.append_nil, List.nil_append, chomp, List.getLast?_reverse, List.dropLast_reverse]
    simp only [linesFrom, beq_self_eq_true, ↓reduceIte, physicalLines, beq_iff_eq]
    split <;> rfl
  | cons c cs ih =>
    obtain ⟨hc, hcs⟩ := not_or.mp (mt List.mem_cons.mpr h)
    have hbreak : (c == '\n') = false := by simpa using Ne.symm hc
    rw [List.cons_append, linesFrom, hbreak]
    simp only [Bool.false_eq_true, ↓reduceIte]
    rw [ih hcs]
    simp

theorem linesFrom_last {cs : List Char} (h : '\n' ∉ cs) {seen : List Char}
    (hne : seen.reverse ++ cs ≠ []) : linesFrom seen cs = [seen.reverse ++ cs] := by
  induction cs generalizing seen with
  | nil =>
    have hseen : seen.isEmpty = false := by simpa using hne
    simp [linesFrom, hseen]
  | cons c cs ih =>
    obtain ⟨hc, hcs⟩ := not_or.mp (mt List.mem_cons.mpr h)
    have hbreak : (c == '\n') = false := by simpa using Ne.symm hc
    rw [linesFrom, hbreak]
    simp only [Bool.false_eq_true, ↓reduceIte]
    rw [ih hcs (by simp)]
    simp

/-- The end of a line as it is read, where `later` comes after it. -/
def lineEnding (later cs : List Char) : List Char := if later = [] then cs else chomp cs

/-- How a line ends and which lines come after it does not depend on how it begins. -/
theorem physicalLines_line {line cs later : List Char} (hline : '\n' ∉ line) (hcs : '\n' ∉ cs)
    (hlater : later = [] ∨ ∃ more, later = '\n' :: more) (hne : line ≠ [])
    (hreturn : line.getLast? ≠ some '\r') :
    physicalLines (line ++ (cs ++ later)) = (line ++ lineEnding later cs) ::
      physicalLines later.tail := by
  have hbreak : '\n' ∉ line ++ cs := by simp [hline, hcs]
  rcases hlater with rfl | ⟨more, rfl⟩
  · rw [List.append_nil]
    exact linesFrom_last hbreak (by simp [hne])
  · rw [← List.append_assoc, physicalLines, linesFrom_line hbreak, List.reverse_nil,
      List.nil_append, chomp_append hreturn, lineEnding, if_neg (List.cons_ne_nil _ more)]
    rfl

/-! ### Reading up to a place -/

namespace Cursor

/-- The segments that characters complete, with `ahead` after them on the line, and
the cursor behind them. -/
def read (language : Language) (number : Nat) (ahead : List Char) (k : Cursor) :
    List Char → List Segment × Cursor
  | [] => ([], k)
  | c :: cs =>
    let next := k.step language number c (cs ++ ahead)
    let tail := read language number ahead next.2 cs
    (next.1 ++ tail.1, tail.2)

end Cursor

theorem scanFrom_append (language : Language) (number : Nat) (k : Cursor) (cs ahead : List Char) :
    scanFrom language number k (cs ++ ahead) =
      let first := k.read language number ahead cs
      let second := scanFrom language number first.2 ahead
      (first.1 ++ second.1, second.2) := by
  induction cs generalizing k with
  | nil => rfl
  | cons c cs ih => simp [scanFrom, Cursor.read, ih]

/-! ### Cursors that are reached -/

namespace Cursor

/-- Literals are delimited by quotes, and no marker is pending in code. -/
structure Sound (k : Cursor) : Prop where
  quotes : ∀ q since, k.mode = .triple q since → isQuote q = true
  passing : k.mode = .code → k.passing = 0

variable {language : Language} {number : Nat} {k : Cursor}

theorem Sound.take (h : k.Sound) (c : Char) {left : Nat} (hleft : k.mode = .code → left = 0)
    (closing : Bool) : (k.take c left closing).2.Sound := by
  unfold Cursor.take
  split
  · exact ⟨fun _ _ hmode => by contradiction, fun _ => rfl⟩
  · exact ⟨h.quotes, hleft⟩

theorem sound_of_opening {c : Char} {rest : List Char} {mode : Mode} {size : Nat} {seen : List Char}
    (h : opening language number c rest = .opens mode size) :
    ({ mode, seen, passing := size - 1 } : Cursor).Sound := by
  cases opens_of_opening h with
  | triple hquote =>
    refine ⟨fun q since hmode => ?_, fun hmode => by contradiction⟩
    obtain ⟨rfl, -⟩ := Mode.triple.inj hmode
    exact hquote
  | _ => exact ⟨fun _ _ hmode => by contradiction, fun hmode => by contradiction⟩

theorem Sound.step (h : k.Sound) (c : Char) (rest : List Char) :
    (k.step language number c rest).2.Sound := by
  unfold Cursor.step
  split
  · next left hpassing =>
    refine h.take c (fun hmode => ?_) _
    rw [h.passing hmode] at hpassing
    contradiction
  · next hpassing =>
    split
    · exact h.take c (fun _ => rfl) false
    · next hlexeme =>
      exact h.take c (fun hmode => absurd hmode (ne_code_of_lexeme hlexeme (by simp) (by simp))) false
    · next hlexeme =>
      exact h.take c (fun hmode => absurd hmode (ne_code_of_lexeme hlexeme (by simp) (by simp))) true
    · next hlexeme => exact sound_of_opening (opening_of_lexeme hlexeme)

theorem Sound.read (h : k.Sound) (ahead cs : List Char) :
    (k.read language number ahead cs).2.Sound := by
  induction cs generalizing k with
  | nil => exact h
  | cons c cs ih => exact ih (h.step c (cs ++ ahead))

end Cursor

/-! ### What comes next -/

/-- Enough characters to tell every marker before them: two, or the marker of a comment. -/
def Conclusive (ahead : List Char) : Prop := 2 ≤ ahead.length ∨ ahead = ['#']

namespace Conclusive

variable {ahead : List Char}

theorem append_left (h : Conclusive ahead) (cs : List Char) : Conclusive (cs ++ ahead) := by
  rcases h with h | rfl
  · left
    rw [List.length_append]
    omega
  · cases cs with
    | nil => exact .inr rfl
    | cons c cs => exact .inl (by simp)

theorem head?_append (h : Conclusive ahead) (more : List Char) :
    (ahead ++ more).head? = ahead.head? := by
  rcases h with h | rfl
  · cases ahead with
    | nil => contradiction
    | cons c cs => rfl
  · rfl

theorem isPrefixOf_append (h : Conclusive ahead) {q : Char} (hq : isQuote q = true)
    (more : List Char) : [q, q].isPrefixOf (ahead ++ more) = [q, q].isPrefixOf ahead := by
  rcases h with h | rfl
  · match ahead with
    | c :: d :: cs => simp [List.isPrefixOf]
  · have hne : (q == '#') = false := by
      rw [Bool.eq_false_iff]
      intro heq
      rw [beq_iff_eq.mp heq] at hq
      contradiction
    simp [List.isPrefixOf, hne]

theorem opening_append (h : Conclusive ahead) (language : Language) (number : Nat) (c : Char)
    (more : List Char) :
    opening language number c (ahead ++ more) = opening language number c ahead := by
  unfold opening
  rw [h.head?_append]
  cases language with
  | script => rfl
  | python =>
    by_cases hquote : isQuote c = true
    · simp only [h.isPrefixOf_append hquote]
    · simp only [hquote, Bool.false_eq_true, ↓reduceIte]

theorem step_append (h : Conclusive ahead) {language : Language} {number : Nat} {k : Cursor}
    (hk : k.Sound) (c : Char) (more : List Char) :
    k.step language number c (ahead ++ more) = k.step language number c ahead := by
  have hlexeme : lexeme language number c (ahead ++ more) k.mode =
      lexeme language number c ahead k.mode := by
    cases hmode : k.mode with
    | code => exact h.opening_append language number c more
    | triple q since =>
      unfold lexeme
      simp only [h.isPrefixOf_append (hk.quotes q since hmode)]
    | block since =>
      unfold lexeme
      simp only [h.head?_append]
    | _ => rfl
  unfold Cursor.step
  rw [hlexeme]

/-- What stands behind the marker is not looked at. -/
theorem read_append (h : Conclusive ahead) {language : Language} {number : Nat} {k : Cursor}
    (hk : k.Sound) (more cs : List Char) :
    k.read language number (ahead ++ more) cs = k.read language number ahead cs := by
  induction cs generalizing k with
  | nil => rfl
  | cons c cs ih =>
    have hstep : k.step language number c (cs ++ (ahead ++ more)) =
        k.step language number c (cs ++ ahead) := by
      rw [← List.append_assoc]
      exact (h.append_left cs).step_append hk c more
    unfold Cursor.read
    rw [hstep]
    dsimp only
    rw [ih (hk.step c (cs ++ ahead))]

end Conclusive

/-! ### Places in code -/

/-- A line ends where the cursor behind it stands. -/
theorem scanFrom_eq_read (language : Language) (number : Nat) (k : Cursor) (cs : List Char) :
    scanFrom language number k cs =
      let last := (k.read language number [] cs).2
      ((k.read language number [] cs).1 ++ cut last.mode.kind last.seen, last.mode.nextLine) := by
  have h := scanFrom_append language number k cs []
  rw [List.append_nil] at h
  exact h

theorem Cursor.sound_start {m : Mode} (h : ∀ q since, m = .triple q since → isQuote q = true) :
    ({ mode := m } : Cursor).Sound := ⟨h, fun _ => rfl⟩

/-- The cursor at the start of a line is sound. -/
theorem sound_scanLines (language : Language) (number : Nat) {mode : Mode}
    (h : ({ mode } : Cursor).Sound) (texts : List (List Char)) :
    ({ mode := (scanLines language number mode texts).2 } : Cursor).Sound := by
  induction texts generalizing number mode with
  | nil => exact h
  | cons cs rest ih =>
    refine ih (number + 1) (Cursor.sound_start fun q since hmode => ?_)
    have hlast : (({ mode } : Cursor).read language number [] cs).2.Sound := h.read [] cs
    rw [scanFrom_eq_read] at hmode
    dsimp only at hmode
    refine hlast.quotes q since ?_
    cases hm : (({ mode } : Cursor).read language number [] cs).2.mode <;> rw [hm] at hmode <;>
      first | exact hmode | contradiction

/-- The scanner stands in code behind `before` when `ahead` comes next. -/
def InCode (language : Language) (before ahead : List Char) : Prop :=
  ∃ earlier line, before = earlier ++ line ∧ EndsLine earlier ∧ '\n' ∉ line ∧
    let mode := (scanLines language 1 .code (physicalLines earlier)).2
    (({ mode } : Cursor).read language ((physicalLines earlier).length + 1) ahead line).2.mode =
      .code

/-! ### Comments -/

def commentMarker : Language → List Char
  | .python => ['#']
  | .script => ['/', '/']

theorem conclusive_commentMarker (language : Language) : Conclusive (commentMarker language) := by
  cases language with
  | python => exact .inr rfl
  | script => exact .inl (Nat.le_refl 2)

theorem scanFrom_of_remark (language : Language) (number : Nat) {seen : List Char}
    (hseen : seen ≠ []) (cs : List Char) :
    scanFrom language number { mode := .remark, seen } cs =
      ([⟨.comment, seen.reverse ++ cs⟩], .code) := by
  induction cs generalizing seen with
  | nil =>
    have hne : seen.isEmpty = false := by simpa using hseen
    simp [scanFrom, cut, hne, Mode.kind, Mode.nextLine]
  | cons c cs ih =>
    have hstep : ({ mode := .remark, seen } : Cursor).step language number c cs =
        ([], { mode := .remark, seen := c :: seen }) := rfl
    unfold scanFrom
    rw [hstep]
    dsimp only
    rw [ih (List.cons_ne_nil c seen)]
    simp

/-- A comment in code reaches to the end of its line, whatever it says. -/
theorem scanFrom_comment {language : Language} {number : Nat} {k : Cursor} (hk : k.Sound)
    (hmode : k.mode = .code) (cs : List Char) :
    scanFrom language number k (commentMarker language ++ cs) =
      (cut .code k.seen ++ [⟨.comment, commentMarker language ++ cs⟩], .code) := by
  have hstep (c : Char) (rest : List Char) (h : opening language number c rest = .opens .remark 1) :
      k.step language number c rest = (cut .code k.seen, { mode := .remark, seen := [c] }) := by
    unfold Cursor.step
    rw [hk.passing hmode, hmode]
    dsimp only
    rw [show lexeme language number c rest .code = opening language number c rest from rfl, h]
    rfl
  cases language with
  | python =>
    have hremark := scanFrom_of_remark .python number (List.cons_ne_nil '#' []) cs
    rw [commentMarker, List.cons_append, scanFrom, hstep '#' _ rfl]
    dsimp only
    rw [List.nil_append, hremark]
    rfl
  | script =>
    have hremark := scanFrom_of_remark .script number (List.cons_ne_nil '/' [])
      ('/' :: cs)
    rw [commentMarker, List.cons_append, scanFrom, hstep '/' _ rfl]
    dsimp only
    rw [List.cons_append, List.nil_append, hremark]
    rfl

end EndpointCensus
