import EndpointCensus.Line.Scan

/-!
The lines of a text that is put below another one. Only the line numbers tell where a line stands: a
text that is scanned from a later line on has the same lines further down. A text that ends in a
line break leaves the scanner at the start of a line, so where nothing stays open the lines of what
follows are those it has by itself.
-/

namespace EndpointCensus

/-! ### Line breaks -/

/-- The text is empty or ends in a line break. -/
def EndsLine (cs : List Char) : Prop := cs = [] ∨ cs.getLast? = some '\n'

theorem linesFrom_append {seen xs : List Char} (hne : xs ≠ []) (h : xs.getLast? = some '\n')
    (ys : List Char) : linesFrom seen (xs ++ ys) = linesFrom seen xs ++ linesFrom [] ys := by
  induction xs generalizing seen with
  | nil => contradiction
  | cons c xs ih =>
    rcases xs.eq_nil_or_concat with rfl | ⟨_, _, hxs⟩
    · have hc : c = '\n' := Option.some.inj h
      simp [linesFrom, hc]
    · have hne : xs ≠ [] := by simp [hxs]
      have hlast : xs.getLast? = some '\n' := by rwa [List.getLast?_cons_of_ne_nil hne] at h
      by_cases hc : c = '\n'
      · simp [linesFrom, hc, ih hne hlast]
      · simp [linesFrom, hc, ih hne hlast]

theorem physicalLines_append {xs : List Char} (h : EndsLine xs) (ys : List Char) :
    physicalLines (xs ++ ys) = physicalLines xs ++ physicalLines ys := by
  rcases h with rfl | h
  · rfl
  · have hne : xs ≠ [] := by
      rintro rfl
      contradiction
    exact linesFrom_append hne h ys

/-! ### Scanning lines one after the other -/

theorem scanLines_append (language : Language) (number : Nat) (mode : Mode)
    (xs ys : List (List Char)) : scanLines language number mode (xs ++ ys) =
      let first := scanLines language number mode xs
      let second := scanLines language (number + xs.length) first.2 ys
      (first.1 ++ second.1, second.2) := by
  induction xs generalizing number mode with
  | nil => rfl
  | cons cs rest ih => simp [scanLines, ih, Nat.add_comm, Nat.add_left_comm]

theorem map_number_scanLines (language : Language) (number : Nat) (mode : Mode)
    (texts : List (List Char)) :
    (scanLines language number mode texts).1.map Line.number = List.range' number texts.length := by
  induction texts generalizing number mode with
  | nil => rfl
  | cons cs rest ih => exact congrArg (number :: ·) (ih (number + 1) _)

theorem number_lt_of_mem_scanLines {language : Language} {number : Nat} {mode : Mode}
    {texts : List (List Char)} {l : Line} (h : l ∈ (scanLines language number mode texts).1) :
    l.number < number + texts.length := by
  induction texts generalizing number mode with
  | nil => exact absurd h List.not_mem_nil
  | cons cs rest ih =>
    rw [List.length_cons]
    rcases List.mem_cons.mp h with rfl | h
    · have hnumber : (Line.ofSegments number mode (scanFrom language number { mode } cs).2
          (scanFrom language number { mode } cs).1).number = number := rfl
      omega
    · have := ih h
      omega

/-- A line that is tagged as a comment has nothing else on it. -/
theorem hasContent_of_mem_scanLines {language : Language} {number : Nat} {mode : Mode}
    {texts : List (List Char)} {l : Line} (hl : l ∈ (scanLines language number mode texts).1)
    (htag : l.tag = .comment) : l.hasContent = false := by
  induction texts generalizing number mode with
  | nil => exact absurd hl List.not_mem_nil
  | cons cs rest ih =>
    rcases List.mem_cons.mp hl with rfl | hl
    · unfold Line.ofSegments at htag
      unfold Line.hasContent
      dsimp only at htag ⊢
      split at htag
      · contradiction
      · split at htag
        · next h => exact (Bool.not_eq_true' _).mp (Bool.and_eq_true_iff.mp h).1
        · contradiction
    · exact ih hl

/-! ### The mode between lines -/

theorem Mode.nextLine_idem (m : Mode) : m.nextLine.nextLine = m.nextLine := by
  cases m <;> rfl

theorem nextLine_scanFrom (language : Language) (number : Nat) (k : Cursor) (cs : List Char) :
    (scanFrom language number k cs).2.nextLine = (scanFrom language number k cs).2 := by
  induction cs generalizing k with
  | nil => exact k.mode.nextLine_idem
  | cons c rest ih => exact ih (k.step language number c rest).2

theorem nextLine_scanLines {language : Language} {number : Nat} {mode : Mode}
    (texts : List (List Char)) (h : mode.nextLine = mode) :
    (scanLines language number mode texts).2.nextLine =
      (scanLines language number mode texts).2 := by
  induction texts generalizing number mode with
  | nil => exact h
  | cons cs rest ih => exact ih (nextLine_scanFrom language number { mode } cs)

/-- Between lines, a mode that is not left open is that of code. -/
theorem Mode.eq_code {m : Mode} (hnext : m.nextLine = m) (hclosed : m.unclosed = none) :
    m = .code := by
  cases m <;> first | rfl | contradiction

/-! ### Line numbers -/

/-- The mode of a scan that started `n` lines further down. -/
def Mode.below (n : Nat) : Mode → Mode
  | triple quote since => triple quote (since + n)
  | template since => template (since + n)
  | block since => block (since + n)
  | m => m

/-- The same line `n` lines further down. -/
def Line.below (n : Nat) (l : Line) : Line := { l with number := l.number + n }

def Cursor.below (n : Nat) (k : Cursor) : Cursor := { k with mode := k.mode.below n }

def Lexeme.below (n : Nat) : Lexeme → Lexeme
  | opens mode size => opens (mode.below n) size
  | x => x

variable (n : Nat)

@[simp] theorem Mode.kind_below (m : Mode) : (m.below n).kind = m.kind := by cases m <;> rfl

@[simp] theorem Mode.nextLine_below (m : Mode) :
    (m.below n).nextLine = m.nextLine.below n := by cases m <;> rfl

@[simp] theorem Mode.isOpenLiteral_below (m : Mode) :
    (m.below n).isOpenLiteral = m.isOpenLiteral := by
  cases m <;> rfl

@[simp] theorem Mode.unclosed_below (m : Mode) :
    (m.below n).unclosed = m.unclosed.map fun p => (p.1 + n, p.2) := by
  cases m <;> rfl

theorem opening_below (language : Language) (number : Nat) (c : Char) (rest : List Char) :
    opening language (number + n) c rest = (opening language number c rest).below n := by
  unfold opening
  cases language <;> dsimp only <;> repeat' split
  all_goals rfl

theorem lexeme_below (language : Language) (number : Nat) (c : Char) (rest : List Char) (m : Mode) :
    lexeme language (number + n) c rest (m.below n) =
      (lexeme language number c rest m).below n := by
  cases m with
  | code => exact opening_below n language number c rest
  | _ =>
    unfold lexeme Mode.below
    dsimp only
    repeat' split
    all_goals rfl

theorem Cursor.take_below (k : Cursor) (c : Char) (left : Nat) (closing : Bool) :
    (k.below n).take c left closing =
      ((k.take c left closing).1, (k.take c left closing).2.below n) := by
  unfold take
  split
  · rw [Cursor.below, Mode.kind_below]
    rfl
  · rfl

theorem Cursor.step_below (language : Language) (number : Nat) (k : Cursor) (c : Char)
    (rest : List Char) : (k.below n).step language (number + n) c rest =
      ((k.step language number c rest).1, (k.step language number c rest).2.below n) := by
  unfold step
  have hpassing : (k.below n).passing = k.passing := rfl
  have hmode : (k.below n).mode = k.mode.below n := rfl
  rw [hpassing]
  cases k.passing with
  | succ left => exact k.take_below n c left k.closing
  | zero =>
    dsimp only
    rw [hmode, lexeme_below]
    cases lexeme language number c rest k.mode with
    | plain => exact k.take_below n c 0 false
    | escape => exact k.take_below n c 1 false
    | closes size => exact k.take_below n c (size - 1) true
    | opens mode size => simp [Lexeme.below, Cursor.below]

theorem scanFrom_below (language : Language) (number : Nat) (k : Cursor) (cs : List Char) :
    scanFrom language (number + n) (k.below n) cs =
      ((scanFrom language number k cs).1, (scanFrom language number k cs).2.below n) := by
  induction cs generalizing k with
  | nil => simp [scanFrom, Cursor.below]
  | cons c rest ih => simp [scanFrom, Cursor.step_below, ih]

theorem scanLines_below (language : Language) (number : Nat) (mode : Mode)
    (texts : List (List Char)) : scanLines language (number + n) (mode.below n) texts =
      ((scanLines language number mode texts).1.map (Line.below n),
        (scanLines language number mode texts).2.below n) := by
  induction texts generalizing number mode with
  | nil => rfl
  | cons cs rest ih =>
    have hscan : scanFrom language (number + n) { mode := mode.below n } cs = _ :=
      scanFrom_below n language number { mode } cs
    have hrest := ih (number + 1) (scanFrom language number { mode } cs).2
    rw [Nat.add_right_comm] at hrest
    simp only [scanLines, hscan, hrest, List.map_cons]
    simp [Line.ofSegments, Line.below]

/-! ### A text below another one -/

/-- The lines of a text below one that leaves nothing open are its own lines, further down. -/
theorem classify_append {language : Language} {xs : List Char} (hxs : EndsLine xs)
    (hclosed : (classify language xs).unterminated = none) (ys : List Char) :
    let n := (physicalLines xs).length
    classify language (xs ++ ys) = {
      lines := (classify language xs).lines ++ (classify language ys).lines.map (Line.below n)
      unterminated := (classify language ys).unterminated.map fun p => (p.1 + n, p.2) } := by
  intro n
  have hmode : (scanLines language 1 .code (physicalLines xs)).2 = .code :=
    Mode.eq_code (nextLine_scanLines _ rfl) hclosed
  have hbelow := scanLines_below n language 1 .code (physicalLines ys)
  rw [show Mode.below n .code = .code from rfl] at hbelow
  simp only [classify, physicalLines_append hxs, scanLines_append, hmode, hbelow,
    Mode.unclosed_below, n]

/-- Line numbers start at one. -/
theorem pos_of_unterminated {language : Language} {cs : List Char} {limit : Nat} {what : Unclosed}
    (h : (classify language cs).unterminated = some (limit, what)) : 0 < limit := by
  have hbelow := scanLines_below 1 language 0 .code (physicalLines cs)
  rw [Nat.zero_add, show Mode.below 1 .code = .code from rfl] at hbelow
  simp only [classify, hbelow, Mode.unclosed_below, Option.map_eq_some_iff, Prod.mk.injEq] at h
  obtain ⟨p, -, hp, -⟩ := h
  omega

end EndpointCensus
