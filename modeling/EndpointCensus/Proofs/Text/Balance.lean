import EndpointCensus.Proofs.Text.Word

/-!
Brackets in a text of code. Reading a text counts how deep its brackets go and how many semicolons
stand outside of them; a closer without an opener counts for nothing. White space and backslashes
have no part in this, so a text can be trimmed, joined and continued without a change to its count.
-/

namespace EndpointCensus

structure Balance where
  depth : Nat := 0
  /-- The greatest depth so far. -/
  peak : Nat := 0
  /-- The semicolons outside of brackets. -/
  breaks : Nat := 0
  deriving DecidableEq, Repr

namespace Balance

def step (b : Balance) (c : Char) : Balance :=
  if Text.isOpener c then { b with depth := b.depth + 1, peak := max b.peak (b.depth + 1) }
  else if Text.isCloser c then { b with depth := b.depth - 1 }
  else if c == ';' && b.depth == 0 then { b with breaks := b.breaks + 1 }
  else b

def read (b : Balance) (cs : List Char) : Balance := cs.foldl step b

@[simp] theorem read_nil (b : Balance) : b.read [] = b := rfl

@[simp] theorem read_cons (b : Balance) (c : Char) (cs : List Char) :
    b.read (c :: cs) = (b.step c).read cs := rfl

@[simp] theorem read_append (b : Balance) (xs ys : List Char) :
    b.read (xs ++ ys) = (b.read xs).read ys :=
  List.foldl_append

theorem step_opener (b : Balance) {c : Char} (h : Text.isOpener c = true) :
    b.step c = { b with depth := b.depth + 1, peak := max b.peak (b.depth + 1) } := if_pos h

end Balance

namespace Text

theorem isOpener_eq_false_of_isCloser {c : Char} (h : isCloser c = true) : isOpener c = false := by
  unfold isCloser at h
  simp only [Bool.or_eq_true, beq_iff_eq] at h
  rcases h with (rfl | rfl) | rfl <;> rfl

def isMark (c : Char) : Bool := isOpener c || isCloser c || c == ';'

def marks (cs : List Char) : List Char := cs.filter isMark

@[simp] theorem marks_append (xs ys : List Char) : marks (xs ++ ys) = marks xs ++ marks ys :=
  List.filter_append ..

@[simp] theorem marks_reverse (cs : List Char) :
    marks cs.reverse = (marks cs).reverse := List.filter_reverse ..

theorem marks_cons_of_not {c : Char} (h : isMark c = false) (cs : List Char) :
    marks (c :: cs) = marks cs := by
  rw [marks, List.filter_cons_of_neg (by simp [h]), marks]

theorem isMark_of_isBlank {c : Char} (h : isBlank c = true) : isMark c = false := by
  rw [Bool.eq_false_iff]
  intro hmark
  unfold isMark isOpener isCloser at hmark
  simp only [Bool.or_eq_true, beq_iff_eq] at hmark
  rcases hmark with (((rfl | rfl) | rfl) | (rfl | rfl) | rfl) | rfl <;> contradiction

@[simp] theorem marks_trimStart (cs : List Char) : marks (trimStart cs) = marks cs :=
  filter_trimStart (fun _ => isMark_of_isBlank) cs

end Text

namespace Balance

theorem step_of_not_isMark (b : Balance) {c : Char} (h : Text.isMark c = false) : b.step c = b := by
  unfold Text.isMark at h
  simp only [Bool.or_eq_false_iff] at h
  simp [step, h]

theorem step_closer (b : Balance) {c : Char} (h : Text.isCloser c = true) :
    b.step c = { b with depth := b.depth - 1 } := by
  rw [step, Text.isOpener_eq_false_of_isCloser h, if_neg Bool.false_ne_true, if_pos h]

/-- Only what counts is looked at. -/
theorem read_marks (b : Balance) (cs : List Char) : b.read (Text.marks cs) = b.read cs := by
  induction cs generalizing b with
  | nil => rfl
  | cons c cs ih =>
    cases hc : Text.isMark c with
    | false => rw [Text.marks_cons_of_not hc, read_cons, b.step_of_not_isMark hc, ih]
    | true => rw [Text.marks, List.filter_cons_of_pos hc, read_cons, read_cons, ← ih, Text.marks]

theorem read_eq_of_marks (b : Balance) {xs ys : List Char} (h : Text.marks xs = Text.marks ys) :
    b.read xs = b.read ys := by
  rw [← b.read_marks xs, h, b.read_marks]

/-- A semicolon that was counted stays counted. -/
theorem breaks_le_read (b : Balance) (cs : List Char) : b.breaks ≤ (b.read cs).breaks := by
  induction cs generalizing b with
  | nil => exact Nat.le_refl _
  | cons c cs ih =>
    have hstep : b.breaks ≤ (b.step c).breaks := by
      unfold step
      repeat' split
      all_goals simp
    exact Nat.le_trans hstep (ih (b.step c))

/-- No semicolon of the text stands outside of brackets. -/
def Encloses (b : Balance) (cs : List Char) : Prop := (b.read cs).breaks = b.breaks

variable {b : Balance} {c : Char} {cs : List Char}

theorem encloses_append {xs ys : List Char} :
    b.Encloses (xs ++ ys) ↔ b.Encloses xs ∧ (b.read xs).Encloses ys := by
  have hxs := b.breaks_le_read xs
  have hys := (b.read xs).breaks_le_read ys
  unfold Encloses
  rw [read_append]
  omega

theorem encloses_cons : b.Encloses (c :: cs) ↔ b.Encloses [c] ∧ (b.step c).Encloses cs :=
  @encloses_append b [c] cs

theorem encloses_opener (h : Text.isOpener c = true) : b.Encloses [c] := by
  rw [Encloses, read_cons, read_nil, b.step_opener h]

theorem encloses_closer (h : Text.isCloser c = true) : b.Encloses [c] := by
  rw [Encloses, read_cons, read_nil, b.step_closer h]

theorem Encloses.not_break (h : b.Encloses [c]) (hopener : Text.isOpener c = false)
    (hcloser : Text.isCloser c = false) :
    (c == ';' && b.depth == 0) = false := by
  rw [Bool.eq_false_iff]
  intro hbreak
  have hstep : b.step c = { b with breaks := b.breaks + 1 } := by
    simp only [step, hopener, hcloser, hbreak]; rfl
  have hcount : (b.step c).breaks = b.breaks := h
  rw [hstep] at hcount
  exact Nat.succ_ne_self _ hcount

theorem Encloses.step_eq (h : b.Encloses [c]) (hopener : Text.isOpener c = false)
    (hcloser : Text.isCloser c = false) : b.step c = b := by
  simp [step, hopener, hcloser, h.not_break hopener hcloser]

theorem encloses_of_not_mem (h : ';' ∉ cs) : b.Encloses cs := by
  induction cs generalizing b with
  | nil => rfl
  | cons c cs ih =>
    obtain ⟨hc, hcs⟩ := not_or.mp (mt List.mem_cons.mpr h)
    refine encloses_cons.mpr ⟨?_, ih hcs⟩
    have hmark : (c == ';' && b.depth == 0) = false := by
      rw [beq_eq_false_iff_ne.mpr (Ne.symm hc), Bool.false_and]
    unfold Encloses
    rw [read_cons, read_nil, step, hmark]
    repeat' split
    all_goals first | rfl | contradiction

/-- At depth zero closers count for nothing. -/
theorem read_of_level {b : Balance} (h : b.depth = 0) {cs : List Char}
    (hcs : ∀ c ∈ cs, Text.isOpener c = false ∧ c ≠ ';') : b.read cs = b := by
  induction cs with
  | nil => rfl
  | cons c cs ih =>
    obtain ⟨hopener, hne⟩ := hcs c List.mem_cons_self
    have hstep : b.step c = b := by
      cases b
      obtain rfl : _ = 0 := h
      simp [step, hopener, hne]
    rw [read_cons, hstep]
    exact ih fun d hd => hcs d (List.mem_cons_of_mem c hd)

end Balance

end EndpointCensus
