import EndpointCensus.Proofs.Text.Balance
import EndpointCensus.Proofs.Text.Place
import EndpointCensus.Text.Bracket

/-!
Matching brackets. The search for the bracket that closes another one counts like the balance
of the text: it either meets a closer at its own depth, or reads on at a depth that the
balance cannot fall below.
-/

namespace EndpointCensus

namespace Text

/-- A round, square or curly bracket. -/
def isBracket (c : Char) : Bool := isOpener c || isCloser c

theorem utf8Size_of_isOpener {c : Char} (h : isOpener c = true) : c.utf8Size = 1 := by
  unfold isOpener at h
  simp only [Bool.or_eq_true, beq_iff_eq] at h
  rcases h with (rfl | rfl) | rfl <;> rfl

theorem closingFrom_opener {c : Char} (h : isOpener c = true) (pos depth : Nat) (cs : List Char) :
    closingFrom pos depth (c :: cs) = closingFrom (pos + c.utf8Size) (depth + 1) cs := if_pos h

theorem closingFrom_closer {c : Char} (h : isCloser c = true) (pos depth : Nat) (cs : List Char) :
    closingFrom pos (depth + 1) (c :: cs) =
      if depth = 0 then some pos else closingFrom (pos + c.utf8Size) depth cs := by
  have hopener : ¬isOpener c = true := by simp [isOpener_eq_false_of_isCloser h]
  cases depth with
  | zero => exact (if_neg hopener).trans (if_pos h)
  | succ depth => exact (if_neg hopener).trans (if_pos h)

theorem closingFrom_other {c : Char} (h : isBracket c = false) (pos depth : Nat) (cs : List Char) :
    closingFrom pos depth (c :: cs) = closingFrom (pos + c.utf8Size) depth cs := by
  obtain ⟨hopener, hcloser⟩ := Bool.or_eq_false_iff.mp h
  exact (if_neg (by simp [hopener])).trans (if_neg (by simp [hcloser]))

/-- Text without brackets is passed over. -/
theorem closingFrom_append {xs : List Char} (h : ∀ c ∈ xs, isBracket c = false) (pos depth : Nat)
    (ys : List Char) :
    closingFrom pos depth (xs ++ ys) = closingFrom (pos + width xs) depth ys := by
  induction xs generalizing pos with
  | nil => rfl
  | cons c xs ih =>
    rw [List.cons_append, closingFrom_other (h c List.mem_cons_self),
      ih fun d hd => h d (List.mem_cons_of_mem c hd), width_cons, Nat.add_assoc]

theorem findMatching_append {c : Char} (h : isOpener c = true) (xs ys : List Char) :
    findMatching (xs ++ c :: ys) (width xs) = closingFrom (width xs + 1) 1 ys := by
  rw [findMatching, seek_append, Nat.zero_add]
  dsimp only
  rw [closingFrom_opener h, utf8Size_of_isOpener h]

/-- The search for the closer of the bracket at depth `depth` ends in the text or
goes on behind it. -/
def Matches (cs : List Char) (pos depth : Nat) : Prop :=
  (∃ xs c ys, cs = xs ++ c :: ys ∧ isCloser c = true ∧
      ∀ more, closingFrom pos (depth + 1) (cs ++ more) = some (pos + width xs)) ∨
    ∃ depth', (∀ more, closingFrom pos (depth + 1) (cs ++ more) =
      closingFrom (pos + width cs) (depth' + 1) more) ∧ ∀ b : Balance, depth < b.depth →
      depth' < (b.read cs).depth

/-- A character that the search passes over. -/
theorem Matches.cons {c : Char} {cs : List Char} {pos depth next : Nat}
    (h : Matches cs (pos + c.utf8Size) next)
    (hstep : ∀ more, closingFrom pos (depth + 1) (c :: cs ++ more) =
      closingFrom (pos + c.utf8Size) (next + 1) (cs ++ more))
    (hdepth : ∀ b : Balance, depth < b.depth → next < (b.step c).depth) :
    Matches (c :: cs) pos depth := by
  rcases h with ⟨xs, d, ys, rfl, hd, hfound⟩ | ⟨depth', hon, hdeeper⟩
  · refine .inl ⟨c :: xs, d, ys, rfl, hd, fun more => ?_⟩
    rw [hstep, hfound, width_cons, Nat.add_assoc]
  · refine .inr ⟨depth', fun more => ?_, fun b hb => hdeeper (b.step c) (hdepth b hb)⟩
    rw [hstep, hon, width_cons, Nat.add_assoc]

theorem matches_text (cs : List Char) (pos depth : Nat) : Matches cs pos depth := by
  induction cs generalizing pos depth with
  | nil => exact .inr ⟨depth, fun _ => rfl, fun _ hb => hb⟩
  | cons c cs ih =>
    cases hopener : isOpener c with
    | true =>
      refine (ih (pos + c.utf8Size) (depth + 1)).cons (fun more => closingFrom_opener hopener _ _ _)
        fun b hb => ?_
      rw [b.step_opener hopener]
      exact Nat.succ_lt_succ hb
    | false =>
      cases hcloser : isCloser c with
      | true =>
        cases depth with
        | zero => exact .inl ⟨[], c, cs, rfl, hcloser, fun more => closingFrom_closer hcloser _ _ _⟩
        | succ depth =>
          refine (ih (pos + c.utf8Size) depth).cons (fun more => closingFrom_closer hcloser _ _ _)
            fun b hb => ?_
          have hstep : (b.step c).depth = b.depth - 1 := by simp [Balance.step, hopener, hcloser]
          omega
      | false =>
        have hother : isBracket c = false := Bool.or_eq_false_iff.mpr ⟨hopener, hcloser⟩
        refine (ih (pos + c.utf8Size) depth).cons (fun more => closingFrom_other hother _ _ _)
          fun b hb => ?_
        have hstep : (b.step c).depth = b.depth := by
          unfold Balance.step
          rw [if_neg (by simp [hopener]), if_neg (by simp [hcloser])]
          split <;> rfl
        rwa [hstep]

end Text

end EndpointCensus
