import EndpointCensus.Proofs.Line.Literal
import EndpointCensus.Proofs.Statement.Quoted
import EndpointCensus.Proofs.Text.Place

/-!
Masked literals. Masking takes as many bytes at either end of a literal for delimiters as it begins
with. Of a literal that is closed this leaves the delimiters. A literal that is left open has none
at its end, so its last byte shows where that is a character of its own.
-/

namespace EndpointCensus

inductive Veiled : List Char → List Char → Prop
  | closed {q : Char} {n : Nat} {interior : List Char} (hq : isDelimiter q = true)
      (hn : delimiterLength (List.replicate n q ++ (interior ++ List.replicate n q)) = n) :
      Veiled (List.replicate n q ++ (interior ++ List.replicate n q))
        (List.replicate n q ++ (List.replicate (Text.width interior) '_' ++ List.replicate n q))
  /-- Nothing but the quote that opens it. -/
  | quote {q : Char} (hq : isQuote q = true) : Veiled [q] [q]
  /-- The last character is no delimiter. -/
  | leftOpen {q c : Char} (interior : List Char) (hq : isQuote q = true) (hc : c ≠ q) :
      Veiled (q :: (interior ++ [c])) (q :: (List.replicate (Text.width interior) '_' ++
        if c.utf8Size = 1 then [c] else List.replicate c.utf8Size '_'))

/-! ### Runs of characters -/

section Runs

variable {first last pos : Nat}

theorem veilFrom_append (xs ys : List Char) :
    veilFrom first last pos (xs ++ ys) = veilFrom first last pos xs ++
      veilFrom first last (pos + Text.width xs) ys := by
  induction xs generalizing pos with
  | nil => rfl
  | cons c xs ih => simp [veilFrom, ih, Nat.add_assoc]

/-- What ends before the veil begins shows. -/
theorem maskedText_veilFrom_before {cs : List Char} (h : pos + Text.width cs ≤ first) :
    maskedText (veilFrom first last pos cs) = cs := by
  induction cs generalizing pos with
  | nil => rfl
  | cons c cs ih =>
    have hpos := c.utf8Size_pos
    rw [Text.width_cons] at h
    have hshown : (decide (first ≤ pos) && decide (pos < last)) = false := by
      rw [Bool.and_eq_false_iff, decide_eq_false_iff_not]
      exact .inl (by omega)
    rw [veilFrom, hshown, maskedText, ih (by omega)]
    rfl

theorem maskedText_veilFrom_inside {cs : List Char} (hfirst : first ≤ pos)
    (hlast : pos + Text.width cs ≤ last) :
    maskedText (veilFrom first last pos cs) = List.replicate (Text.width cs) '_' := by
  induction cs generalizing pos with
  | nil => rfl
  | cons c cs ih =>
    have hpos := c.utf8Size_pos
    rw [Text.width_cons] at hlast
    have hveiled : (decide (first ≤ pos) && decide (pos < last)) = true := by
      rw [Bool.and_eq_true, decide_eq_true_eq, decide_eq_true_eq]
      omega
    rw [veilFrom, hveiled, maskedText, ih (by omega) (by omega), Text.width_cons,
      List.replicate_add]
    rfl

/-- What begins after the veil ends shows. -/
theorem maskedText_veilFrom_after {cs : List Char} (h : last ≤ pos) :
    maskedText (veilFrom first last pos cs) = cs := by
  induction cs generalizing pos with
  | nil => rfl
  | cons c cs ih =>
    have hshown : (decide (first ≤ pos) && decide (pos < last)) = false := by
      rw [Bool.and_eq_false_iff, decide_eq_false_iff_not (p := pos < last)]
      exact .inr (by omega)
    rw [veilFrom, hshown, maskedText, ih (by omega)]
    rfl

end Runs

/-! ### Literals -/

theorem utf8Size_of_isDelimiter {q : Char} (h : isDelimiter q = true) : q.utf8Size = 1 := by
  unfold isDelimiter isQuote at h
  simp only [Bool.or_eq_true, beq_iff_eq] at h
  rcases h with (rfl | rfl) | rfl <;> rfl

theorem width_replicate_of_isDelimiter {q : Char} (h : isDelimiter q = true) (n : Nat) :
    Text.width (List.replicate n q) = n := by
  induction n with
  | zero => rfl
  | succ n ih =>
    rw [List.replicate_succ, Text.width_cons, ih, utf8Size_of_isDelimiter h, Nat.add_comm]

theorem veiled_closed {q : Char} {n : Nat} {interior : List Char} (hq : isDelimiter q = true)
    (hn : delimiterLength (List.replicate n q ++ (interior ++ List.replicate n q)) = n) :
    Veiled (List.replicate n q ++ (interior ++ List.replicate n q))
      (maskedText (veilLiteral (List.replicate n q ++ (interior ++ List.replicate n q)))) := by
  have hwidth := width_replicate_of_isDelimiter hq n
  have hmask := Veiled.closed hq hn
  rw [veilLiteral, hn, veilFrom_append, veilFrom_append, Draft.maskedText_append,
    Draft.maskedText_append, maskedText_veilFrom_before (by omega),
    maskedText_veilFrom_inside (by omega) (by simp; omega),
    maskedText_veilFrom_after (by simp; omega)]
  exact hmask

theorem veiled_leftOpen {q c : Char} {interior : List Char} (hq : isQuote q = true) (hc : c ≠ q)
    (hlength : delimiterLength (q :: (interior ++ [c])) = 1) :
    Veiled (q :: (interior ++ [c])) (maskedText (veilLiteral (q :: (interior ++ [c])))) := by
  have hsize : q.utf8Size = 1 := utf8Size_of_isDelimiter (isDelimiter_of_isQuote hq)
  have hpos := c.utf8Size_pos
  have hmask := Veiled.leftOpen interior hq hc
  have hlast : maskedText (veilFrom 1 (Text.width (q :: (interior ++ [c])) - 1)
      (1 + Text.width interior) [c]) =
      if c.utf8Size = 1 then [c] else List.replicate c.utf8Size '_' := by
    split
    · refine maskedText_veilFrom_after ?_
      simp only [Text.width_cons, Text.width_append, Text.width_nil]
      omega
    · have hveiled : (decide (1 ≤ 1 + Text.width interior) &&
          decide (1 + Text.width interior < Text.width (q :: (interior ++ [c])) - 1)) = true := by
        rw [Bool.and_eq_true, decide_eq_true_eq, decide_eq_true_eq]
        simp only [Text.width_cons, Text.width_append, Text.width_nil]
        omega
      rw [veilFrom, hveiled]
      exact List.append_nil _
  have hfront : maskedText (veilFrom 1 (Text.width (q :: (interior ++ [c])) - 1) 0 [q]) = [q] :=
    maskedText_veilFrom_before (by simp [hsize])
  have hinterior : maskedText (veilFrom 1 (Text.width (q :: (interior ++ [c])) - 1) 1 interior) =
      List.replicate (Text.width interior) '_' := by
    refine maskedText_veilFrom_inside (Nat.le_refl 1) ?_
    simp only [Text.width_cons, Text.width_append, Text.width_nil]
    omega
  have hsplit (last : Nat) : veilFrom 1 last 0 (q :: (interior ++ [c])) =
      veilFrom 1 last 0 [q] ++ (veilFrom 1 last 1 interior ++
        veilFrom 1 last (1 + Text.width interior) [c]) := by
    rw [← veilFrom_append]
    have happend : veilFrom 1 last 0 ([q] ++ (interior ++ [c])) = _ :=
      veilFrom_append [q] (interior ++ [c])
    rwa [Text.width_cons, hsize] at happend
  rw [veilLiteral, hlength, hsplit, Draft.maskedText_append, Draft.maskedText_append, hfront,
    hinterior, hlast]
  exact hmask

theorem delimiterLength_triple {q : Char} (hq : isQuote q = true) (cs : List Char) :
    delimiterLength (List.replicate 3 q ++ cs) = 3 := by
  unfold isQuote at hq
  simp only [Bool.or_eq_true, beq_iff_eq] at hq
  rcases hq with rfl | rfl <;> rfl

/-- Literals are masked but for their delimiters and for the last byte of those
that are left open. -/
theorem IsLiteral.veiled {cs : List Char} (h : IsLiteral cs) :
    Veiled cs (maskedText (veilLiteral cs)) := by
  cases h with
  | @once q interior hq hlength => exact veiled_closed (n := 1) hq hlength
  | @thrice q interior hq =>
    rw [List.append_assoc]
    exact veiled_closed (isDelimiter_of_isQuote hq) (delimiterLength_triple hq _)
  | @leftOpen q interior hq hlength =>
    rcases interior.eq_nil_or_concat with rfl | ⟨front, c, rfl⟩
    · rw [veilLiteral, hlength, maskedText_veilFrom_after]
      · exact .quote hq
      · simp [utf8Size_of_isDelimiter (isDelimiter_of_isQuote hq)]
    · rw [List.concat_eq_append] at hlength ⊢
      by_cases hc : c = q
      · subst hc
        exact veiled_closed (n := 1) (isDelimiter_of_isQuote hq) hlength
      · exact veiled_leftOpen hq hc hlength

end EndpointCensus
