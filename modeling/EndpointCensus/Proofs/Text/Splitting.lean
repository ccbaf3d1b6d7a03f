import EndpointCensus.Text.Name

/-! Texts cut at a character: at all its occurrences, at the first one or at the last one. -/

namespace EndpointCensus.Text

variable {sep : Char}

theorem splitOn_eq (sep : Char) (cs : List Char) : splitOn sep cs = cs.splitOn sep := by
  induction cs with
  | nil => rfl
  | cons c cs ih =>
    rw [splitOn, ih, List.splitOn, List.splitOn, List.splitOnP_cons_eq_if_modifyHead]
    split
    · rfl
    · cases h : List.splitOnP (· == sep) cs with
      | nil => exact absurd h (List.splitOnP_ne_nil _ _)
      | cons part parts => rfl

/-- Parts that were joined are cut apart again. -/
theorem splitOn_intercalate {parts : List (List Char)} (hne : parts ≠ [])
    (h : ∀ s ∈ parts, sep ∉ s) : splitOn sep ([sep].intercalate parts) = parts := by
  rw [splitOn_eq, List.splitOn_intercalate sep h hne]

theorem splitOn_append (xs ys : List Char) :
    splitOn sep (xs ++ sep :: ys) = splitOn sep xs ++ splitOn sep ys := by
  rw [splitOn_eq, splitOn_eq, splitOn_eq]
  exact List.splitOnP_append_cons xs ys (beq_self_eq_true sep)

theorem splitFirst?_eq_none {cs : List Char} (h : sep ∉ cs) : splitFirst? sep cs = none := by
  induction cs with
  | nil => rfl
  | cons c cs ih =>
    have hc : c ≠ sep := fun hc => h (hc ▸ List.mem_cons_self)
    simp [splitFirst?, hc, ih fun hcs => h (List.mem_cons_of_mem c hcs)]

theorem splitFirst?_append {xs : List Char} (h : sep ∉ xs) (ys : List Char) :
    splitFirst? sep (xs ++ sep :: ys) = some (xs, ys) := by
  induction xs with
  | nil => simp [splitFirst?]
  | cons c xs ih =>
    have hc : c ≠ sep := fun hc => h (hc ▸ List.mem_cons_self)
    simp [splitFirst?, hc, ih fun hxs => h (List.mem_cons_of_mem c hxs)]

theorem splitLast?_eq_none {cs : List Char} (h : sep ∉ cs) : splitLast? sep cs = none := by
  induction cs with
  | nil => rfl
  | cons c cs ih =>
    have hc : c ≠ sep := fun hc => h (hc ▸ List.mem_cons_self)
    simp [splitLast?, hc, ih fun hcs => h (List.mem_cons_of_mem c hcs)]

theorem splitLast?_append (xs : List Char) {ys : List Char} (h : sep ∉ ys) :
    splitLast? sep (xs ++ sep :: ys) = some (xs, ys) := by
  induction xs with
  | nil => simp [splitLast?, splitLast?_eq_none h]
  | cons c xs ih => simp [splitLast?, ih]

theorem not_mem_of_splitLast?_eq_none {cs : List Char} (h : splitLast? sep cs = none) :
    sep ∉ cs := by
  induction cs with
  | nil => exact List.not_mem_nil
  | cons c cs ih =>
    cases hrest : splitLast? sep cs with
    | some r => simp [splitLast?, hrest] at h
    | none =>
      have hc : c ≠ sep := by simpa [splitLast?, hrest] using h
      exact List.not_mem_cons_of_ne_of_not_mem (Ne.symm hc) (ih hrest)

theorem eq_of_splitLast? {cs xs ys : List Char} (h : splitLast? sep cs = some (xs, ys)) :
    cs = xs ++ sep :: ys ∧ sep ∉ ys := by
  induction cs generalizing xs with
  | nil => contradiction
  | cons c cs ih =>
    cases hrest : splitLast? sep cs with
    | some r =>
      obtain ⟨before, after⟩ := r
      have heq : c :: before = xs ∧ after = ys := by simpa [splitLast?, hrest] using h
      obtain ⟨rfl, rfl⟩ := heq
      obtain ⟨hcs, hafter⟩ := ih hrest
      exact ⟨by rw [hcs, List.cons_append], hafter⟩
    | none =>
      have heq : c = sep ∧ [] = xs ∧ cs = ys := by simpa [splitLast?, hrest] using h
      obtain ⟨rfl, rfl, rfl⟩ := heq
      exact ⟨rfl, not_mem_of_splitLast?_eq_none hrest⟩

end EndpointCensus.Text
