import EndpointCensus.Proofs.Text.Matching
import EndpointCensus.Proofs.Text.Word
import Mathlib.Data.List.TakeWhile

/-!
Texts with something written before them or behind them. What is read at a place of a text is read
at the place that is moved when another text stands before it. And a bracket or a list of type
arguments that ends in a text ends there whatever is written behind it, as does every word in a text
that ends in white space.
-/

namespace EndpointCensus.Text

/-! ### A text behind another one -/

theorem charAt?_behind (xs ys : List Char) (n : Nat) :
    charAt? (xs ++ ys) (width xs + n) = charAt? ys n := by
  induction xs with
  | nil => rw [width_nil, Nat.zero_add, List.nil_append]
  | cons c xs ih =>
    rw [List.cons_append, width_cons, Nat.add_assoc, charAt?_cons (Nat.le_add_right _ _),
      Nat.add_sub_cancel_left, ih]

theorem dropBytes_behind (xs ys : List Char) (n : Nat) :
    dropBytes (width xs + n) (xs ++ ys) = dropBytes n ys := by
  induction xs with
  | nil => rw [width_nil, Nat.zero_add, List.nil_append]
  | cons c xs ih =>
    have hpos := c.utf8Size_pos
    obtain ⟨m, hm⟩ : ∃ m, c.utf8Size + (width xs + n) = m + 1 :=
      ⟨c.utf8Size + (width xs + n) - 1, by omega⟩
    rw [List.cons_append, width_cons, Nat.add_assoc, hm, dropBytes, ← hm, Nat.add_sub_cancel_left,
      ih]
    exact fun h => by contradiction

theorem seek_add (p pos n : Nat) (cs : List Char) :
    seek (p + pos) n cs = (p + (seek pos n cs).1, (seek pos n cs).2) := by
  induction cs generalizing pos n with
  | nil => cases n <;> rfl
  | cons c cs ih =>
    cases n with
    | zero => rfl
    | succ n =>
      rw [seek, seek, Nat.add_assoc, ih]
      all_goals exact fun h => by contradiction

theorem seek_behind (pos : Nat) (xs ys : List Char) (n : Nat) :
    seek pos (width xs + n) (xs ++ ys) = seek (pos + width xs) n ys := by
  induction xs generalizing pos with
  | nil => rw [width_nil, Nat.zero_add, Nat.add_zero, List.nil_append]
  | cons c xs ih =>
    have hpos := c.utf8Size_pos
    obtain ⟨m, hm⟩ : ∃ m, c.utf8Size + (width xs + n) = m + 1 :=
      ⟨c.utf8Size + (width xs + n) - 1, by omega⟩
    rw [List.cons_append, width_cons, Nat.add_assoc, hm, seek, ← hm, Nat.add_sub_cancel_left, ih,
      Nat.add_assoc]
    exact fun h => by contradiction

/-- A place is found at its distance from the beginning of the text. -/
theorem seek_zero_behind (xs ys : List Char) (n : Nat) :
    seek 0 (width xs + n) (xs ++ ys) = (width xs + (seek 0 n ys).1, (seek 0 n ys).2) := by
  rw [seek_behind, Nat.zero_add]
  exact seek_add (width xs) 0 n ys

theorem skipAsciiBlanks_behind (xs ys : List Char) (n : Nat) :
    skipAsciiBlanks (xs ++ ys) (width xs + n) = width xs + skipAsciiBlanks ys n := by
  rw [skipAsciiBlanks, skipAsciiBlanks, charAt?_behind, dropBytes_behind]
  cases charAt? ys n with
  | none => rfl
  | some c => exact Nat.add_assoc _ _ _

theorem isBlank_of_isAsciiBlank {c : Char} (h : isAsciiBlank c = true) : isBlank c = true := by
  unfold isAsciiBlank at h
  simp only [Bool.or_eq_true, beq_iff_eq] at h
  rcases h with (((rfl | rfl) | rfl) | rfl) | rfl <;> decide

/-- White space is passed over up to what follows it. -/
theorem skipAsciiBlanks_run {gap : List Char} (xs : List Char)
    (hgap : ∀ c ∈ gap, isAsciiBlank c = true) {rest : List Char}
    (hrest : rest.head?.any isAsciiBlank = false) :
    skipAsciiBlanks (xs ++ (gap ++ rest)) (width xs) = width xs + width gap := by
  have hskip := skipAsciiBlanks_behind xs (gap ++ rest) 0
  rw [Nat.add_zero] at hskip
  rw [hskip, skipAsciiBlanks]
  cases hall : gap ++ rest with
  | nil =>
    obtain ⟨rfl, -⟩ := List.append_eq_nil_iff.mp hall
    rfl
  | cons c cs =>
    have hzero : charAt? (c :: cs) 0 = some c ∧ dropBytes 0 (c :: cs) = gap ++ rest :=
      ⟨rfl, hall.symm⟩
    rw [hzero.1, hzero.2, takeWhile_run hgap hrest, Nat.zero_add]

theorem closingFrom_add (p pos depth : Nat) (cs : List Char) :
    closingFrom (p + pos) depth cs = (closingFrom pos depth cs).map (p + ·) := by
  induction cs generalizing pos depth with
  | nil => rfl
  | cons c cs ih =>
    unfold closingFrom
    rw [Nat.add_assoc]
    split
    · exact ih _ _
    · split
      · split
        · rfl
        · rfl
        · exact ih _ _
      · exact ih _ _

theorem findMatching_behind (xs ys : List Char) (n : Nat) :
    findMatching (xs ++ ys) (width xs + n) = (findMatching ys n).map (width xs + ·) := by
  rw [findMatching, findMatching, seek_zero_behind]
  exact closingFrom_add _ _ _ _

/-- A place that was passed has nothing to say any more. -/
theorem typeArgsFrom_of_le {resume resume' pos : Nat} (h : resume ≤ pos) (h' : resume' ≤ pos)
    (before : Option Char) (depth : Nat) (cs : List Char) :
    typeArgsFrom resume pos before depth cs = typeArgsFrom resume' pos before depth cs := by
  induction cs generalizing pos before depth with
  | nil => rfl
  | cons c cs ih =>
    have hrest (before : Option Char) (depth : Nat) :
        typeArgsFrom resume (pos + c.utf8Size) before depth cs =
          typeArgsFrom resume' (pos + c.utf8Size) before depth cs :=
      ih (by omega) (by omega) before depth
    unfold typeArgsFrom
    simp only [if_neg (Nat.not_lt_of_le h), if_neg (Nat.not_lt_of_le h'), hrest]

theorem typeArgsFrom_add (p resume pos : Nat) (before : Option Char) (depth : Nat)
    (cs : List Char) :
    typeArgsFrom (p + resume) (p + pos) before depth cs =
      (typeArgsFrom resume pos before depth cs).map (p + ·) := by
  induction cs generalizing resume pos before depth with
  | nil => rfl
  | cons c cs ih =>
    unfold typeArgsFrom
    rw [closingFrom_add]
    simp only [Nat.add_lt_add_iff_left, Nat.add_assoc, ih]
    split
    · rfl
    · split
      · rfl
      · split
        · split
          · rfl
          · split <;> rfl
        · split
          · cases closingFrom pos 0 (c :: cs) with
            | none => rfl
            | some close => exact ih (close + 1) _ _ _
          · split <;> rfl

/-- What stands before an angle bracket that opens a list plays no part. -/
theorem typeArgsFrom_opening (pos : Nat) (before before' : Option Char) (cs : List Char) :
    typeArgsFrom 0 pos before 0 ('<' :: cs) = typeArgsFrom 0 pos before' 0 ('<' :: cs) := rfl

theorem skipTypeArgs_behind (xs ys : List Char) (n : Nat) (h : charAt? ys n = some '<') :
    skipTypeArgs (xs ++ ys) (width xs + n) = (skipTypeArgs ys n).map (width xs + ·) := by
  obtain ⟨us, vs, rfl, rfl⟩ := eq_of_charAt? h
  rw [skipTypeArgs, skipTypeArgs, seek_zero_behind, seek_append]
  dsimp only
  rw [typeArgsFrom_opening _ _ (takeBytes (width us) (us ++ '<' :: vs)).getLast?, Nat.zero_add,
    ← typeArgsFrom_add, Nat.add_zero]
  exact typeArgsFrom_of_le (Nat.zero_le _) (Nat.le_add_right _ _) _ _ _

theorem splitFrom_add (sep : Char) (p stop first pos depth : Nat) (cs : List Char) :
    splitFrom sep (p + stop) (p + first) (p + pos) depth cs =
      (splitFrom sep stop first pos depth cs).map fun r => (p + r.1, p + r.2) := by
  induction cs generalizing first pos depth with
  | nil => rfl
  | cons c cs ih =>
    rw [splitFrom, splitFrom]
    simp only [Nat.add_assoc, Nat.add_le_add_iff_left, ih]
    split
    · rfl
    · split
      · rfl
      · split
        · rfl
        · split <;> rfl

theorem splitTopLevel_behind (sep : Char) (xs ys : List Char) (start stop : Nat) :
    splitTopLevel sep (xs ++ ys) (width xs + start) (width xs + stop) =
      (splitTopLevel sep ys start stop).map fun r => (width xs + r.1, width xs + r.2) := by
  rw [splitTopLevel, splitTopLevel, seek_zero_behind]
  exact splitFrom_add sep _ _ _ _ _ _

/-! ### A text before another one -/

/-- A bracket that closes in a text closes there with more text behind it. -/
theorem closingFrom_before {pos depth n : Nat} {xs : List Char}
    (h : closingFrom pos depth xs = some n) (ys : List Char) :
    closingFrom pos depth (xs ++ ys) = some n := by
  induction xs generalizing pos depth with
  | nil => contradiction
  | cons c xs ih =>
    rw [List.cons_append]
    unfold closingFrom at h ⊢
    split at h
    · next hopener => rw [if_pos hopener, ih h]
    · next hopener =>
      rw [if_neg hopener]
      split at h
      · next hcloser =>
        rw [if_pos hcloser]
        split at h
        · contradiction
        · exact h
        · exact ih h
      · next hcloser => rw [if_neg hcloser, ih h]

/-- What is sought out is not lost. -/
theorem width_seek (pos n : Nat) (cs : List Char) :
    (seek pos n cs).1 + width (seek pos n cs).2 = pos + width cs := by
  induction cs generalizing pos n with
  | nil => cases n <;> rfl
  | cons c cs ih =>
    cases n with
    | zero => rfl
    | succ n =>
      rw [seek, ih, width_cons, Nat.add_assoc]
      exact fun h => by contradiction

theorem seek_before {n : Nat} {xs : List Char} (h : n ≤ width xs) (pos : Nat) (ys : List Char) :
    seek pos n (xs ++ ys) = ((seek pos n xs).1, (seek pos n xs).2 ++ ys) := by
  induction xs generalizing pos n with
  | nil =>
    obtain rfl : n = 0 := Nat.le_zero.mp h
    cases ys <;> rfl
  | cons c xs ih =>
    cases n with
    | zero => rfl
    | succ n =>
      rw [width_cons] at h
      rw [List.cons_append, seek, seek, ih (by omega)]
      all_goals exact fun h => by contradiction

theorem findMatching_before {n close : Nat} {xs : List Char} (hn : n ≤ width xs)
    (h : findMatching xs n = some close) (ys : List Char) :
    findMatching (xs ++ ys) n = some close := by
  rw [findMatching] at h ⊢
  rw [seek_before hn]
  exact closingFrom_before h ys

/-- A list of type arguments that ends in a text ends there with more text behind it. -/
theorem typeArgsFrom_before {resume pos depth n : Nat} {before : Option Char} {xs : List Char}
    (h : typeArgsFrom resume pos before depth xs = some n) (ys : List Char) :
    typeArgsFrom resume pos before depth (xs ++ ys) = some n := by
  induction xs generalizing resume pos before depth with
  | nil => contradiction
  | cons c xs ih =>
    rw [List.cons_append]
    unfold typeArgsFrom at h ⊢
    dsimp only at h ⊢
    split at h
    · next hpassed => rw [if_pos hpassed, ih h]
    · next hpassed =>
      rw [if_neg hpassed]
      split at h
      · next hopens => rw [if_pos hopens, ih h]
      · next hopens =>
        rw [if_neg hopens]
        split at h
        · next hcloses =>
          rw [if_pos hcloses]
          split at h
          · next harrow => rw [if_pos harrow, ih h]
          · next harrow =>
            rw [if_neg harrow]
            split at h
            · contradiction
            · exact h
            · exact ih h
        · next hcloses =>
          rw [if_neg hcloses]
          split at h
          · next hopener =>
            rw [if_pos hopener]
            split at h
            · next close hclose =>
              rw [← List.cons_append, closingFrom_before hclose ys]
              exact ih h
            · contradiction
          · next hopener =>
            rw [if_neg hopener]
            split at h
            · contradiction
            · next hstops => rw [if_neg hstops, ih h]

/-- The ranges before a place do not depend on what is written behind it. -/
theorem splitFrom_before {sep : Char} {stop first pos depth : Nat} {xs : List Char}
    (hstop : stop ≤ pos + width xs) (ys : List Char) :
    splitFrom sep stop first pos depth (xs ++ ys) = splitFrom sep stop first pos depth xs := by
  induction xs generalizing first pos depth with
  | nil =>
    cases ys with
    | nil => rfl
    | cons c ys => exact if_pos hstop
  | cons c xs ih =>
    rw [width_cons, ← Nat.add_assoc] at hstop
    rw [List.cons_append, splitFrom, splitFrom]
    simp only [ih hstop]

theorem splitTopLevel_before {sep : Char} {start stop : Nat} {xs : List Char}
    (hstart : start ≤ width xs) (hstop : stop ≤ width xs) (ys : List Char) :
    splitTopLevel sep (xs ++ ys) start stop = splitTopLevel sep xs start stop := by
  have hwidth := width_seek 0 start xs
  rw [splitTopLevel, splitTopLevel, seek_before hstart]
  exact splitFrom_before (by omega) ys

/-! ### A text that ends in white space -/

section Blank

variable {cs xs ys : List Char}

/-- The last character is white space. -/
theorem exists_blank_of_getLast? (h : xs.getLast?.any isBlank = true) :
    ∃ c ∈ xs, isBlank c = true := by
  cases hlast : xs.getLast? with
  | none => simp [hlast] at h
  | some c => exact ⟨c, List.mem_of_getLast? hlast, by simpa [hlast] using h⟩

theorem ne_nil_of_getLast? (h : xs.getLast?.any isBlank = true) : xs ≠ [] := by
  rintro rfl
  contradiction

theorem getLast?_tail {c : Char} (h : (c :: cs).getLast?.any isBlank = true) (hne : cs ≠ []) :
    cs.getLast?.any isBlank = true := (getLast?_any_append [c] hne).symm.trans h

theorem getLast?_suffix (h : (xs ++ ys).getLast?.any isBlank = true) (hne : ys ≠ []) :
    ys.getLast?.any isBlank = true := (getLast?_any_append xs hne).symm.trans h

theorem after?_before {word : String} (hword : ∀ c ∈ word.toList, isBlank c = false)
    (hxs : xs.getLast?.any isBlank = true) (ys : List Char) :
    after? word (xs ++ ys) = (after? word xs).map (· ++ ys) := by
  cases hafter : after? word xs with
  | some rest =>
    rw [after?_eq_some_iff.mp hafter, List.append_assoc]
    exact after?_append word _
  | none =>
    cases hmore : after? word (xs ++ ys) with
    | none => rfl
    | some rest =>
      rcases List.append_eq_append_iff.mp (after?_eq_some_iff.mp hmore)
        with ⟨zs, hcs, -⟩ | ⟨zs, hcs, -⟩
      · -- The word would reach over the white space.
        obtain ⟨c, hmem, hc⟩ := exists_blank_of_getLast? hxs
        have hplain := hword c (hcs ▸ List.mem_append_left zs hmem)
        rw [hc] at hplain
        contradiction
      · rw [after?_eq_some_iff.mpr hcs] at hafter
        contradiction

/-- White space is passed over up to what stands behind it. -/
theorem trimStart_before (hys : ys.head?.any isBlank = false) (xs : List Char) :
    trimStart (xs ++ ys) = trimStart xs ++ ys := by
  rw [trimStart, List.dropWhile_append]
  split
  · next hempty => rw [dropWhile_of_head? hys, trimStart, List.isEmpty_iff.mp hempty,
      List.nil_append]
  · rfl

/-- A run without white space ends before white space does. -/
theorem dropWhile_before {p : Char → Bool} (hp : ∀ c, isBlank c = true → p c = false)
    (hxs : xs.getLast?.any isBlank = true) (ys : List Char) :
    (xs ++ ys).takeWhile p = xs.takeWhile p ∧ (xs ++ ys).dropWhile p = xs.dropWhile p ++ ys := by
  have hrest : xs.dropWhile p ≠ [] := fun hnil => by
    obtain ⟨c, hmem, hc⟩ := exists_blank_of_getLast? hxs
    have hrun := List.dropWhile_eq_nil_iff.mp hnil c hmem
    rw [hp c hc] at hrun
    contradiction
  have hsplit := @List.takeWhile_append_dropWhile _ p xs
  have hrun : ∀ c ∈ xs.takeWhile p, p c = true := List.all_eq_true.mp List.all_takeWhile
  have hstop : (xs.dropWhile p ++ ys).head?.any p = false :=
    (head?_any_append hrest ys).trans (head?_dropWhile_any p xs)
  have hwhole : xs ++ ys = xs.takeWhile p ++ (xs.dropWhile p ++ ys) := by
    rw [← List.append_assoc, hsplit]
  rw [hwhole]
  exact ⟨takeWhile_run hrun hstop, dropWhile_run hrun hstop⟩

/-- The beginning of a name is not the white space at the end of a text. -/
theorem ne_nil_of_isNameStart {c : Char} (hc : isNameStart c = true)
    (h : (c :: cs).getLast?.any isBlank = true) : cs ≠ [] := by
  rintro rfl
  have hpart := isNamePart_of_isBlank (show isBlank c = true from h)
  rw [isNamePart_of_isNameStart hc] at hpart
  contradiction

theorem afterWord?_before {words : List String}
    (hwords : ∀ w ∈ words, ∀ c ∈ w.toList, isBlank c = false) (hxs : xs.getLast?.any isBlank = true)
    (hys : ys.head?.any isBlank = false) :
    afterWord? words (xs ++ ys) = (afterWord? words xs).map (· ++ ys) := by
  induction words with
  | nil => rfl
  | cons w words ih =>
    obtain ⟨hw, hwords⟩ := List.forall_mem_cons.mp hwords
    have hblanks : ((after? w xs).map (· ++ ys)).bind blanks? =
        ((after? w xs).bind blanks?).map (· ++ ys) := by
      cases hrest : after? w xs with
      | none => rfl
      | some rest =>
        have hcs := after?_eq_some_iff.mp hrest
        have hne : rest ≠ [] := fun hnil => by
          obtain ⟨c, hmem, hc⟩ := exists_blank_of_getLast? hxs
          rw [hcs, hnil, List.append_nil] at hmem
          rw [hw c hmem] at hc
          contradiction
        rw [Option.map_some, Option.bind_some, Option.bind_some, blanks?, blanks?,
          head?_any_append hne, trimStart_before hys]
        split <;> rfl
    unfold afterWord? at ih ⊢
    rw [List.findSome?_cons, List.findSome?_cons, after?_before hw hxs, hblanks, ih hwords]
    cases (after? w xs).bind blanks? <;> rfl

/-- What is passed over with a word ends in white space. -/
theorem exists_of_afterWord? {words : List String} {rest : List Char}
    (h : afterWord? words xs = some rest) :
    ∃ front, front.getLast?.any isBlank = true ∧ xs = front ++ rest := by
  obtain ⟨w, -, hw⟩ := List.exists_of_findSome?_eq_some h
  obtain ⟨more, hmore, hblanks⟩ := Option.bind_eq_some_iff.mp hw
  obtain ⟨gap, hgap, rfl, -⟩ := blanks?_eq_some_iff.mp hblanks
  refine ⟨w.toList ++ gap, hgap.getLast?_isBlank _, ?_⟩
  rw [after?_eq_some_iff.mp hmore, List.append_assoc]

end Blank

end EndpointCensus.Text
