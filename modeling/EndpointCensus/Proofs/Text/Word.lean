import EndpointCensus.Text.Name

/-! Words and the white space around them. No word character is white space, so a word ends where
white space begins, and what stands between two stretches of white space is what trimming leaves. -/

namespace EndpointCensus.Text

def IsWord (cs : List Char) : Prop := cs ≠ [] ∧ ∀ c ∈ cs, isWord c = true

/-- White space that keeps two words apart. -/
def IsGap (cs : List Char) : Prop := cs ≠ [] ∧ ∀ c ∈ cs, isBlank c = true

instance : DecidablePred IsWord :=
  fun cs => decidable_of_iff (cs ≠ [] ∧ cs.all isWord = true) (by simp [IsWord])

instance : DecidablePred IsGap :=
  fun cs => decidable_of_iff (cs ≠ [] ∧ cs.all isBlank = true) (by simp [IsGap])

/-! ### Characters -/

def blankCodes : List Nat :=
  [9, 10, 11, 12, 13, 0x20, 0x85, 0xA0, 0x1680, 0x2000, 0x2001, 0x2002, 0x2003, 0x2004, 0x2005,
    0x2006, 0x2007, 0x2008, 0x2009, 0x200A, 0x2028, 0x2029, 0x202F, 0x205F, 0x3000]

theorem mem_blankCodes {c : Char} (h : isBlank c = true) : c.toNat ∈ blankCodes := by
  simp only [isBlank, Bool.or_eq_true, Bool.and_eq_true, decide_eq_true_eq, beq_iff_eq] at h
  simp only [blankCodes, List.mem_cons, List.not_mem_nil, or_false]
  omega

theorem inRanges_eq (ranges : Array (Nat × Nat)) (n : Nat) :
    inRanges ranges n = ranges.toList.any fun r => r.1 ≤ n && n ≤ r.2 := Array.any_toList.symm

theorem isWord_of_isBlank {c : Char} (h : isBlank c = true) : isWord c = false := by
  -- The ranges are searched as lists, which evaluate faster than arrays.
  have hall : ∀ n ∈ blankCodes,
      (if (Char.ofNat n).toNat < 0x80 then isAsciiWord (Char.ofNat n)
        else if (Char.ofNat n).toNat < 0x3000 then wordRangesLow.toList.any fun r =>
          r.1 ≤ n && n ≤ r.2
        else if (Char.ofNat n).toNat < 0x10000 then wordRangesMid.toList.any fun r =>
          r.1 ≤ n && n ≤ r.2
        else wordRangesHigh.toList.any fun r => r.1 ≤ n && n ≤ r.2) = false := by decide +kernel
  have hcode := hall _ (mem_blankCodes h)
  rw [Char.ofNat_toNat] at hcode
  rw [isWord, inRanges_eq, inRanges_eq, inRanges_eq]
  exact hcode

theorem isBlank_of_isWord {c : Char} (h : isWord c = true) : isBlank c = false := by
  cases hblank : isBlank c with
  | false => rfl
  | true => rw [isWord_of_isBlank hblank] at h; contradiction

theorem isWord_of_isAsciiWord {c : Char} (h : isAsciiWord c = true) : isWord c = true := by
  have hcode : c.toNat < 0x80 := by
    have hascii := h
    simp only [isAsciiWord, isAsciiLetter, isAsciiDigit, Bool.or_eq_true, Bool.and_eq_true,
      decide_eq_true_eq, beq_iff_eq] at hascii
    rcases hascii with ((⟨-, h⟩ | ⟨-, h⟩) | ⟨-, h⟩) | rfl
    · exact Nat.lt_of_le_of_lt h (by decide)
    · exact Nat.lt_of_le_of_lt h (by decide)
    · exact Nat.lt_of_le_of_lt h (by decide)
    · decide
  rw [isWord, if_pos hcode, h]

theorem isWord_of_isWordStart {c : Char} (h : isWordStart c = true) : isWord c = true := by
  rw [isWordStart, Bool.or_eq_true] at h
  apply isWord_of_isAsciiWord
  rcases h with h | h <;> simp [isAsciiWord, h]

theorem isNamePart_of_isNameStart {c : Char} (h : isNameStart c = true) : isNamePart c = true := by
  rw [isNameStart, Bool.or_eq_true] at h
  rcases h with hword | hdollar
  · rw [isNamePart, isWord_of_isWordStart hword, Bool.true_or]
  · rw [isNamePart, hdollar, Bool.or_true]

theorem isNamePart_of_isAsciiWord {c : Char} (h : isAsciiWord c = true) : isNamePart c = true := by
  rw [isNamePart, isWord_of_isAsciiWord h, Bool.true_or]

theorem isNamePart_of_isBlank {c : Char} (h : isBlank c = true) : isNamePart c = false := by
  have hdollar : (c == '$') = false := beq_eq_false_iff_ne.mpr fun heq => by
    subst heq
    contradiction
  rw [isNamePart, isWord_of_isBlank h, hdollar, Bool.or_false]

theorem isBlank_of_isNamePart {c : Char} (h : isNamePart c = true) : isBlank c = false := by
  cases hblank : isBlank c with
  | false => rfl
  | true => rw [isNamePart_of_isBlank hblank] at h; contradiction

theorem IsWord.not_mem {cs : List Char} (h : IsWord cs) {c : Char} (hc : isWord c = false) :
    c ∉ cs := fun hmem => by
  rw [h.2 c hmem] at hc
  contradiction

/-- No word has the character for a part of it. -/
theorem IsWord.ne {cs ds : List Char} (h : IsWord cs) {c : Char} (hc : isWord c = false)
    (hds : c ∈ ds) : cs ≠ ds :=
  fun heq => h.not_mem hc (heq ▸ hds)

/-! ### Beginnings and ends -/

section Runs

variable {α : Type} {p : α → Bool} {xs ys : List α}

theorem takeWhile_of_head? (h : ys.head?.any p = false) : ys.takeWhile p = [] := by
  cases ys with
  | nil => rfl
  | cons c cs => exact List.takeWhile_cons_of_neg (by simpa using h)

theorem dropWhile_of_head? (h : ys.head?.any p = false) : ys.dropWhile p = ys := by
  cases ys with
  | nil => rfl
  | cons c cs => exact List.dropWhile_cons_of_neg (by simpa using h)

/-- A run ends where what follows it does not begin with another of its characters. -/
theorem takeWhile_run (hxs : ∀ c ∈ xs, p c = true) (hys : ys.head?.any p = false) :
    (xs ++ ys).takeWhile p = xs := by
  rw [List.takeWhile_append_of_pos hxs, takeWhile_of_head? hys, List.append_nil]

theorem dropWhile_run (hxs : ∀ c ∈ xs, p c = true) (hys : ys.head?.any p = false) :
    (xs ++ ys).dropWhile p = ys := by
  rw [List.dropWhile_append_of_pos hxs, dropWhile_of_head? hys]

theorem takeWhile_of_forall (h : ∀ c ∈ xs, p c = true) : xs.takeWhile p = xs := by
  simpa using takeWhile_run h (show ([] : List α).head?.any p = false from rfl)

theorem dropWhile_of_forall (h : ∀ c ∈ xs, p c = true) : xs.dropWhile p = [] := by
  simpa using dropWhile_run h (show ([] : List α).head?.any p = false from rfl)

theorem dropEndWhile_append (xs : List α) (hys : ∀ c ∈ ys, p c = true) :
    dropEndWhile p (xs ++ ys) = dropEndWhile p xs := by
  induction xs with
  | nil =>
    induction ys with
    | nil => rfl
    | cons c cs ih =>
      obtain ⟨hc, hcs⟩ := List.forall_mem_cons.mp hys
      have hrest : dropEndWhile p cs = [] := ih hcs
      simp [dropEndWhile, hrest, hc]
  | cons c cs ih => rw [List.cons_append, dropEndWhile, ih, dropEndWhile]

theorem dropEndWhile_of_getLast? (h : xs.getLast?.any p = false) : dropEndWhile p xs = xs := by
  induction xs with
  | nil => rfl
  | cons c cs ih =>
    cases cs with
    | nil => simpa [dropEndWhile] using h
    | cons d ds =>
      rw [List.getLast?_cons_cons] at h
      rw [dropEndWhile, ih h]
      rfl

theorem exists_dropEndWhile (p : α → Bool) (cs : List α) :
    ∃ run, (∀ c ∈ run, p c = true) ∧ cs = dropEndWhile p cs ++ run := by
  induction cs with
  | nil => exact ⟨[], by simp, rfl⟩
  | cons c cs ih =>
    obtain ⟨run, hrun, hcs⟩ := ih
    rw [dropEndWhile]
    split
    · next hend =>
      obtain ⟨hempty, hc⟩ := Bool.and_eq_true_iff.mp hend
      have hall : cs = run := by rwa [List.isEmpty_iff.mp hempty, List.nil_append] at hcs
      exact ⟨c :: cs, List.forall_mem_cons.mpr ⟨hc, hall ▸ hrun⟩, rfl⟩
    · exact ⟨run, hrun, congrArg (c :: ·) hcs⟩

theorem dropEndWhile_run (hxs : xs.getLast?.any p = false) (hys : ∀ c ∈ ys, p c = true) :
    dropEndWhile p (xs ++ ys) = xs := by
  rw [dropEndWhile_append xs hys, dropEndWhile_of_getLast? hxs]

theorem head?_any_append (hxs : xs ≠ []) (ys : List α) :
    (xs ++ ys).head?.any p = xs.head?.any p := by
  cases xs with
  | nil => contradiction
  | cons c cs => rfl

/-- White space ends a run of characters that are none. -/
theorem IsGap.head?_any {p : Char → Bool} {gap : List Char} (h : IsGap gap)
    (hp : ∀ c, isBlank c = true → p c = false) (ys : List Char) :
    (gap ++ ys).head?.any p = false := by
  obtain ⟨hne, hblank⟩ := h
  cases gap with
  | nil => contradiction
  | cons c gap => exact hp c (hblank c List.mem_cons_self)

theorem IsGap.head?_isBlank {gap : List Char} (h : IsGap gap) (ys : List Char) :
    (gap ++ ys).head?.any isBlank = true := by
  obtain ⟨hne, hblank⟩ := h
  cases gap with
  | nil => contradiction
  | cons c gap => exact hblank c List.mem_cons_self

theorem getLast?_any_append (xs : List α) (hys : ys ≠ []) :
    (xs ++ ys).getLast?.any p = ys.getLast?.any p := by
  rw [List.getLast?_append, List.getLast?_eq_some_getLast hys]
  rfl

theorem IsGap.getLast?_isBlank {gap : List Char} (h : IsGap gap) (xs : List Char) :
    (xs ++ gap).getLast?.any isBlank = true := by
  rw [getLast?_any_append xs h.1, List.getLast?_eq_some_getLast h.1]
  exact h.2 _ (List.getLast_mem h.1)

theorem head?_any_of_forall {cs : List α} (h : ∀ c ∈ cs, p c = false) : cs.head?.any p = false := by
  cases cs with
  | nil => rfl
  | cons c cs => exact h c List.mem_cons_self

theorem head?_dropWhile_any (p : α → Bool) (cs : List α) :
    (cs.dropWhile p).head?.any p = false := by
  have hrest := List.head?_dropWhile_not p cs
  cases hhead : (cs.dropWhile p).head? with
  | none => rfl
  | some d => simpa [hhead] using hrest

theorem exists_cons_of_head?_any {cs : List α} (h : cs.head?.any p = true) :
    ∃ d more, cs = d :: more ∧ p d = true := by
  cases cs with
  | nil => contradiction
  | cons d more => exact ⟨d, more, rfl, h⟩

theorem getLast?_any_of_forall {cs : List α} (h : ∀ c ∈ cs, p c = false) :
    cs.getLast?.any p = false := by
  cases hlast : cs.getLast? with
  | none => rfl
  | some c => exact h c (List.mem_of_getLast? hlast)

end Runs

/-! ### White space -/

variable {p : Char → Bool}

/-- What does not begin or end with white space is left of a text with white space around it. -/
theorem trim_padded {before cs after : List Char} (hbefore : ∀ c ∈ before, isBlank c = true)
    (hafter : ∀ c ∈ after, isBlank c = true) (hfirst : cs.head?.any isBlank = false)
    (hlast : cs.getLast?.any isBlank = false) : trim (before ++ (cs ++ after)) = cs := by
  cases cs with
  | nil =>
    have hall : ∀ c ∈ before ++ after, isBlank c = true := fun c hc =>
      (List.mem_append.mp hc).elim (hbefore c) (hafter c)
    have hstart : trimStart (before ++ after) = [] := dropWhile_of_forall hall
    rw [List.nil_append, trim, hstart]
    rfl
  | cons c cs =>
    have hstart : trimStart (before ++ (c :: cs ++ after)) = c :: cs ++ after :=
      dropWhile_run hbefore ((head?_any_append (List.cons_ne_nil c cs) after).trans hfirst)
    rw [trim, hstart, trimEnd, dropEndWhile_append _ hafter, dropEndWhile_of_getLast? hlast]

/-- White space around a text is trimmed away, whatever the text is. -/
theorem trim_around {before after : List Char} (cs : List Char)
    (hbefore : ∀ c ∈ before, isBlank c = true) (hafter : ∀ c ∈ after, isBlank c = true) :
    trim (before ++ (cs ++ after)) = trim cs := by
  have hstart : trimStart (before ++ (cs ++ after)) = trimStart (cs ++ after) :=
    List.dropWhile_append_of_pos hbefore
  rw [trim, trim, hstart, trimStart, List.dropWhile_append]
  split
  · next hempty =>
    have hblank : after.dropWhile isBlank = [] := dropWhile_of_forall hafter
    rw [hblank, trimStart, List.isEmpty_iff.mp hempty]
  · exact dropEndWhile_append _ hafter

/-- Trimming takes nothing away but white space. -/
theorem filter_trimStart (h : ∀ c, isBlank c = true → p c = false) (cs : List Char) :
    (trimStart cs).filter p = cs.filter p := by
  induction cs with
  | nil => rfl
  | cons c cs ih =>
    rw [trimStart, List.dropWhile_cons]
    split
    · next hc =>
      rw [List.filter_cons_of_neg (by simp [h c hc])]
      exact ih
    · rfl

theorem head?_trim (cs : List Char) : (trim cs).head?.any isBlank = false := by
  have hstart : (trimStart cs).head?.any isBlank = false := by
    have hfirst := List.head?_dropWhile_not isBlank cs
    rw [trimStart]
    cases hcs : (cs.dropWhile isBlank).head? with
    | none => rfl
    | some c => simpa [hcs] using hfirst
  rw [trim, trimEnd]
  cases h : trimStart cs with
  | nil => rfl
  | cons c rest =>
    rw [h] at hstart
    rw [dropEndWhile]
    split
    · rfl
    · exact hstart

theorem blanks?_gap {gap cs : List Char} (hgap : IsGap gap) (hcs : cs.head?.any isBlank = false) :
    blanks? (gap ++ cs) = some cs := by
  rw [blanks?, if_pos (hgap.head?_isBlank cs)]
  exact congrArg some (dropWhile_run hgap.2 hcs)

theorem after?_append (word : String) (cs : List Char) :
    after? word (word.toList ++ cs) = some cs := by
  rw [after?, startsWith, List.isPrefixOf_iff_prefix.mpr (List.prefix_append _ _), if_pos rfl,
    ← String.length_toList, List.drop_left]

theorem after?_eq_some_iff {word : String} {cs rest : List Char} :
    after? word cs = some rest ↔ cs = word.toList ++ rest := by
  constructor
  · intro h
    rw [after?, startsWith] at h
    split at h
    · next hprefix =>
      obtain ⟨more, rfl⟩ := List.isPrefixOf_iff_prefix.mp hprefix
      rw [← String.length_toList, List.drop_left] at h
      rw [Option.some.inj h]
    · contradiction
  · rintro rfl
    exact after?_append word rest

theorem before?_eq_some_iff {word : String} {cs rest : List Char} :
    before? word cs = some rest ↔ cs = rest ++ word.toList := by
  constructor
  · intro h
    rw [before?, endsWith] at h
    split at h
    · next hsuffix =>
      obtain ⟨front, rfl⟩ := List.isSuffixOf_iff_suffix.mp hsuffix
      rw [← String.length_toList, List.length_append, Nat.add_sub_cancel, List.take_left] at h
      rw [Option.some.inj h]
    · contradiction
  · rintro rfl
    rw [before?, endsWith, List.isSuffixOf_iff_suffix.mpr (List.suffix_append _ _), if_pos rfl,
      ← String.length_toList, List.length_append, Nat.add_sub_cancel, List.take_left]

theorem blanks?_eq_some_iff {cs rest : List Char} :
    blanks? cs = some rest ↔ ∃ gap, IsGap gap ∧ cs = gap ++ rest ∧
    rest.head?.any isBlank = false := by
  constructor
  · intro h
    rw [blanks?] at h
    split at h
    · next hblank =>
      obtain rfl := Option.some.inj h
      obtain ⟨c, more, rfl, hc⟩ := exists_cons_of_head?_any hblank
      refine ⟨(c :: more).takeWhile isBlank, ⟨?_, List.all_eq_true.mp List.all_takeWhile⟩, ?_,
        head?_dropWhile_any _ _⟩
      · rw [List.takeWhile_cons_of_pos hc]
        exact List.cons_ne_nil _ _
      · rw [trimStart, List.takeWhile_append_dropWhile]
    · contradiction
  · rintro ⟨gap, hgap, rfl, hrest⟩
    exact blanks?_gap hgap hrest

theorem afterMark?_eq_some_iff {mark : Char} {cs rest : List Char} (hmark : isBlank mark = false) :
    afterMark? mark cs = some rest ↔ ∃ pad, (∀ c ∈ pad, isBlank c = true) ∧
    cs = pad ++ mark :: rest := by
  constructor
  · intro h
    rw [afterMark?] at h
    split at h
    · next c more hstart =>
      split at h
      · next hc =>
        obtain rfl := Option.some.inj h
        obtain rfl := beq_iff_eq.mp hc
        refine ⟨cs.takeWhile isBlank, List.all_eq_true.mp List.all_takeWhile, ?_⟩
        rw [← hstart, trimStart, List.takeWhile_append_dropWhile]
      · contradiction
    · contradiction
  · rintro ⟨pad, hpad, rfl⟩
    have hstart : trimStart (pad ++ mark :: rest) = mark :: rest := dropWhile_run hpad hmark
    simp [afterMark?, hstart]

theorem contains_iff {word cs : List Char} : contains word cs = true ↔ word <:+: cs := by
  induction cs with
  | nil => rw [contains, List.isEmpty_iff, List.infix_nil]
  | cons c cs ih =>
    rw [contains, Bool.or_eq_true, List.isPrefixOf_iff_prefix, ih, List.infix_cons_iff]

theorem afterWord?_gap (word : String) {gap cs : List Char} (hgap : IsGap gap)
    (hcs : cs.head?.any isBlank = false) :
    afterWord? [word] (word.toList ++ (gap ++ cs)) = some cs := by
  rw [afterWord?, List.findSome?_cons, after?_append, Option.bind_some, blanks?_gap hgap hcs]

/-! ### Brackets around a text -/

theorem beq_of_not_mem {c : Char} {cs : List Char} (h : c ∉ cs) : ∀ d ∈ cs, (d == c) = false :=
  fun d hd => by
  rw [beq_eq_false_iff_ne]
  rintro rfl
  exact h hd

theorem stripRuns_bare {first last : Char} {cs : List Char} (hfirst : first ∉ cs)
    (hlast : last ∉ cs) : stripRuns first last cs = cs := by
  rw [stripRuns, dropWhile_of_head? (head?_any_of_forall (beq_of_not_mem hfirst)),
    dropEndWhile_of_getLast? (getLast?_any_of_forall (beq_of_not_mem hlast))]

theorem stripRuns_enclosed {first last : Char} {cs : List Char} (hne : first ≠ last)
    (hfirst : first ∉ cs) (hlast : last ∉ cs) :
    stripRuns first last (first :: (cs ++ [last])) = cs := by
  have hrest : first ∉ cs ++ [last] := by simp [hfirst, hne]
  have hstart : ([first] ++ (cs ++ [last])).dropWhile (· == first) = cs ++ [last] :=
    dropWhile_run (by simp) (head?_any_of_forall (beq_of_not_mem hrest))
  have hend : ∀ c ∈ [last], (c == last) = true := by simp
  rw [stripRuns, ← List.singleton_append, hstart, dropEndWhile_append cs hend,
    dropEndWhile_of_getLast? (getLast?_any_of_forall (beq_of_not_mem hlast))]

end EndpointCensus.Text
