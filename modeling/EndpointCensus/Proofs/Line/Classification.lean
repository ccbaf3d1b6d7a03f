import EndpointCensus.Proofs.Line.Octets

/-! The lines of a text. There is one for each physical line. Its segments partition it, on
character boundaries, the way a scan of the bytes does. Whether it starts inside of a literal is
known from the line before, and what is still open behind the last line has been open since the
line that is reported. -/

namespace EndpointCensus

namespace LineTable

structure Classifies (t : LineTable) (language : Language) (cs : List Char) : Prop where
  /-- There is one line for each physical line. -/
  texts : t.lines.map Line.text = physicalLines cs
  numbers : t.lines.map Line.number = List.range' 1 (physicalLines cs).length
  partition : ∀ l ∈ t.lines, Consecutive 0 (Text.width l.text) l.spans
  boundaries : ∀ l ∈ t.lines, ∀ r ∈ l.spans, Text.IsBoundary l.text r.2.1 ∧
    Text.IsBoundary l.text r.2.2
  /-- A scan that goes from byte to byte has the same ranges. -/
  octets : (scanLines language 1 .code ((physicalLines cs).map Text.octets)).1.map
    (fun l => octetSpansFrom 0 l.segments) = t.lines.map Line.spans
  firstTag : ∀ l, t.lines[0]? = some l → l.tag ≠ .literalBody
  tags : ∀ i before l, t.lines[i]? = some before → t.lines[i + 1]? = some l →
    (l.tag = .literalBody ↔ before.literalOpen = true)
  /-- What is reported is what the scan ends inside of. -/
  reported : ∀ what, (∃ since, t.unterminated = some (since, what)) ↔
    (scanLines language 1 .code (physicalLines cs)).2.kind = what.kind
  /-- The reported line ends with what a marker has opened there. -/
  opened : ∀ since what, t.unterminated = some (since, what) → ∃ l ∈ t.lines, l.number = since ∧
    ∃ segments c rest mode size, l.segments = segments ++ [⟨what.kind, c :: rest⟩] ∧
      opening language since c rest = .opens mode size
  /-- Behind the reported line, a line is a single segment of what is open, or empty. -/
  inside : ∀ since what, t.unterminated = some (since, what) → ∀ l ∈ t.lines, since < l.number →
    l.segments = [⟨what.kind, l.text⟩] ∨ l.segments = [] ∧ l.text = []

end LineTable

theorem Line.tag_ofSegments_eq_literalBody_iff (number : Nat) (mode mode' : Mode)
    (segments : List Segment) :
    (Line.ofSegments number mode mode' segments).tag = .literalBody ↔
    mode.isOpenLiteral = true := by
  unfold ofSegments
  cases mode.isOpenLiteral <;> simp
  split <;> simp

variable {language : Language} {cs : List Char} {since : Nat} {what : Unclosed}

/-- Line `i`, counted from zero, is read in the mode behind the lines before it. -/
theorem exists_of_getElem?_lines {i : Nat} {l : Line}
    (h : (classify language cs).lines[i]? = some l) :
    ∃ line, (physicalLines cs)[i]? = some line ∧
      l = Line.ofSegments (1 + i)
        (modeBehind language 1 .code (physicalLines cs) i)
        (modeBehind language 1 .code (physicalLines cs) (i + 1))
        (scanFrom language (1 + i)
          { mode := modeBehind language 1 .code (physicalLines cs) i } line).1 := by
  have htext : (physicalLines cs)[i]? = some l.text := by
    rw [← map_text_scanLines language 1 .code (physicalLines cs), List.getElem?_map]
    exact congrArg (Option.map Line.text) h
  exact ⟨l.text, htext, Option.some.inj (h.symm.trans (getElem?_scanLines htext))⟩

theorem unclosed_modeBehind_length (language : Language) (cs : List Char) :
    (modeBehind language 1 .code (physicalLines cs) (physicalLines cs).length).unclosed =
      (classify language cs).unterminated := by
  rw [modeBehind_length]
  rfl

/-- The line that is reported ends with what a marker has opened there. -/
theorem exists_of_unterminated (h : (classify language cs).unterminated = some (since, what)) :
    ∃ l ∈ (classify language cs).lines, l.number = since ∧
      ∃ segments c rest mode size, l.segments = segments ++ [⟨what.kind, c :: rest⟩] ∧
        opening language since c rest = .opens mode size := by
  rw [← unclosed_modeBehind_length] at h
  obtain ⟨hpos, hle⟩ := since_modeBehind (Nat.le_refl _) h
  obtain ⟨i, rfl⟩ : ∃ i, since = i + 1 := ⟨since - 1, by omega⟩
  have hmode := modeBehind_of_since_le (Nat.le_refl _) h rfl (Nat.le_refl _) hle
  have htext : (physicalLines cs)[i]? = some (physicalLines cs)[i] := List.getElem?_eq_getElem hle
  refine ⟨_, List.mem_of_getElem? (getElem?_scanLines htext), Nat.add_comm 1 i, ?_⟩
  rcases modeBehind_succ_cases htext h hmode with ⟨hbefore, -⟩ | ⟨-, segments, c, rest, size,
    hsegments, hopening⟩
  · -- A mode that was there before the line was opened on an earlier one.
    rw [← hbefore] at h
    have := (since_modeBehind (Nat.le_of_lt hle) h).2
    omega
  · rw [Mode.kind_of_unclosed h] at hsegments
    rw [Nat.add_comm] at hopening
    exact ⟨segments, c, rest, _, size, hsegments, hopening⟩

/-- The lines behind the one that is reported lie inside of what is open. -/
theorem segments_of_unterminated (h : (classify language cs).unterminated = some (since, what))
    {l : Line} (hl : l ∈ (classify language cs).lines) (hsince : since < l.number) :
    l.segments = [⟨what.kind, l.text⟩] ∨ l.segments = [] ∧ l.text = [] := by
  rw [← unclosed_modeBehind_length] at h
  obtain ⟨i, hi⟩ := List.getElem?_of_mem hl
  obtain ⟨line, hline, hl⟩ := exists_of_getElem?_lines hi
  have hlt : i < (physicalLines cs).length := (List.getElem?_eq_some_iff.mp hline).1
  have hnumber : l.number = 1 + i := by rw [hl, Line.ofSegments]
  have hmode := modeBehind_of_since_le (Nat.le_refl _) h rfl (show since ≤ i + 1 by omega) hlt
  rcases modeBehind_succ_cases hline h hmode with ⟨-, hsegments⟩ | ⟨hopened, -⟩
  · rw [Mode.kind_of_unclosed h] at hsegments
    have hcut : l.segments = cut what.kind line.reverse := by rw [hl, ← hsegments]; rfl
    have htext : l.text = line := by rw [Line.text, hcut, chars_cut, List.reverse_reverse]
    rw [hcut, htext]
    cases line with
    | nil => exact .inr ⟨rfl, rfl⟩
    | cons c cs => simp [cut]
  · omega

/-- A text is classified line by line, for every text and either language. -/
theorem classifies_classify (language : Language) (cs : List Char) :
    (classify language cs).Classifies language cs where
  texts := map_text_scanLines language 1 .code (physicalLines cs)
  numbers := map_number_scanLines language 1 .code (physicalLines cs)
  partition := by
    intro l hl
    have hspans := consecutive_spansFrom (fun s hs => ne_nil_of_mem_segments hl hs) 0
    rwa [Nat.zero_add] at hspans
  boundaries := fun l _ r hr => isBoundary_of_mem_spansFrom [] hr
  octets := (scanLines_octets (fun q hq => by contradiction)).1
  firstTag := by
    intro l hl htag
    obtain ⟨line, -, rfl⟩ := exists_of_getElem?_lines hl
    rw [Line.tag_ofSegments_eq_literalBody_iff] at htag
    contradiction
  tags := by
    intro i before l hbefore hl
    obtain ⟨first, -, rfl⟩ := exists_of_getElem?_lines hbefore
    obtain ⟨line, -, rfl⟩ := exists_of_getElem?_lines hl
    exact Line.tag_ofSegments_eq_literalBody_iff ..
  reported := Mode.exists_unclosed_iff (nextLine_scanLines _ rfl)
  opened := fun _ _ h => exists_of_unterminated h
  inside := fun _ _ h _ hl hsince => segments_of_unterminated h hl hsince

end EndpointCensus
