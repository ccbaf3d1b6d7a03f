import EndpointCensus.Proofs.Line.Concatenation
import EndpointCensus.Proofs.Text.Place

/-! Lines and their segments. Every character of a line goes into exactly one segment, in the order
of the line, so the byte ranges of the segments follow one another from its start to its end. What a
line is read in is what the scan of all lines before it ends in, which gives each line by itself. -/

namespace EndpointCensus

/-! ### Ranges -/

/-- Ranges that are not empty and follow one another from `start` to `stop`. -/
def Consecutive (start stop : Nat) : List (SegmentKind × Nat × Nat) → Prop
  | [] => start = stop
  | (_, first, last) :: rest => first = start ∧ first < last ∧ Consecutive last stop rest

theorem consecutive_spansFrom {segments : List Segment} (h : ∀ s ∈ segments, s.chars ≠ [])
    (start : Nat) :
    Consecutive start (start + Text.width (segments.flatMap Segment.chars))
      (spansFrom start segments) := by
  induction segments generalizing start with
  | nil => rfl
  | cons s rest ih =>
    have hpos := Text.width_pos (h s List.mem_cons_self)
    have hrest := ih (fun x hx => h x (List.mem_cons_of_mem s hx)) (start + Text.width s.chars)
    rw [List.flatMap_cons, Text.width_append, ← Nat.add_assoc]
    exact ⟨rfl, by omega, hrest⟩

theorem isBoundary_of_mem_spansFrom (before : List Char) {segments : List Segment}
    {r : SegmentKind × Nat × Nat} (h : r ∈ spansFrom (Text.width before) segments) :
    Text.IsBoundary (before ++ segments.flatMap Segment.chars) r.2.1 ∧
      Text.IsBoundary (before ++ segments.flatMap Segment.chars) r.2.2 := by
  induction segments generalizing before with
  | nil => exact absurd h List.not_mem_nil
  | cons s rest ih =>
    have htext : before ++ (s :: rest).flatMap Segment.chars =
        before ++ s.chars ++ rest.flatMap Segment.chars := by
      rw [List.flatMap_cons, List.append_assoc]
    rw [htext]
    rcases List.mem_cons.mp h with rfl | h
    · refine ⟨⟨before, s.chars ++ rest.flatMap Segment.chars, List.append_assoc .., rfl⟩, ?_⟩
      exact ⟨before ++ s.chars, rest.flatMap Segment.chars, rfl, Text.width_append before s.chars⟩
    · rw [← Text.width_append] at h
      exact ih (before ++ s.chars) h

/-! ### The segments of a line -/

theorem chars_cut (kind : SegmentKind) (seen : List Char) :
    (cut kind seen).flatMap Segment.chars = seen.reverse := by
  cases seen <;> simp [cut]

theorem ne_nil_of_mem_cut {kind : SegmentKind} {seen : List Char} {s : Segment}
    (h : s ∈ cut kind seen) : s.chars ≠ [] := by
  cases seen with
  | nil => exact absurd h List.not_mem_nil
  | cons c cs =>
    obtain rfl := List.mem_singleton.mp h
    simp

namespace Cursor

/-- A character is added to what has been seen, whatever segments are completed. -/
theorem chars_step (k : Cursor) (language : Language) (number : Nat) (c : Char) (rest : List Char) :
    (k.step language number c rest).1.flatMap Segment.chars ++
      (k.step language number c rest).2.seen.reverse = k.seen.reverse ++ [c] := by
  have htake (left : Nat) (closing : Bool) :
      (k.take c left closing).1.flatMap Segment.chars ++ (k.take c left closing).2.seen.reverse =
        k.seen.reverse ++ [c] := by
    unfold take
    split <;> simp [chars_cut]
  unfold step
  repeat' split
  all_goals first | exact htake _ _ | simp [chars_cut]

theorem ne_nil_of_mem_step {language : Language} {number : Nat} {k : Cursor} {c : Char}
    {rest : List Char} {s : Segment} (h : s ∈ (k.step language number c rest).1) :
    s.chars ≠ [] := by
  have htake {left : Nat} {closing : Bool} (h : s ∈ (k.take c left closing).1) : s.chars ≠ [] := by
    unfold take at h
    split at h
    · have hcut : s ∈ cut k.mode.kind (c :: k.seen) := h
      exact ne_nil_of_mem_cut hcut
    · exact absurd h List.not_mem_nil
  unfold step at h
  repeat' split at h
  all_goals first | exact htake h | exact ne_nil_of_mem_cut h

end Cursor

theorem chars_scanFrom (language : Language) (number : Nat) (k : Cursor) (cs : List Char) :
    (scanFrom language number k cs).1.flatMap Segment.chars = k.seen.reverse ++ cs := by
  induction cs generalizing k with
  | nil => simp [scanFrom, chars_cut]
  | cons c rest ih =>
    have hstep := k.chars_step language number c rest
    calc (scanFrom language number k (c :: rest)).1.flatMap Segment.chars
      _ = (k.step language number c rest).1.flatMap Segment.chars ++
            ((k.step language number c rest).2.seen.reverse ++ rest) := by simp [scanFrom, ih]
      _ = k.seen.reverse ++ c :: rest := by rw [← List.append_assoc, hstep]; simp

theorem ne_nil_of_mem_scanFrom {language : Language} {number : Nat} {k : Cursor} {cs : List Char}
    {s : Segment} (h : s ∈ (scanFrom language number k cs).1) : s.chars ≠ [] := by
  induction cs generalizing k with
  | nil => exact ne_nil_of_mem_cut h
  | cons c rest ih => exact (List.mem_append.mp h).elim Cursor.ne_nil_of_mem_step ih

/-! ### Each line by itself -/

/-- What the scan is inside of behind the first `n` lines. -/
def modeBehind (language : Language) (number : Nat) (mode : Mode) (texts : List (List Char))
    (n : Nat) : Mode :=
  (scanLines language number mode (texts.take n)).2

variable {language : Language} {number : Nat} {mode : Mode} {texts : List (List Char)}
  {cs : List Char} {n : Nat}

theorem modeBehind_length :
    modeBehind language number mode texts texts.length =
      (scanLines language number mode texts).2 := by
  rw [modeBehind, List.take_length]

theorem map_text_scanLines (language : Language) (number : Nat) (mode : Mode)
    (texts : List (List Char)) :
    (scanLines language number mode texts).1.map Line.text = texts := by
  induction texts generalizing number mode with
  | nil => rfl
  | cons cs rest ih =>
    have hfirst : (Line.ofSegments number mode (scanFrom language number { mode } cs).2
        (scanFrom language number { mode } cs).1).text = cs :=
      chars_scanFrom language number { mode } cs
    simp only [scanLines, List.map_cons, hfirst, ih]

theorem length_scanLines : (scanLines language number mode texts).1.length = texts.length := by
  rw [← List.length_map Line.text, map_text_scanLines]

theorem modeBehind_succ (h : texts[n]? = some cs) :
    modeBehind language number mode texts (n + 1) =
      (scanFrom language (number + n) { mode := modeBehind language number mode texts n } cs).2 := by
  have hn : n < texts.length := (List.getElem?_eq_some_iff.mp h).1
  have htake : texts.take (n + 1) = texts.take n ++ [cs] := by
    rw [List.take_add_one, h, Option.toList_some]
  rw [modeBehind, htake, scanLines_append, List.length_take_of_le (Nat.le_of_lt hn)]
  rfl

/-- Line `n`, counted from zero, is read in the mode behind the lines before it. -/
theorem getElem?_scanLines (h : texts[n]? = some cs) :
    (scanLines language number mode texts).1[n]? = some (Line.ofSegments (number + n)
      (modeBehind language number mode texts n) (modeBehind language number mode texts (n + 1))
      (scanFrom language (number + n) { mode := modeBehind language number mode texts n } cs).1) := by
  obtain ⟨hn, rfl⟩ := List.getElem?_eq_some_iff.mp h
  have hlength : (texts.take n).length = n := List.length_take_of_le (Nat.le_of_lt hn)
  have hbefore : (scanLines language number mode (texts.take n)).1.length = n := by
    rw [length_scanLines, hlength]
  have htexts : texts.take n ++ texts[n] :: texts.drop (n + 1) = texts := by simp
  have hscan :=
    scanLines_append language number mode (texts.take n) (texts[n] :: texts.drop (n + 1))
  rw [htexts, hlength] at hscan
  rw [hscan, modeBehind_succ h, List.getElem?_append_right (Nat.le_of_eq hbefore), hbefore,
    Nat.sub_self]
  rfl

theorem ne_nil_of_mem_segments {l : Line} {s : Segment}
    (hl : l ∈ (scanLines language number mode texts).1) (hs : s ∈ l.segments) : s.chars ≠ [] := by
  induction texts generalizing number mode with
  | nil => exact absurd hl List.not_mem_nil
  | cons cs rest ih =>
    rcases List.mem_cons.mp hl with rfl | hl
    · exact ne_nil_of_mem_scanFrom hs
    · exact ih hl

end EndpointCensus
