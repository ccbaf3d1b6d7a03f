import EndpointCensus.Path.Join
import EndpointCensus.Proofs.Path.ModuleName

/-! Paths that were joined from pieces. The segments of a joined path are those of its pieces, so a
join can be cut at any place, and what was joined already may be joined again. -/

namespace EndpointCensus.Path

variable {cs : List Char} {s : List Char}

/-! ### Segments -/

/-- A part of a text that was cut at a character does not have it. -/
theorem not_mem_of_mem_splitOn {sep : Char} (h : s ∈ Text.splitOn sep cs) : sep ∉ s := by
  induction cs generalizing s with
  | nil =>
    rw [List.mem_singleton.mp h]
    exact List.not_mem_nil
  | cons c cs ih =>
    rw [Text.splitOn] at h
    split at h
    · rcases List.mem_cons.mp h with rfl | h
      · exact List.not_mem_nil
      · exact ih h
    next hc =>
      have hne : sep ≠ c := fun heq => hc (beq_iff_eq.mpr heq.symm)
      split at h
      · rw [List.mem_singleton.mp h]
        exact List.not_mem_cons_of_ne_of_not_mem hne List.not_mem_nil
      next part parts hparts =>
        rw [hparts] at ih
        rcases List.mem_cons.mp h with rfl | h
        · exact List.not_mem_cons_of_ne_of_not_mem hne (ih List.mem_cons_self)
        · exact ih (List.mem_cons_of_mem part h)

theorem mem_segments (h : s ∈ segments cs) : s ≠ [] ∧ '/' ∉ s := by
  obtain ⟨hs, hne⟩ := List.mem_filter.mp h
  exact ⟨by simpa using hne, not_mem_of_mem_splitOn hs⟩

/-- The segments of a path of segments. -/
theorem segments_ofSegments {parts : List (List Char)} (h : ∀ s ∈ parts, s ≠ [] ∧ '/' ∉ s) :
    segments (ofSegments parts) = parts := by
  rcases parts.eq_nil_or_concat with rfl | ⟨init, last, rfl⟩
  · rfl
  · rw [segments, ofSegments, Text.splitOn_intercalate (by simp) fun s hs => (h s hs).2,
      List.filter_eq_self]
    intro s hs
    simpa using (h s hs).1

theorem segments_absolute (cs : List Char) :
    segments (absolute cs) = segments cs := segments_append [] cs

theorem mem_flatMap_segments {pieces : List (List Char)} (h : s ∈ pieces.flatMap segments) :
    s ≠ [] ∧ '/' ∉ s := by
  obtain ⟨piece, -, hs⟩ := List.mem_flatMap.mp h
  exact mem_segments hs

/-- Joining keeps the segments of all pieces. -/
theorem segments_join (pieces : List (List Char)) :
    segments (join pieces) = pieces.flatMap segments :=
  segments_ofSegments fun _ => mem_flatMap_segments

/-! ### Joins -/

theorem join_congr {xs ys : List (List Char)} (h : xs.flatMap segments = ys.flatMap segments) :
    join xs = join ys :=
  congrArg ofSegments h

/-- A join of two lists of pieces is the join of their joins. -/
theorem join_append (xs ys : List (List Char)) : join (xs ++ ys) = join [join xs, join ys] := by
  refine join_congr ?_
  rw [List.flatMap_append, List.flatMap_cons, List.flatMap_singleton, segments_join, segments_join]

/-- Slashes at the beginning of pieces make no difference. -/
theorem join_absolute (xs ys : List Char) : join [absolute xs, absolute ys] = join [xs, ys] := by
  refine join_congr ?_
  simp only [List.flatMap_cons, List.flatMap_nil, segments_absolute]

/-! ### Canonical paths -/

/-- The text has no empty segment, apart from the empty text, which has no others. -/
def Compact (cs : List Char) : Prop := cs = [] ∨ [] ∉ Text.splitOn '/' cs

/-- A slash, and compact text behind it. -/
def Canonical (cs : List Char) : Prop := ∃ rest, cs = '/' :: rest ∧ Compact rest

theorem Compact.head?_ne (h : Compact cs) : cs.head? ≠ some '/' := by
  rcases h with rfl | h
  · exact fun hhead => by cases hhead
  · intro hhead
    obtain ⟨rest, rfl⟩ := List.head?_eq_some_iff.mp hhead
    exact h List.mem_cons_self

theorem compact_join (pieces : List (List Char)) : Compact (join pieces) := by
  rcases hparts : pieces.flatMap segments with _ | ⟨part, parts⟩
  · exact .inl (congrArg ofSegments hparts)
  · have hsegments : ∀ s ∈ part :: parts, s ≠ [] ∧ '/' ∉ s :=
      fun s hs => mem_flatMap_segments (hparts ▸ hs)
    refine .inr fun hempty => (hsegments [] ?_).1 rfl
    have hsplit := Text.splitOn_intercalate (List.cons_ne_nil part parts) fun s hs =>
      (hsegments s hs).2
    rwa [join, hparts, ofSegments, hsplit] at hempty

end EndpointCensus.Path
