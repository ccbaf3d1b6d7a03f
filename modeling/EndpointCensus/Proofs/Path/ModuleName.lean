import EndpointCensus.Path.ModuleName
import EndpointCensus.Proofs.Text.Splitting

/-!
Module names of paths in their normal form, which are names with one slash between. The module
name of such a path is dotted from its directories and the stem of its file, and it is the
longer the longer those are.
-/

namespace EndpointCensus.Path

def IsName (s : List Char) : Prop := s ≠ [] ∧ '/' ∉ s ∧ s ≠ ['.'] ∧ s ≠ parentStep

instance : DecidablePred IsName := fun _ => inferInstanceAs (Decidable (_ ∧ _))

/-! ### Components -/

theorem segments_append (xs ys : List Char) :
    segments (xs ++ '/' :: ys) = segments xs ++ segments ys := by
  rw [segments, Text.splitOn_append, List.filter_append]
  rfl

theorem components_append (xs ys : List Char) :
    components (xs ++ '/' :: ys) = components xs ++ components ys := by
  rw [components, segments_append, List.filter_append]
  rfl

@[simp] theorem components_nil : components [] = [] := rfl

theorem components_ofSegments_filter {parts : List (List Char)} (h : ∀ s ∈ parts, '/' ∉ s) :
    components (ofSegments parts) = parts.filter fun s => s != ['.'] && !s.isEmpty := by
  rcases parts.eq_nil_or_concat with rfl | ⟨init, last, rfl⟩
  · rfl
  · have hsplit : Text.splitOn '/' (ofSegments (init.concat last)) = init.concat last :=
      Text.splitOn_intercalate (by simp) h
    rw [components, segments, hsplit, List.filter_filter]

theorem components_ofSegments {names : List (List Char)} (h : ∀ s ∈ names, IsName s) :
    components (ofSegments names) = names := by
  rw [components_ofSegments_filter fun s hs => (h s hs).2.1, List.filter_eq_self]
  intro s hs
  obtain ⟨hne, -, hdot, -⟩ := h s hs
  simp [hne, hdot]

/-! ### File names -/

theorem fileName?_eq {cs name : List Char} {dir : List (List Char)}
    (h : components cs = dir ++ [name]) (hname : name ≠ parentStep) : fileName? cs = some name := by
  simp [fileName?, h, hname]

theorem cutExtension_append {stem extension : List Char} (hstem : stem ≠ []) (h : '.' ∉ extension) :
    cutExtension (stem ++ '.' :: extension) = (stem, some extension) := by
  simp [cutExtension, Text.splitLast?_append stem h, hstem]

/-- A name without an extension has no dot, or one at its start only. -/
theorem cutExtension_none {name : List Char} (h : (cutExtension name).2 = none) :
    (cutExtension name).1 = name ∧ ('.' ∉ name ∨ ∃ rest, name = '.' :: rest ∧ '.' ∉ rest) := by
  unfold cutExtension at h ⊢
  cases hsplit : Text.splitLast? '.' name with
  | none => exact ⟨rfl, .inl (Text.not_mem_of_splitLast?_eq_none hsplit)⟩
  | some r =>
    obtain ⟨stem, extension⟩ := r
    obtain ⟨heq, hnot⟩ := Text.eq_of_splitLast? hsplit
    rw [hsplit] at h
    dsimp only at h ⊢
    split at h
    · next hempty =>
      rw [if_pos hempty]
      obtain rfl := List.isEmpty_iff.mp hempty
      exact ⟨rfl, .inr ⟨extension, heq, hnot⟩⟩
    · contradiction

theorem cutExtension_some {name extension : List Char}
    (h : (cutExtension name).2 = some extension) :
    (cutExtension name).1 ≠ [] ∧ name = (cutExtension name).1 ++ '.' :: extension ∧
    '.' ∉ extension := by
  unfold cutExtension at h ⊢
  cases hsplit : Text.splitLast? '.' name with
  | none =>
    rw [hsplit] at h
    contradiction
  | some r =>
    obtain ⟨stem, rest⟩ := r
    obtain ⟨heq, hnot⟩ := Text.eq_of_splitLast? hsplit
    rw [hsplit] at h
    dsimp only at h ⊢
    split at h
    · contradiction
    · next hstem =>
      obtain rfl := Option.some.inj h
      rw [if_neg hstem]
      exact ⟨by simpa using hstem, heq, hnot⟩

/-- A marker has no extension. -/
theorem cutExtension_of_isMarker {name : List Char} (h : isMarker name = true) :
    (cutExtension name).2 = none := by
  rcases Bool.or_eq_true_iff.mp h with h | h
  all_goals
    rw [beq_iff_eq.mp h]
    decide

/-! ### Lengths -/

theorem length_intercalate (sep : Char) (parts : List (List Char)) :
    ([sep].intercalate parts).length = parts.flatten.length + (parts.length - 1) := by
  induction parts with
  | nil => rfl
  | cons s rest ih =>
    cases rest with
    | nil => simp
    | cons t rest =>
      rw [List.intercalate_cons_cons, List.length_append, ih]
      simp only [List.length_append, List.flatten_cons, List.length_cons, List.length_nil]
      omega

/-- Fewer parts make no longer name. -/
theorem length_intercalate_of_sublist (sep : Char) {xs ys : List (List Char)} (h : xs.Sublist ys) :
    ([sep].intercalate xs).length ≤ ([sep].intercalate ys).length := by
  rw [length_intercalate, length_intercalate]
  have hlength := h.length_le
  have hflat : xs.flatten.length ≤ ys.flatten.length := by
    induction h with
    | slnil => exact Nat.le_refl _
    | cons s h ih => simp only [List.flatten_cons, List.length_append]; have := ih h.length_le; omega
    | cons_cons s h ih =>
      simp only [List.flatten_cons, List.length_append]; have := ih h.length_le; omega
  omega

theorem length_intercalate_concat_lt (sep : Char) (dir : List (List Char)) {s t : List Char}
    (h : s.length < t.length) :
    ([sep].intercalate (dir ++ [s])).length < ([sep].intercalate (dir ++ [t])).length := by
  simp only [length_intercalate, List.flatten_append, List.flatten_cons, List.flatten_nil,
    List.append_nil, List.length_append, List.length_cons, List.length_nil]
  omega

/-! ### Module names -/

/-- The parts of a module name, without the marker at their end. -/
def withoutMarker (parts : List (List Char)) : List (List Char) :=
  if parts.getLast?.any isMarker then parts.dropLast else parts

theorem withoutMarker_sublist (parts : List (List Char)) : (withoutMarker parts).Sublist parts := by
  unfold withoutMarker
  split
  · exact parts.dropLast_sublist
  · exact .refl _

theorem withoutMarker_of_extension {dir : List (List Char)} {name extension : List Char}
    (h : (cutExtension name).2 = some extension) :
    withoutMarker (dir ++ [name]) = dir ++ [name] := by
  have hmarker : isMarker name ≠ true := fun hmarker => by
    rw [cutExtension_of_isMarker hmarker] at h
    contradiction
  simp [withoutMarker, hmarker]

/-- The file of a path with an extension is its last component. -/
theorem exists_of_extension? {cs extension : List Char} (h : extension? cs = some extension) :
    ∃ dir name, components cs = dir ++ [name] ∧ name ≠ parentStep ∧ fileName? cs = some name ∧
      (cutExtension name).2 = some extension := by
  obtain ⟨name, hname, hcut⟩ := Option.bind_eq_some_iff.mp h
  obtain ⟨hlast, hstep⟩ := Option.filter_eq_some_iff.mp hname
  obtain ⟨dir, hdir⟩ := List.getLast?_eq_some_iff.mp hlast
  exact ⟨dir, name, hdir, by simpa using hstep, hname, hcut⟩

/-- The parts of a path, steps up left out. -/
def properParts (cs : List Char) : List (List Char) := (components cs).filter (· != parentStep)

theorem filter_named (parts : List (List Char)) (h : ['.'] ∉ parts) :
    parts.filter (fun s => s != ['.'] && s != parentStep) = parts.filter (· != parentStep) := by
  refine List.filter_congr fun s hs => ?_
  have hdot : s ≠ ['.'] := fun hdot => h (hdot ▸ hs)
  simp [hdot]

theorem dot_not_mem_components (cs : List Char) : ['.'] ∉ components cs := by
  simp [components]

theorem moduleParts_eq (cs : List Char) :
    moduleParts cs = withoutMarker
      (((stem? cs).elim (components cs) fun stem => (components cs).dropLast ++ [stem]).filter
        fun s => s != ['.'] && s != parentStep) := by
  unfold moduleParts
  cases stem? cs <;> rfl

/-- Where the file has no extension, the parts of the path are those of the module name. -/
theorem moduleParts_of_extension?_none {cs : List Char} (h : extension? cs = none) :
    moduleParts cs = withoutMarker (properParts cs) := by
  have hcut : ((stem? cs).elim (components cs) fun stem => (components cs).dropLast ++ [stem]) =
      components cs := by
    cases hname : fileName? cs with
    | none => simp [stem?, hname]
    | some name =>
      have hwhole := (cutExtension_none (by simpa [extension?, hname] using h)).1
      obtain ⟨dir, hdir⟩ := List.getLast?_eq_some_iff.mp (Option.filter_eq_some_iff.mp hname).1
      simp [stem?, hname, hwhole, hdir]
  rw [moduleParts_eq, hcut, filter_named _ (dot_not_mem_components cs)]
  rfl

/-- What stands behind the last dot of the file is no part of the module name. -/
theorem moduleParts_of_components {cs name : List Char} {dir : List (List Char)}
    (h : components cs = dir ++ [name]) (hname : name ≠ parentStep) :
    moduleParts cs =
      withoutMarker ((dir ++ [(cutExtension name).1]).filter fun s => s != ['.'] && s !=
        parentStep) := by
  rw [moduleParts_eq, stem?, fileName?_eq h hname, Option.map_some, Option.elim_some, h,
    List.dropLast_concat]

/-- A path whose file has an extension has a shorter module name than its parts have. -/
theorem length_moduleName_lt {cs extension : List Char} (h : extension? cs = some extension) :
    (moduleName cs).length < (['.'].intercalate (withoutMarker (properParts cs))).length := by
  obtain ⟨dir, name, hdir, hstep, -, hext⟩ := exists_of_extension? h
  obtain ⟨-, heq, -⟩ := cutExtension_some hext
  have hparts : properParts cs = dir.filter (· != parentStep) ++ [name] := by
    simp [properParts, hdir, hstep]
  have hdot : ['.'] ∉ dir :=
    fun hdot => dot_not_mem_components cs (hdir ▸ List.mem_append_left _ hdot)
  have hstem : (cutExtension name).1.length < name.length := by
    have := congrArg List.length heq
    simp only [List.length_append, List.length_cons] at this
    omega
  rw [hparts, withoutMarker_of_extension hext, moduleName, moduleParts_of_components hdir hstep]
  refine Nat.lt_of_le_of_lt (length_intercalate_of_sublist '.' ((withoutMarker_sublist _).trans ?_))
    (length_intercalate_concat_lt '.' _ hstem)
  rw [List.filter_append, filter_named _ hdot]
  exact List.Sublist.append_left List.filter_sublist _

/-- The parts of a path are its module name exactly when nothing is cut off its file. -/
theorem moduleName_eq_iff {cs : List Char} :
    moduleName cs = ['.'].intercalate (withoutMarker (properParts cs)) ↔ extension? cs = none := by
  constructor
  · intro heq
    cases h : extension? cs with
    | none => rfl
    | some extension =>
      have := length_moduleName_lt h
      rw [heq] at this
      omega
  · intro h
    rw [moduleName, moduleParts_of_extension?_none h]

theorem length_intercalate_properParts (cs : List Char) :
    (['.'].intercalate (properParts cs)).length ≤ cs.length := by
  have hsub : (properParts cs).Sublist (Text.splitOn '/' cs) :=
    List.filter_sublist.trans (List.filter_sublist.trans List.filter_sublist)
  have hlength : (['.'].intercalate (Text.splitOn '/' cs)).length = cs.length := by
    have hslash := length_intercalate '/' (Text.splitOn '/' cs)
    rw [Text.splitOn_eq, List.intercalate_splitOn] at hslash
    rw [length_intercalate, Text.splitOn_eq]
    exact hslash.symm
  exact hlength ▸ length_intercalate_of_sublist _ hsub

/-- A module name is no longer than its path. -/
theorem length_moduleName_le (cs : List Char) : (moduleName cs).length ≤ cs.length := by
  refine Nat.le_trans ?_ (length_intercalate_properParts cs)
  refine Nat.le_trans ?_ (length_intercalate_of_sublist '.' (withoutMarker_sublist (properParts cs)))
  cases h : extension? cs with
  | none => exact Nat.le_of_eq (congrArg List.length (moduleName_eq_iff.mpr h))
  | some extension => exact Nat.le_of_lt (length_moduleName_lt h)

/-! ### Paths in normal form -/

/-- Before the last name of a path stand whole segments. -/
theorem ofSegments_concat (dir : List (List Char)) :
    ∃ front, (front = [] ∨ front.getLast? = some '/') ∧
    ∀ s, ofSegments (dir ++ [s]) = front ++ s := by
  induction dir with
  | nil => exact ⟨[], .inl rfl, fun s => by simp [ofSegments]⟩
  | cons t rest ih =>
    obtain ⟨front, hfront, hrest⟩ := ih
    refine ⟨t ++ '/' :: front, .inr ?_, fun s => ?_⟩
    · rcases hfront with rfl | hfront
      · simp
      · rw [List.getLast?_append, List.getLast?_cons, hfront]
        rfl
    · cases rest with
      | nil =>
        have := hrest s
        simp_all [ofSegments]
      | cons u rest =>
        have := hrest s
        rw [ofSegments] at this ⊢
        rw [List.cons_append, List.cons_append, List.intercalate_cons_cons, ← List.cons_append,
          this]
        simp

/-- A word without slashes at the end of a path stands in its last name. -/
theorem suffix_of_suffix_ofSegments {dir : List (List Char)} {name word : List Char}
    (hslash : '/' ∉ word) (h : word <:+ ofSegments (dir ++ [name])) : word <:+ name := by
  obtain ⟨front, hfront, hpath⟩ := ofSegments_concat dir
  rw [hpath] at h
  rcases List.suffix_or_suffix_of_suffix h (List.suffix_append front name) with h | ⟨before, rfl⟩
  · exact h
  · obtain ⟨more, hmore⟩ := h
    rw [← List.append_assoc] at hmore
    have hbefore := List.append_cancel_right hmore
    rcases hfront with rfl | hlast
    · rw [(List.append_eq_nil_iff.mp hbefore).2]
      exact List.suffix_rfl
    · cases hb : before.getLast? with
      | none => simp [List.getLast?_eq_none_iff.mp hb]
      | some c =>
        rw [← hbefore, List.getLast?_append, hb, Option.some_or, Option.some.injEq] at hlast
        exact absurd (List.mem_append_left name (hlast ▸ List.mem_of_getLast? hb)) hslash

end EndpointCensus.Path
