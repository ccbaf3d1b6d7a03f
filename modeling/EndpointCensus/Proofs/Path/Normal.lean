import EndpointCensus.Path.Join
import EndpointCensus.Proofs.Path.Placeholder
import EndpointCensus.Proofs.Text.Splitting

/-! Patterns in normal form. Normalizing copies a character or writes a name in braces, and what was
copied begins no placeholder afterwards: a placeholder in angle brackets or braces has no brace
inside, so its text would have been copied as a whole and would have been a placeholder before.
Normalizing once more therefore changes nothing, and the names that a normal pattern shows in braces
are those of its parameters. -/

namespace EndpointCensus.Pattern

open Text (IsName isWord isWordStart)

variable {start next : Bool} {c : Char} {cs raw xs rest : List Char} {p : Placeholder}

/-! ### One step of normalizing -/

theorem placeholder?_eq_none_iff : placeholder? start cs = none ↔
    namedGroup? cs = none ∧ angled? cs = none ∧ braced? cs = none ∧
    (start = true → coloned? cs = none) := by
  cases start <;> simp [placeholder?]

/-- Characters that begin a placeholder, whether or not one follows. -/
def isOpening (c : Char) : Bool := c == '(' || c == '<' || c == '{' || c == ':'

theorem placeholder?_of_not_isOpening (h : isOpening c = false) (start : Bool) (cs : List Char) :
    placeholder? start (c :: cs) = none := by
  simp only [isOpening, Bool.or_eq_false_iff, beq_eq_false_iff_ne, ne_eq] at h
  obtain ⟨⟨⟨hgroup, hangle⟩, hbrace⟩, hcolon⟩ := h
  refine placeholder?_eq_none_iff.mpr ⟨?group, ?angle, ?brace, fun _ => ?colon⟩ <;>
    refine Option.eq_none_iff_forall_ne_some.mpr fun p hp => ?_
  case group =>
    obtain ⟨d, more, hcs, -⟩ := opens_of_namedGroup? hp
    exact hgroup (List.cons.inj hcs).1
  case angle =>
    obtain ⟨d, more, hcs, -⟩ := opens_of_angled? hp
    exact hangle (List.cons.inj hcs).1
  case brace =>
    obtain ⟨d, more, hcs, -⟩ := opens_of_braced? hp
    exact hbrace (List.cons.inj hcs).1
  case colon =>
    obtain ⟨d, more, hcs, -⟩ := opens_of_coloned? hp
    exact hcolon (List.cons.inj hcs).1

theorem isName_of_placeholder? (h : placeholder? start cs = some p) : IsName p.name := by
  rw [placeholder?, Option.or_eq_some_iff] at h
  rcases h with h | ⟨-, h⟩
  · exact (exists_of_namedGroup? h).1
  rw [Option.or_eq_some_iff] at h
  rcases h with h | ⟨-, h⟩
  · exact (exists_of_angled? h).1
  rw [Option.or_eq_some_iff] at h
  rcases h with h | ⟨-, h⟩
  · exact (exists_of_braced? h).1
  split at h
  · exact (exists_of_coloned? h).1
  · contradiction

theorem normalizeFrom_placeholder (h : placeholder? start (c :: cs) = some p) :
    normalizeFrom start 0 (c :: cs) =
      ('{' :: p.name ++ '}' :: (normalizeFrom false (p.size - 1) cs).1,
        p.param :: (normalizeFrom false (p.size - 1) cs).2) := by
  rw [normalizeFrom, h]

theorem normalizeFrom_plain (h : placeholder? start (c :: cs) = none) :
    normalizeFrom start 0 (c :: cs) = (c :: (normalizeFrom (c == '/') 0 cs).1,
      (normalizeFrom (c == '/') 0 cs).2) := by
  rw [normalizeFrom, h]

/-- Whether a segment starts behind the text. -/
def startBehind (start : Bool) (cs : List Char) : Bool := cs.foldl (fun _ c => c == '/') start

@[simp] theorem startBehind_nil (start : Bool) : startBehind start [] = start := rfl

@[simp] theorem startBehind_cons (start : Bool) (c : Char) (cs : List Char) :
    startBehind start (c :: cs) = startBehind (c == '/') cs := rfl

theorem startBehind_append (start : Bool) (xs ys : List Char) :
    startBehind start (xs ++ ys) = startBehind (startBehind start xs) ys := List.foldl_append

/-- Characters that belong to a placeholder are passed over. -/
theorem normalizeFrom_skip (start : Bool) (xs rest : List Char) :
    normalizeFrom start xs.length (xs ++ rest) = normalizeFrom (startBehind start xs) 0 rest := by
  induction xs generalizing start with
  | nil => rfl
  | cons c xs ih =>
    rw [List.cons_append, List.length_cons, normalizeFrom, ih]
    rfl

/-- A placeholder of which the whole text is known. -/
theorem normalizeFrom_text {text : List Char} (hne : text ≠ [])
    (h : placeholder? start (text ++ rest) = some p) (hsize : p.size = text.length) :
    normalizeFrom start 0 (text ++ rest) =
      ('{' :: (p.name ++ '}' :: (normalizeFrom (startBehind start text) 0 rest).1),
        p.param :: (normalizeFrom (startBehind start text) 0 rest).2) := by
  cases text with
  | nil => contradiction
  | cons c text =>
    rw [List.cons_append] at h ⊢
    have hc : (c == '/') = false := by
      rw [beq_eq_false_iff_ne]
      rintro rfl
      rw [placeholder?_of_not_isOpening (by decide)] at h
      contradiction
    rw [normalizeFrom_placeholder h, hsize, List.length_cons, Nat.add_sub_cancel,
      normalizeFrom_skip, List.cons_append, startBehind_cons, hc]

/-- Text is copied if a placeholder begins nowhere in it. -/
theorem normalizeFrom_copy {text : List Char} (h : ∀ xs c ys, text = xs ++ c :: ys →
    placeholder? (startBehind start xs) (c :: (ys ++ rest)) = none) :
    normalizeFrom start 0 (text ++ rest) =
      (text ++ (normalizeFrom (startBehind start text) 0 rest).1,
        (normalizeFrom (startBehind start text) 0 rest).2) := by
  induction text generalizing start with
  | nil => rfl
  | cons c text ih =>
    have hfirst : placeholder? start (c :: (text ++ rest)) = none := h [] c text rfl
    have htail : ∀ xs d ys, text = xs ++ d :: ys →
        placeholder? (startBehind (c == '/') xs) (d :: (ys ++ rest)) = none :=
      fun xs d ys htext => h (c :: xs) d ys (by rw [htext]; rfl)
    rw [List.cons_append, normalizeFrom_plain hfirst, ih htail]
    rfl

theorem normalizeFrom_chunk {chunk : List Char} (h : ∀ c ∈ chunk, isOpening c = false)
    (start : Bool) (rest : List Char) : normalizeFrom start 0 (chunk ++ rest) =
      (chunk ++ (normalizeFrom (startBehind start chunk) 0 rest).1,
        (normalizeFrom (startBehind start chunk) 0 rest).2) :=
  normalizeFrom_copy fun xs c ys hchunk => placeholder?_of_not_isOpening
    (h c (by simp [hchunk])) _ _

/-! ### What was copied -/

/-- What stands in a normalized text before its first brace was copied. -/
theorem exists_copied (hxs : '{' ∉ xs) (h : (normalizeFrom start 0 raw).1 = xs ++ rest) :
    ∃ start' more, raw = xs ++ more ∧ (normalizeFrom start' 0 more).1 = rest := by
  induction xs generalizing start raw with
  | nil => exact ⟨start, raw, rfl, h⟩
  | cons x xs ih =>
    obtain ⟨hx, hxs'⟩ := not_or.mp (mt List.mem_cons.mpr hxs)
    cases raw with
    | nil => contradiction
    | cons c raw =>
      cases hp : placeholder? start (c :: raw) with
      | some p =>
        rw [normalizeFrom_placeholder hp] at h
        exact absurd (List.cons.inj h).1 hx
      | none =>
        rw [normalizeFrom_plain hp] at h
        obtain ⟨rfl, hrest⟩ := List.cons.inj h
        obtain ⟨start', more, rfl, hmore⟩ := ih hxs' hrest
        exact ⟨start', more, rfl, hmore⟩

theorem not_mem_of_isName (h : IsName xs) : '{' ∉ xs := h.not_mem (by decide)

theorem not_mem_of_isConverter (h : IsConverter xs) :
    '{' ∉ xs := fun hmem => absurd (h.2 _ hmem) (by decide)

theorem not_mem_of_isConstraint (h : IsConstraint xs) : '{' ∉ xs := fun hmem => (h.2 _ hmem).1 rfl

theorem angled?_copied (h : angled? (c :: raw) = none) :
    angled? (c :: (normalizeFrom next 0 raw).1) = none := by
  rw [Option.eq_none_iff_forall_ne_some]
  intro p hp
  obtain ⟨hname, rest, hcs | ⟨converter, hconverter, hcs⟩⟩ := exists_of_angled? hp
  · obtain ⟨rfl, hout⟩ := List.cons.inj hcs
    obtain ⟨-, more, rfl, -⟩ :=
      @exists_copied next raw (p.name ++ ['>']) rest (by simp [not_mem_of_isName hname])
        (by simpa using hout)
    rw [List.append_assoc, List.singleton_append, angled?_name hname] at h
    contradiction
  · obtain ⟨rfl, hout⟩ := List.cons.inj hcs
    obtain ⟨-, more, rfl, -⟩ := @exists_copied next raw (converter ++ ':' :: (p.name ++ ['>'])) rest
      (by simp [not_mem_of_isName hname, not_mem_of_isConverter hconverter]) (by simpa using hout)
    rw [List.append_assoc, List.cons_append, List.append_assoc, List.singleton_append,
      angled?_converted hconverter hname] at h
    contradiction

theorem braced?_copied (h : braced? (c :: raw) = none) :
    braced? (c :: (normalizeFrom next 0 raw).1) = none := by
  rw [Option.eq_none_iff_forall_ne_some]
  intro p hp
  obtain ⟨hname, rest, hcs | ⟨constraint, hconstraint, hcs⟩⟩ := exists_of_braced? hp
  · obtain ⟨rfl, hout⟩ := List.cons.inj hcs
    obtain ⟨-, more, rfl, -⟩ :=
      @exists_copied next raw (p.name ++ ['}']) rest (by simp [not_mem_of_isName hname])
        (by simpa using hout)
    rw [List.append_assoc, List.singleton_append, braced?_name hname] at h
    contradiction
  · obtain ⟨rfl, hout⟩ := List.cons.inj hcs
    obtain ⟨-, more, rfl, -⟩ :=
      @exists_copied next raw (p.name ++ ':' :: (constraint ++ ['}'])) rest
        (by simp [not_mem_of_isName hname, not_mem_of_isConstraint hconstraint])
        (by simpa using hout)
    rw [List.append_assoc, List.cons_append, List.append_assoc, List.singleton_append,
      braced?_constrained hname hconstraint] at h
    contradiction

theorem coloned?_copied (h : coloned? (c :: raw) = none) :
    coloned? (c :: (normalizeFrom next 0 raw).1) = none := by
  rw [Option.eq_none_iff_forall_ne_some]
  intro p hp
  obtain ⟨d, rest, hcs, hstart⟩ := opens_of_coloned? hp
  obtain ⟨rfl, hout⟩ := List.cons.inj hcs
  have hbrace : '{' ∉ [d] := fun hmem => absurd (List.mem_singleton.mp hmem ▸ hstart) (by decide)
  obtain ⟨-, text, rfl, -⟩ := @exists_copied next raw [d] rest hbrace hout
  exact coloned?_ne_none hstart text h

/-- The name of a group stands in angle brackets, which become braces. -/
theorem namedGroup?_copied : namedGroup? (c :: (normalizeFrom next 0 raw).1) = none := by
  rw [Option.eq_none_iff_forall_ne_some]
  intro p hp
  obtain ⟨hname, rest, hcs⟩ := exists_of_namedGroup? hp
  obtain ⟨start', more, -, hmore⟩ :=
    @exists_copied next raw ['?', 'P'] _ (by decide) (List.cons.inj hcs).2
  cases more with
  | nil => contradiction
  | cons d more =>
    cases hq : placeholder? start' (d :: more) with
    | some q =>
      rw [normalizeFrom_placeholder hq] at hmore
      exact absurd (List.cons.inj hmore).1 (by decide)
    | none =>
      rw [normalizeFrom_plain hq] at hmore
      obtain ⟨rfl, hout⟩ := List.cons.inj hmore
      have hnone := @angled?_copied ('<' == '/') _ _ (placeholder?_eq_none_iff.mp hq).2.1
      rw [hout, angled?_name hname] at hnone
      contradiction

/-- A character that begins no placeholder begins none either before the normalized text. -/
theorem placeholder?_copied (h : placeholder? start (c :: raw) = none) :
    placeholder? start (c :: (normalizeFrom next 0 raw).1) = none := by
  obtain ⟨-, hangled, hbraced, hcoloned⟩ := placeholder?_eq_none_iff.mp h
  exact placeholder?_eq_none_iff.mpr ⟨namedGroup?_copied, angled?_copied hangled,
    braced?_copied hbraced, fun hstart => coloned?_copied (hcoloned hstart)⟩

/-! ### Normalizing twice -/

/-- The parameter without its constraint. -/
def bare (p : Param) : Param := { p with constraint := none }

/-- A name in braces stays. -/
theorem normalizeFrom_name {name : List Char} (h : IsName name) (start : Bool) (rest : List Char) :
    normalizeFrom start 0 ('{' :: (name ++ '}' :: rest)) =
      ('{' :: (name ++ '}' :: (normalizeFrom false 0 rest).1),
        ⟨String.ofList name, none⟩ :: (normalizeFrom false 0 rest).2) := by
  have hread : placeholder? start ('{' :: (name ++ ['}']) ++ rest) =
      some ⟨name, [], name.length + 2⟩ := by
    rw [List.cons_append, List.append_assoc, List.singleton_append, placeholder?, braced?_name h]
    rfl
  have hbehind : startBehind start ('{' :: (name ++ ['}'])) = false :=
    startBehind_append _ name ['}']
  have htext := normalizeFrom_text (List.cons_ne_nil _ _) hread (by simp)
  rw [hbehind, List.cons_append, List.append_assoc, List.singleton_append] at htext
  exact htext

/-- A normalized text is normal, also where no segment starts. -/
theorem normalizeFrom_normalizeFrom (raw : List Char) (start : Bool) (skip : Nat) {next : Bool}
    (hnext : next = true → start = true ∧ skip = 0) :
    normalizeFrom next 0 (normalizeFrom start skip raw).1 =
      ((normalizeFrom start skip raw).1, (normalizeFrom start skip raw).2.map bare) := by
  induction raw generalizing start skip next with
  | nil => rfl
  | cons c raw ih =>
    cases skip with
    | succ skip =>
      have hfalse : next = false := Bool.eq_false_iff.mpr fun h =>
        absurd (hnext h).2 (Nat.succ_ne_zero skip)
      rw [normalizeFrom]
      exact ih _ _ fun h => absurd h (by simp [hfalse])
    | zero =>
      cases hp : placeholder? start (c :: raw) with
      | none =>
        have hcopied : placeholder? next (c :: (normalizeFrom (c == '/') 0 raw).1) = none := by
          obtain ⟨hgroup, hangled, hbraced, hcoloned⟩ :=
            placeholder?_eq_none_iff.mp (placeholder?_copied hp)
          exact placeholder?_eq_none_iff.mpr ⟨hgroup, hangled, hbraced, fun h => hcoloned (hnext h).1⟩
        rw [normalizeFrom_plain hp, normalizeFrom_plain hcopied, ih _ _ fun h => ⟨h, rfl⟩]
      | some p =>
        rw [normalizeFrom_placeholder hp]
        dsimp only
        rw [List.cons_append, normalizeFrom_name (isName_of_placeholder? hp),
          ih _ _ fun h => absurd h (by decide)]
        rfl

theorem normalize_normalize (raw : List Char) :
    normalize (normalize raw).1 = ((normalize raw).1, (normalize raw).2.map bare) :=
  normalizeFrom_normalizeFrom raw true 0 fun _ => ⟨rfl, rfl⟩

/-! ### The names that a path shows -/

/-- The name of a placeholder in braces, without a constraint, at the start of the text. -/
def shownName? (cs : List Char) : Option (List Char) :=
  ((Text.after? "\x7b" cs).bind Text.word?).bind fun (name, rest) => if rest.head? == some '}'
    then some name else none

/-- The names of the placeholders that a path shows, from left to right. -/
def shownNames : List Char → List (List Char)
  | [] => []
  | c :: cs => (shownName? (c :: cs)).toList ++ shownNames cs

theorem shownName?_eq_some_iff {name : List Char} :
    shownName? cs = some name ↔ IsName name ∧ ∃ rest, cs = '{' :: (name ++ '}' :: rest) := by
  constructor
  · intro h
    obtain ⟨⟨word, rest⟩, hword, hend⟩ := Option.bind_eq_some_iff.mp h
    obtain ⟨start, hstart, hread⟩ := Option.bind_eq_some_iff.mp hword
    obtain ⟨hname, rfl, -⟩ := Text.word?_eq_some_iff.mp hread
    dsimp only at hend
    split at hend
    · next hclose =>
      obtain ⟨more, rfl⟩ := List.head?_eq_some_iff.mp (beq_iff_eq.mp hclose)
      obtain rfl := Option.some.inj hend
      exact ⟨hname, more, Text.after?_eq_some_iff.mp hstart⟩
    · contradiction
  · rintro ⟨hname, rest, rfl⟩
    have hread : Text.word? (name ++ '}' :: rest) = some (name, '}' :: rest) :=
      Text.word?_eq_some_iff.mpr ⟨hname, rfl, rfl⟩
    have hafter : Text.after? "\x7b" ('{' :: (name ++ '}' :: rest)) = some (name ++ '}' :: rest) :=
      Text.after?_append "\x7b" _
    rw [shownName?, hafter, Option.bind_some, hread]
    rfl

/-- Text without braces shows nothing. -/
theorem shownNames_append_of_not_mem (h : '{' ∉ xs) (rest : List Char) :
    shownNames (xs ++ rest) = shownNames rest := by
  induction xs with
  | nil => rfl
  | cons c xs ih =>
    obtain ⟨hc, hxs⟩ := not_or.mp (mt List.mem_cons.mpr h)
    have hnone : shownName? (c :: xs ++ rest) = none := by
      rw [Option.eq_none_iff_forall_ne_some]
      intro name hname
      obtain ⟨-, more, hmore⟩ := shownName?_eq_some_iff.mp hname
      exact hc (List.cons.inj hmore).1.symm
    rw [List.cons_append] at hnone ⊢
    rw [shownNames, hnone, ih hxs]
    rfl

theorem shownNames_name {name : List Char} (h : IsName name) (rest : List Char) :
    shownNames ('{' :: (name ++ '}' :: rest)) = name :: shownNames rest := by
  have hbrace : '{' ∉ name ++ ['}'] := by simp [not_mem_of_isName h]
  have hrest := shownNames_append_of_not_mem hbrace rest
  rw [List.append_assoc, List.singleton_append] at hrest
  rw [shownNames, shownName?_eq_some_iff.mpr ⟨h, rest, rfl⟩, hrest]
  rfl

/-- A normalized text shows its parameters. -/
theorem shownNames_normalizeFrom (start : Bool) (skip : Nat) (raw : List Char) :
    (shownNames (normalizeFrom start skip raw).1).map String.ofList =
      (normalizeFrom start skip raw).2.map Param.name := by
  induction raw generalizing start skip with
  | nil => rfl
  | cons c raw ih =>
    cases skip with
    | succ skip => exact ih _ _
    | zero =>
      cases hp : placeholder? start (c :: raw) with
      | none =>
        have hnone : shownName? (c :: (normalizeFrom (c == '/') 0 raw).1) = none := by
          rw [Option.eq_none_iff_forall_ne_some]
          intro name h
          obtain ⟨hname, rest, hrest⟩ := shownName?_eq_some_iff.mp h
          have hbraced :=
            (placeholder?_eq_none_iff.mp (@placeholder?_copied _ (c == '/') _ _ hp)).2.2.1
          rw [hrest, braced?_name hname] at hbraced
          contradiction
        rw [normalizeFrom_plain hp]
        dsimp only
        rw [shownNames, hnone]
        exact ih _ _
      | some p =>
        rw [normalizeFrom_placeholder hp]
        dsimp only
        rw [List.cons_append, shownNames_name (isName_of_placeholder? hp), List.map_cons, ih]
        rfl

/-! ### Joined paths -/

theorem shownNames_slash (xs ys : List Char) :
    shownNames (xs ++ '/' :: ys) = shownNames xs ++ shownNames ys := by
  induction xs with
  | nil => exact @shownNames_append_of_not_mem ['/'] (by decide) ys
  | cons c xs ih =>
    have hsame : shownName? (c :: (xs ++ '/' :: ys)) = shownName? (c :: xs) := by
      ext name
      rw [shownName?_eq_some_iff, shownName?_eq_some_iff]
      refine and_congr_right fun hname => ⟨?_, ?_⟩
      · rintro ⟨rest, h⟩
        obtain ⟨rfl, hxs⟩ := List.cons.inj h
        have hslash : '/' ∉ name ++ ['}'] := by simp [hname.not_mem (c := '/') (by decide)]
        have hsplit : xs ++ '/' :: ys = name ++ ['}'] ++ rest := by simpa using hxs
        rcases List.append_eq_append_iff.mp hsplit with ⟨more, hmore, hys⟩ | ⟨more, rfl, -⟩
        · cases more with
          | nil => exact ⟨[], by rw [← List.append_nil xs, ← hmore]⟩
          | cons d more =>
            obtain ⟨rfl, -⟩ := List.cons.inj hys
            exact absurd (hmore ▸ List.mem_append_right xs List.mem_cons_self) hslash
        · exact ⟨more, by simp⟩
      · rintro ⟨rest, h⟩
        exact ⟨rest ++ '/' :: ys, by rw [← List.cons_append, h]; simp⟩
    rw [List.cons_append, shownNames, hsame, ih, shownNames, List.append_assoc]

theorem shownNames_ofSegments (parts : List (List Char)) :
    shownNames (Path.ofSegments parts) = parts.flatMap shownNames := by
  induction parts with
  | nil => rfl
  | cons part parts ih =>
    cases parts with
    | nil => simp [Path.ofSegments]
    | cons next parts =>
      rw [Path.ofSegments, List.intercalate_cons_cons, List.append_assoc, List.singleton_append,
        shownNames_slash, List.flatMap_cons]
      exact congrArg (shownNames part ++ ·) ih

theorem shownNames_segments (cs : List Char) :
    (Path.segments cs).flatMap shownNames = shownNames cs := by
  have hempty : ∀ parts : List (List Char),
      (parts.filter fun s => !s.isEmpty).flatMap shownNames = parts.flatMap shownNames := by
    intro parts
    induction parts with
    | nil => rfl
    | cons part parts ih => cases part <;> simp [ih, shownNames]
  have hjoined : Path.ofSegments (Text.splitOn '/' cs) = cs := by
    rw [Text.splitOn_eq]
    exact List.intercalate_splitOn '/'
  rw [Path.segments, hempty, ← shownNames_ofSegments, hjoined]

/-- Joining neither makes nor breaks a name in braces. -/
theorem shownNames_join (pieces : List (List Char)) :
    shownNames (Path.join pieces) = pieces.flatMap shownNames := by
  rw [Path.join, shownNames_ofSegments, List.flatMap_assoc]
  exact congrArg pieces.flatMap (funext shownNames_segments)

end EndpointCensus.Pattern
