import EndpointCensus.Proofs.Path.Join
import EndpointCensus.Proofs.Path.Normal

/-! Patterns that are read on either side of a slash. A placeholder is told by its own text, and
none ends in a slash, so a pattern is read up to a slash as if nothing followed, unless a constraint
that begins before the slash goes on behind it. A route that is put before another one is then the
same as the two joined. -/

namespace EndpointCensus

namespace Text

variable {p : Char → Bool} {c : Char}

theorem takeWhile_stop (hc : p c = false) (xs ys : List Char) :
    (xs ++ c :: ys).takeWhile p = xs.takeWhile p := by
  induction xs with
  | nil => simp [hc]
  | cons x xs ih => simp [List.takeWhile_cons, ih]

theorem dropWhile_stop (hc : p c = false) (xs ys : List Char) :
    (xs ++ c :: ys).dropWhile p = xs.dropWhile p ++ c :: ys := by
  induction xs with
  | nil => simp [hc]
  | cons x xs ih =>
    rw [List.cons_append, List.dropWhile_cons, List.dropWhile_cons, ih]
    split <;> rfl

/-- A name ends before a slash. -/
theorem word?_slash (xs ys : List Char) :
    word? (xs ++ '/' :: ys) = (word? xs).map fun r => (r.1, r.2 ++ '/' :: ys) := by
  have hslash : isWord '/' = false := by decide
  cases xs with
  | nil => rfl
  | cons x xs =>
    rw [List.cons_append, word?, word?, takeWhile_stop hslash, dropWhile_stop hslash]
    split <;> rfl

end Text

namespace Pattern

open Text (IsName isWord)

variable {start : Bool} {xs ys cs : List Char} {p : Placeholder}
  {f g : List Char → Option Placeholder}

/-! ### What a placeholder is told by -/

/-- What is found is told by its own text, the last character of which is no slash. -/
def IsSelfTold (f : List Char → Option Placeholder) : Prop :=
  ∀ cs p, f cs = some p → ∃ front last rest, cs = front ++ last :: rest ∧
    front.length + 1 = p.size ∧ last ≠ '/' ∧ ∀ more, f (front ++ last :: more) = some p

theorem isSelfTold_angled : IsSelfTold angled? := by
  intro cs p h
  obtain ⟨hname, rest, rfl | ⟨converter, hconverter, rfl⟩⟩ := exists_of_angled? h
  · rw [angled?_name hname rest] at h
    refine ⟨'<' :: p.name, '>', rest, rfl, ?_, by decide,
      fun more => (angled?_name hname more).trans h⟩
    rw [← Option.some.inj h]
    rfl
  · have htext (more : List Char) : '<' :: (converter ++ ':' :: p.name) ++ '>' :: more =
        '<' :: (converter ++ ':' :: (p.name ++ '>' :: more)) := by simp
    rw [angled?_converted hconverter hname rest] at h
    refine ⟨'<' :: (converter ++ ':' :: p.name), '>', rest, (htext rest).symm, ?_, by decide,
      fun more => ?_⟩
    · rw [← Option.some.inj h]
      simp
      omega
    · rw [htext, angled?_converted hconverter hname more, h]

theorem isSelfTold_braced : IsSelfTold braced? := by
  intro cs p h
  obtain ⟨hname, rest, rfl | ⟨constraint, hconstraint, rfl⟩⟩ := exists_of_braced? h
  · rw [braced?_name hname rest] at h
    refine ⟨'{' :: p.name, '}', rest, rfl, ?_, by decide,
      fun more => (braced?_name hname more).trans h⟩
    rw [← Option.some.inj h]
    rfl
  · have htext (more : List Char) : '{' :: (p.name ++ ':' :: constraint) ++ '}' :: more =
        '{' :: (p.name ++ ':' :: (constraint ++ '}' :: more)) := by simp
    rw [braced?_constrained hname hconstraint rest] at h
    refine ⟨'{' :: (p.name ++ ':' :: constraint), '}', rest, (htext rest).symm, ?_, by decide,
      fun more => ?_⟩
    · rw [← Option.some.inj h]
      simp
      omega
    · rw [htext, braced?_constrained hname hconstraint more, h]

/-- A group ends with the parenthesis that closes it, whatever follows. -/
theorem exists_of_groupFrom {depth : Nat} {inClass escaped : Bool} {body : List Char}
    (h : groupFrom depth inClass escaped cs = some body) :
    ∃ rest, cs = body ++ ')' :: rest ∧
    ∀ more, groupFrom depth inClass escaped (body ++ ')' :: more) = some body := by
  induction cs generalizing depth inClass escaped body with
  | nil => contradiction
  | cons c cs ih =>
    -- Where the group goes on, its first character does the same before any other text.
    have hmore {depth' : Nat} {inClass' escaped' : Bool}
        (hstep : ∀ ds, groupFrom depth inClass escaped (c :: ds) =
          (groupFrom depth' inClass' escaped' ds).map (c :: ·)) :
        ∃ rest, c :: cs = body ++ ')' :: rest ∧
          ∀ more, groupFrom depth inClass escaped (body ++ ')' :: more) = some body := by
      rw [hstep] at h
      obtain ⟨inner, hinner, rfl⟩ := Option.map_eq_some_iff.mp h
      obtain ⟨rest, rfl, hread⟩ := ih hinner
      exact ⟨rest, rfl, fun more => by rw [List.cons_append, hstep, hread]; rfl⟩
    by_cases hescaped : escaped = true
    · exact hmore fun ds => by rw [groupFrom, if_pos hescaped]
    by_cases hslash : (c == '\\') = true
    · exact hmore fun ds => by rw [groupFrom, if_neg hescaped, if_pos hslash]
    by_cases hclass : inClass = true
    · exact hmore fun ds => by rw [groupFrom, if_neg hescaped, if_neg hslash, if_pos hclass]
    by_cases hset : (c == '[') = true
    · exact hmore fun ds => by
        rw [groupFrom, if_neg hescaped, if_neg hslash, if_neg hclass, if_pos hset]
    by_cases hopen : (c == '(') = true
    · exact hmore fun ds => by
        rw [groupFrom, if_neg hescaped, if_neg hslash, if_neg hclass, if_neg hset, if_pos hopen]
    by_cases hclose : (c == ')') = true
    · by_cases hdepth : depth ≤ 1
      · have hend (ds : List Char) : groupFrom depth inClass escaped (c :: ds) = some [] := by
          rw [groupFrom, if_neg hescaped, if_neg hslash, if_neg hclass, if_neg hset, if_neg hopen,
            if_pos hclose, if_pos hdepth]
        obtain rfl := Option.some.inj ((hend cs).symm.trans h)
        obtain rfl := beq_iff_eq.mp hclose
        exact ⟨cs, rfl, hend⟩
      · exact hmore fun ds => by
          rw [groupFrom, if_neg hescaped, if_neg hslash, if_neg hclass, if_neg hset, if_neg hopen,
            if_pos hclose, if_neg hdepth]
    · exact hmore fun ds => by
        rw [groupFrom, if_neg hescaped, if_neg hslash, if_neg hclass, if_neg hset, if_neg hopen,
          if_neg hclose]

theorem isSelfTold_namedGroup : IsSelfTold namedGroup? := by
  intro cs p h
  rw [namedGroup?_eq, Option.bind_eq_some_iff] at h
  obtain ⟨⟨name, rest⟩, hname, hbody⟩ := h
  obtain ⟨named, hstart, hword⟩ := Option.bind_eq_some_iff.mp hname
  obtain ⟨hvalid, rfl, -⟩ := Text.word?_eq_some_iff.mp hword
  obtain ⟨body, hafter, hp⟩ := Option.bind_eq_some_iff.mp hbody
  obtain ⟨group, hclose, hgroup⟩ := Option.bind_eq_some_iff.mp hafter
  obtain rfl := Text.after?_eq_some_iff.mp hclose
  obtain ⟨rest, rfl, hread⟩ := exists_of_groupFrom hgroup
  obtain rfl := Option.some.inj hp
  have htext (more : List Char) : "(?P<".toList ++ (name ++ '>' :: body) ++ ')' :: more =
      "(?P<".toList ++ (name ++ '>' :: (body ++ ')' :: more)) := by simp
  refine ⟨"(?P<".toList ++ (name ++ '>' :: body), ')', rest, ?_, ?_, by decide, fun more => ?_⟩
  · rw [htext]
    exact Text.after?_eq_some_iff.mp hstart
  · simp
    omega
  · have hfirst : Text.word? (name ++ '>' :: (body ++ ')' :: more)) =
        some (name, '>' :: (body ++ ')' :: more)) :=
      Text.word?_eq_some_iff.mpr ⟨hvalid, rfl, rfl⟩
    have hangle : Text.after? ">" ('>' :: (body ++ ')' :: more)) = some (body ++ ')' :: more) :=
      Text.after?_append ">" _
    rw [htext, namedGroup?_eq, Text.after?_append, Option.bind_some, hfirst, Option.bind_some]
    dsimp only
    rw [hangle, Option.bind_some, hread, Option.bind_some]

/-! ### Up to a slash -/

/-- What ends before a slash is found without the slash, and nothing ends with one. -/
structure StopsAtSlash (f : List Char → Option Placeholder) : Prop where
  eq : ∀ xs ys, (∀ p, f (xs ++ '/' :: ys) = some p → p.size ≤ xs.length) →
    f (xs ++ '/' :: ys) = f xs
  size_le : ∀ xs p, f (xs ++ ['/']) = some p → p.size ≤ xs.length

theorem IsSelfTold.stopsAtSlash (hf : IsSelfTold f) : StopsAtSlash f where
  eq xs ys hsize := by
    refine Option.ext fun p => ⟨fun h => ?_, fun h => ?_⟩
    · obtain ⟨front, last, rest, heq, hlength, -, hread⟩ := hf _ p h
      have hsplit : xs ++ '/' :: ys = (front ++ [last]) ++ rest := by
        rw [heq, List.append_assoc, List.singleton_append]
      have hshort : (front ++ [last]).length ≤ xs.length := by
        rw [List.length_append, List.length_singleton, hlength]
        exact hsize p h
      obtain ⟨more, rfl⟩ :=
        List.prefix_of_prefix_length_le ⟨rest, hsplit.symm⟩ (List.prefix_append xs _) hshort
      rw [List.append_assoc, List.singleton_append]
      exact hread more
    · obtain ⟨front, last, rest, rfl, -, -, hread⟩ := hf _ p h
      rw [List.append_assoc, List.cons_append]
      exact hread _
  size_le xs p h := by
    obtain ⟨front, last, rest, heq, hlength, hlast, -⟩ := hf _ p h
    -- The slash comes last, so it is not the last character of the placeholder.
    have hne : rest ≠ [] := by
      rintro rfl
      have hends := congrArg List.getLast? heq
      rw [List.getLast?_concat, List.getLast?_concat] at hends
      exact hlast (Option.some.inj hends).symm
    have htotal := congrArg List.length heq
    have hpos := List.length_pos_iff.mpr hne
    simp only [List.length_append, List.length_cons, List.length_nil] at htotal
    omega

theorem StopsAtSlash.or (hf : StopsAtSlash f) (hg : StopsAtSlash g) :
    StopsAtSlash fun cs => (f cs).or (g cs) where
  eq xs ys hsize := by
    have hfirst := hf.eq xs ys fun p h => hsize p (by rw [h, Option.some_or])
    cases h : f (xs ++ '/' :: ys) with
    | some p => rw [← hfirst, h, Option.some_or, Option.some_or]
    | none =>
      have hsecond := hg.eq xs ys fun p h' => hsize p (by rw [h, h', Option.none_or])
      rw [← hfirst, h, Option.none_or, Option.none_or, hsecond]
  size_le xs p h := by
    rcases Option.or_eq_some_iff.mp h with h | ⟨-, h⟩
    · exact hf.size_le xs p h
    · exact hg.size_le xs p h

/-- A question mark is not found behind the text before a slash. -/
theorem head?_drop_slash {n : Nat} (h : n ≤ xs.length) (ys : List Char) :
    (((xs ++ '/' :: ys).drop n).head? == some '?') = ((xs.drop n).head? == some '?') := by
  rw [List.drop_append_of_le_length h]
  cases hdrop : xs.drop n with
  | nil => rfl
  | cons d ds => rfl

/-- The pattern in parentheses behind the name of a colon placeholder, and how
many characters it takes. -/
def colonPattern (rest : List Char) : List Char × Nat :=
  let inner := rest.tail.takeWhile (· != ')')
  if rest.head? = some '(' ∧ inner.length + 1 < rest.length then (inner, inner.length + 2)
    else ([], 0)

theorem coloned?_cons (cs : List Char) : coloned? (':' :: cs) = (Text.word? cs).map fun r =>
    let size := r.1.length + 1 + (colonPattern r.2).2
    ⟨r.1, (colonPattern r.2).1, if ((':' :: cs).drop size).head? == some '?' then size + 1
      else size⟩ := by
  have hafter : Text.after? ":" (':' :: cs) = some cs := Text.after?_append ":" cs
  rw [coloned?_eq, hafter, Option.bind_some]
  cases Text.word? cs with
  | none => rfl
  | some r =>
    rw [Option.bind_some, Option.map_some]
    by_cases hclosed : r.2.head? = some '(' ∧
      (r.2.tail.takeWhile (· != ')')).length + 1 < r.2.length
    · simp [colonPattern, hclosed]
    · have hopen : (r.2.head? == some '(' &&
          decide ((r.2.tail.takeWhile (· != ')')).length + 1 < r.2.length)) = false := by
        simpa using hclosed
      simp only [colonPattern, if_neg hclosed, hopen]
      rfl

theorem colonPattern_of_not_mem {cs : List Char} (h : ')' ∉ cs) :
    colonPattern ('(' :: cs) = ([], 0) := by
  have hall : cs.takeWhile (· != ')') = cs :=
    Text.takeWhile_of_forall fun c hc => bne_iff_ne.mpr (ne_of_mem_of_not_mem hc h)
  rw [colonPattern, if_neg]
  simp [hall]

theorem colonPattern_append {cs : List Char} (h : ')' ∉ cs) (rest : List Char) :
    colonPattern ('(' :: (cs ++ ')' :: rest)) = (cs, cs.length + 2) := by
  have hinner : (cs ++ ')' :: rest).takeWhile (· != ')') = cs :=
    Text.takeWhile_run (fun c hc => bne_iff_ne.mpr (ne_of_mem_of_not_mem hc h)) rfl
  rw [colonPattern, if_pos (by simp [hinner])]
  simp [hinner]

theorem colonPattern_of_head? {cs : List Char} (h : cs.head? ≠ some '(') :
    colonPattern cs = ([], 0) := by
  rw [colonPattern, if_neg fun hopen => h hopen.1]

theorem colonPattern_le (cs : List Char) : (colonPattern cs).2 ≤ cs.length := by
  rw [colonPattern]
  split
  next h => exact h.2
  next => exact Nat.zero_le _

theorem add_colonPattern_le (name cs : List Char) :
    name.length + 1 + (colonPattern cs).2 ≤ (':' :: (name ++ cs)).length := by
  have hle := colonPattern_le cs
  rw [List.length_cons, List.length_append]
  omega

/-- A pattern is the same before a slash, unless it goes on behind the slash. -/
theorem colonPattern_slash (xs ys : List Char) : colonPattern (xs ++ '/' :: ys) = colonPattern xs ∨
    ys ≠ [] ∧ xs.length < (colonPattern (xs ++ '/' :: ys)).2 := by
  by_cases hopen : xs.head? = some '('
  · obtain ⟨cs, rfl⟩ := List.head?_eq_some_iff.mp hopen
    by_cases hclosed : ')' ∈ cs
    · obtain ⟨inner, rest, rfl, hinner⟩ := List.eq_append_cons_of_mem hclosed
      have hmore := colonPattern_append hinner (rest ++ '/' :: ys)
      refine .inl ?_
      rw [colonPattern_append hinner, ← hmore]
      simp
    by_cases hbehind : ')' ∈ ys
    · obtain ⟨inner, rest, rfl, hinner⟩ := List.eq_append_cons_of_mem hbehind
      have hnot : ')' ∉ cs ++ '/' :: inner := by simp [hclosed, hinner]
      have hmore := colonPattern_append hnot rest
      refine .inr ⟨by simp, ?_⟩
      rw [List.append_assoc, List.cons_append] at hmore
      rw [List.cons_append, hmore, List.length_cons, List.length_append]
      dsimp only
      omega
    · have hnot : ')' ∉ cs ++ '/' :: ys := by simp [hclosed, hbehind]
      exact .inl
        (by rw [List.cons_append, colonPattern_of_not_mem hnot, colonPattern_of_not_mem hclosed])
  · have hopen' : (xs ++ '/' :: ys).head? ≠ some '(' := by
      cases xs with
      | nil => simp
      | cons x xs => exact hopen
    exact .inl (by rw [colonPattern_of_head? hopen, colonPattern_of_head? hopen'])

theorem coloned?_of_ne {c : Char} (h : c ≠ ':') (cs : List Char) : coloned? (c :: cs) = none := by
  refine Option.eq_none_iff_forall_ne_some.mpr fun p hp => ?_
  obtain ⟨d, more, hcs, -⟩ := opens_of_coloned? hp
  exact h (List.cons.inj hcs).1

theorem stopsAtSlash_coloned : StopsAtSlash coloned? where
  eq xs ys hsize := by
    cases xs with
    | nil => rfl
    | cons x cs =>
      by_cases hx : x = ':'
      · subst hx
        rw [List.cons_append, coloned?_cons, Text.word?_slash] at hsize ⊢
        rw [coloned?_cons, Option.map_map]
        cases hword : Text.word? cs with
        | none => rfl
        | some r =>
          obtain ⟨-, rfl, -⟩ := Text.word?_eq_some_iff.mp hword
          rw [hword] at hsize
          have hle := hsize _ rfl
          dsimp only at hle
          rcases colonPattern_slash r.2 ys with hsame | ⟨-, hlong⟩
          · rw [Option.map_some, Option.map_some, Function.comp_apply]
            dsimp only
            rw [hsame, ← List.cons_append, head?_drop_slash (add_colonPattern_le r.1 r.2)]
          · -- The pattern would reach over the slash.
            split at hle <;> simp at hle <;> omega
      · rw [List.cons_append, coloned?_of_ne hx, coloned?_of_ne hx]
  size_le xs p h := by
    cases xs with
    | nil => contradiction
    | cons x cs =>
      by_cases hx : x = ':'
      · subst hx
        rw [List.cons_append, coloned?_cons, Text.word?_slash, Option.map_map] at h
        obtain ⟨r, hword, rfl⟩ := Option.map_eq_some_iff.mp h
        obtain ⟨-, rfl, -⟩ := Text.word?_eq_some_iff.mp hword
        have hsame := (colonPattern_slash r.2 []).resolve_right fun hmore => hmore.1 rfl
        have hend := add_colonPattern_le r.1 r.2
        rw [Function.comp_apply]
        dsimp only
        rw [hsame, ← List.cons_append, head?_drop_slash hend]
        split
        next hmark =>
          -- The question mark itself stands before the slash.
          refine Nat.lt_of_not_le fun hlong => ?_
          rw [List.drop_eq_nil_of_le hlong] at hmark
          contradiction
        next => exact hend
      · rw [List.cons_append, coloned?_of_ne hx] at h
        contradiction

theorem stopsAtSlash_placeholder (start : Bool) : StopsAtSlash (placeholder? start) := by
  refine isSelfTold_namedGroup.stopsAtSlash.or <| isSelfTold_angled.stopsAtSlash.or <|
    isSelfTold_braced.stopsAtSlash.or ?_
  cases start with
  | true => exact stopsAtSlash_coloned
  | false => exact ⟨fun _ _ _ => rfl, fun _ _ h => by contradiction⟩

/-! ### Routes before a slash -/

/-- Whether every placeholder that begins in a text, with `rest` behind it, ends in it too; `skip`
characters of the text belong to a placeholder already read. -/
def isClosedBefore (rest : List Char) : Bool → Nat → List Char → Bool
  | _, skip, [] => skip == 0
  | _, skip + 1, c :: cs => isClosedBefore rest (c == '/') skip cs
  | start, 0, c :: cs =>
    match placeholder? start (c :: (cs ++ rest)) with
    | some p => isClosedBefore rest false (p.size - 1) cs
    | none => isClosedBefore rest (c == '/') 0 cs

theorem le_of_isClosedBefore {rest : List Char} {skip : Nat}
    (h : isClosedBefore rest start skip xs = true) : skip ≤ xs.length := by
  induction xs generalizing start skip with
  | nil =>
    rw [isClosedBefore, beq_iff_eq] at h
    omega
  | cons c cs ih =>
    cases skip with
    | zero => exact Nat.zero_le _
    | succ skip =>
      rw [isClosedBefore] at h
      exact Nat.succ_le_succ (ih h)

/-- What follows the first slash behind the text does not matter to a placeholder in it. -/
theorem placeholder?_of_isClosedBefore {c : Char}
    (h : isClosedBefore ('/' :: ys) start 0 (c :: cs) = true) (more : List Char)
    (hmore : more = [] ∨ more = '/' :: ys ∨ more = ['/']) :
    placeholder? start (c :: (cs ++ more)) = placeholder? start (c :: (cs ++ '/' :: ys)) := by
  have hstop := stopsAtSlash_placeholder start
  have hshort := hstop.eq (c :: cs) ys fun p hp => by
    rw [isClosedBefore, show placeholder? start (c :: (cs ++ '/' :: ys)) = some p from hp] at h
    have := le_of_isClosedBefore h
    rw [List.length_cons]
    omega
  have hlast := hstop.eq (c :: cs) [] fun p hp => hstop.size_le _ p hp
  rcases hmore with rfl | rfl | rfl
  · rw [List.append_nil]
    exact hshort.symm
  · rfl
  · exact hlast.trans hshort.symm

/-- What is read up to a slash is the same whatever follows the slash, and so is
what is read behind it. -/
theorem normalizeFrom_slash {skip : Nat} (h : isClosedBefore ('/' :: ys) start skip xs = true) :
    (normalizeFrom start skip (xs ++ '/' :: ys)).1 = (normalizeFrom start skip xs).1 ++ '/' ::
      (normalize ys).1 ∧ (normalizeFrom start skip (xs ++ ['/'])).1 =
        (normalizeFrom start skip xs).1 ++ ['/'] := by
  induction xs generalizing start skip with
  | nil =>
    rw [isClosedBefore, beq_iff_eq] at h
    subst h
    have hplain (cs : List Char) := placeholder?_of_not_isOpening (c := '/') (by decide) start cs
    rw [List.nil_append, List.nil_append, normalizeFrom_plain (hplain ys),
      normalizeFrom_plain (hplain [])]
    exact ⟨rfl, rfl⟩
  | cons c cs ih =>
    cases skip with
    | succ skip =>
      rw [isClosedBefore] at h
      exact ih h
    | zero =>
      have hsame := placeholder?_of_isClosedBefore h
      rw [isClosedBefore] at h
      rw [List.cons_append, List.cons_append]
      cases hp : placeholder? start (c :: (cs ++ '/' :: ys)) with
      | some p =>
        rw [hp] at h hsame
        obtain ⟨hrest, hlast⟩ := ih h
        have hbare := hsame [] (.inl rfl)
        rw [List.append_nil] at hbare
        rw [normalizeFrom_placeholder hp, normalizeFrom_placeholder (hsame ['/'] (.inr (.inr rfl))),
          normalizeFrom_placeholder hbare, hrest, hlast]
        exact ⟨by simp, by simp⟩
      | none =>
        rw [hp] at h hsame
        obtain ⟨hrest, hlast⟩ := ih h
        have hbare := hsame [] (.inl rfl)
        rw [List.append_nil] at hbare
        rw [normalizeFrom_plain hp, normalizeFrom_plain (hsame ['/'] (.inr (.inr rfl))),
          normalizeFrom_plain hbare, hrest, hlast]
        exact ⟨rfl, rfl⟩

/-- Two routes, one of them empty, or one of them with a slash where they meet that no
placeholder reaches over. -/
inductive MeetsAtSlash : List Char → List Char → Prop
  | bare (inner : List Char) : MeetsAtSlash [] inner
  | whole (outer : List Char) : MeetsAtSlash outer []
  | closing {base inner : List Char} (h : isClosedBefore ('/' :: inner) true 0 base = true) :
    MeetsAtSlash (base ++ ['/']) inner
  | opening {outer rest : List Char} (h : isClosedBefore ('/' :: rest) true 0 outer = true) :
    MeetsAtSlash outer ('/' :: rest)

/-- Where two routes meet at a slash, the segments of both together are those of the one and
then those of the other. -/
theorem MeetsAtSlash.segments {outer inner : List Char} (h : MeetsAtSlash outer inner) :
    Path.segments (normalize (outer ++ inner)).1 =
      Path.segments (normalize outer).1 ++ Path.segments (normalize inner).1 := by
  cases h with
  | bare => rfl
  | whole =>
    rw [List.append_nil]
    exact (List.append_nil _).symm
  | @closing base inner h =>
    obtain ⟨hwhole, hbefore⟩ := normalizeFrom_slash h
    have hbefore : (normalize (base ++ ['/'])).1 = (normalize base).1 ++ '/' :: [] := hbefore
    rw [List.append_assoc, List.singleton_append, normalize, hwhole, Path.segments_append, hbefore,
      Path.segments_append]
    exact congrArg (· ++ _) (List.append_nil _).symm
  | @opening outer rest h =>
    obtain ⟨hwhole, -⟩ := normalizeFrom_slash h
    have hinner : (normalize ('/' :: rest)).1 = '/' :: (normalize rest).1 := by
      rw [normalize, normalizeFrom_plain (placeholder?_of_not_isOpening (by decide) _ _)]
      rfl
    have hslash := Path.segments_append [] (normalize rest).1
    rw [normalize, hwhole, Path.segments_append, hinner]
    exact congrArg (_ ++ ·) hslash.symm

end Pattern

end EndpointCensus
