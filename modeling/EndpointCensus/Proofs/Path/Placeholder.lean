import EndpointCensus.Path.Pattern
import EndpointCensus.Proofs.Text.Word

/-! How placeholders are written. A typed, regex or braced placeholder is told by its own text,
whatever stands behind it, and each recogniser is turned round into the texts that it accepts; a
colon placeholder begins with every colon that stands before a name. -/

namespace EndpointCensus

namespace Text

/-- An ASCII letter or underscore, and word characters after it. -/
def IsName (cs : List Char) : Prop := cs.head?.any isWordStart = true ∧ ∀ c ∈ cs, isWord c = true

instance : DecidablePred IsName := fun cs =>
  decidable_of_iff (cs.head?.any isWordStart = true ∧ cs.all isWord = true) (by simp [IsName])

/-- A name is read to its end. -/
theorem word?_eq_some_iff {cs name rest : List Char} :
    word? cs = some (name, rest) ↔ IsName name ∧ cs = name ++ rest ∧
    rest.head?.any isWord = false := by
  constructor
  · intro h
    cases cs with
    | nil => contradiction
    | cons c cs =>
      rw [word?] at h
      split at h
      · next hstart =>
        obtain ⟨rfl, rfl⟩ := Prod.mk.inj (Option.some.inj h)
        have hword : ∀ d ∈ c :: cs.takeWhile isWord, isWord d = true :=
          List.forall_mem_cons.mpr ⟨isWord_of_isWordStart hstart,
            List.all_eq_true.mp List.all_takeWhile⟩
        refine ⟨⟨hstart, hword⟩, ?_, head?_dropWhile_any isWord cs⟩
        rw [List.cons_append, List.takeWhile_append_dropWhile]
      · contradiction
  · rintro ⟨⟨hstart, hword⟩, rfl, hrest⟩
    cases name with
    | nil => contradiction
    | cons c name =>
      have hfirst : isWordStart c = true := hstart
      have hname := (List.forall_mem_cons.mp hword).2
      rw [List.cons_append, word?, if_pos hfirst, takeWhile_run hname hrest,
        dropWhile_run hname hrest]

theorem IsName.not_mem {name : List Char} (h : IsName name) {c : Char} (hc : isWord c = false) :
    c ∉ name := fun hmem => by
  rw [h.2 c hmem] at hc
  contradiction

end Text

namespace Pattern

open Text (IsName isWord isWordStart word? word?_eq_some_iff after? after?_eq_some_iff)

/-! ### Names in angle brackets and in braces -/

/-- A converter: a name that may have dots. -/
def IsConverter (cs : List Char) : Prop :=
  cs.head?.any isWordStart = true ∧ ∀ c ∈ cs, (isWord c || c == '.') = true

instance : DecidablePred IsConverter := fun cs =>
  decidable_of_iff (cs.head?.any isWordStart = true ∧ (cs.all fun c => isWord c || c == '.') = true)
    (by simp [IsConverter])

theorem isConverter_of_isName {name : List Char} (h : IsName name) : IsConverter name :=
  ⟨h.1, fun c hc => by rw [h.2 c hc, Bool.true_or]⟩

theorem isName_of_isConverter {first : List Char} (h : IsConverter first) (hdot : '.' ∉ first) :
    IsName first := by
  refine ⟨h.1, fun c hc => ?_⟩
  have hpart := h.2 c hc
  rw [Bool.or_eq_true, beq_iff_eq] at hpart
  exact hpart.resolve_right fun heq => hdot (heq ▸ hc)

/-- What stands behind an angle bracket: a converter or a name, and the text after it. -/
def converter? : List Char → Option (List Char × List Char)
  | c :: cs =>
    let isPart (d : Char) := isWord d || d == '.'
    if isWordStart c then some (c :: cs.takeWhile isPart, cs.dropWhile isPart) else none
  | [] => none

theorem converter?_eq_some_iff {cs first rest : List Char} :
    converter? cs = some (first, rest) ↔
      IsConverter first ∧ cs = first ++ rest ∧ rest.head?.any (fun c => isWord c || c == '.') =
        false := by
  constructor
  · intro h
    cases cs with
    | nil => contradiction
    | cons c cs =>
      rw [converter?] at h
      split at h
      · next hstart =>
        obtain ⟨rfl, rfl⟩ := Prod.mk.inj (Option.some.inj h)
        have hpart : ∀ d ∈ c :: cs.takeWhile (fun d => isWord d || d == '.'),
            (isWord d || d == '.') = true :=
          List.forall_mem_cons.mpr
            ⟨by rw [Text.isWord_of_isWordStart hstart, Bool.true_or],
              List.all_eq_true.mp List.all_takeWhile⟩
        refine ⟨⟨hstart, hpart⟩, ?_, Text.head?_dropWhile_any _ cs⟩
        rw [List.cons_append, List.takeWhile_append_dropWhile]
      · contradiction
  · rintro ⟨⟨hstart, hpart⟩, rfl, hrest⟩
    cases first with
    | nil => contradiction
    | cons c first =>
      have hfirst : isWordStart c = true := hstart
      have hmore := (List.forall_mem_cons.mp hpart).2
      rw [List.cons_append, converter?, if_pos hfirst, Text.takeWhile_run hmore hrest,
        Text.dropWhile_run hmore hrest]

theorem angled?_eq (cs : List Char) :
    angled? cs = ((after? "<" cs).bind converter?).bind fun (first, rest) =>
      match rest with
      | ':' :: rest =>
        (word? rest).bind fun (name, rest) =>
          if rest.head? == some '>' then some ⟨name, first, first.length + name.length + 3⟩
            else none
      | '>' :: _ => if first.contains '.' then none else some ⟨first, [], first.length + 2⟩
      | _ => none := rfl

theorem angled?_name {name : List Char} (h : IsName name) (rest : List Char) :
    angled? ('<' :: (name ++ '>' :: rest)) = some ⟨name, [], name.length + 2⟩ := by
  have hfirst : converter? (name ++ '>' :: rest) = some (name, '>' :: rest) :=
    converter?_eq_some_iff.mpr ⟨isConverter_of_isName h, rfl, rfl⟩
  have hafter : after? "<" ('<' :: (name ++ '>' :: rest)) = some (name ++ '>' :: rest) :=
    Text.after?_append "<" _
  have hdot : name.contains '.' = false := by simpa using h.not_mem (c := '.') (by decide)
  rw [angled?_eq, hafter, Option.bind_some, hfirst, Option.bind_some]
  dsimp only
  rw [hdot]
  rfl

theorem angled?_converted {converter name : List Char} (hconverter : IsConverter converter)
    (h : IsName name) (rest : List Char) :
    angled? ('<' :: (converter ++ ':' :: (name ++ '>' :: rest))) =
      some ⟨name, converter, converter.length + name.length + 3⟩ := by
  have hfirst : converter? (converter ++ ':' :: (name ++ '>' :: rest)) =
      some (converter, ':' :: (name ++ '>' :: rest)) :=
    converter?_eq_some_iff.mpr ⟨hconverter, rfl, rfl⟩
  have hafter : after? "<" ('<' :: (converter ++ ':' :: (name ++ '>' :: rest))) =
      some (converter ++ ':' :: (name ++ '>' :: rest)) := Text.after?_append "<" _
  have hname : word? (name ++ '>' :: rest) = some (name, '>' :: rest) :=
    word?_eq_some_iff.mpr ⟨h, rfl, rfl⟩
  rw [angled?_eq, hafter, Option.bind_some, hfirst, Option.bind_some]
  change ((word? (name ++ '>' :: rest)).bind fun (name, rest) => if rest.head? == some '>' then
    some (Placeholder.mk name converter (converter.length + name.length + 3)) else none) = _
  rw [hname]
  rfl

/-- What stands in angle brackets is a name, with or without a converter. -/
theorem exists_of_angled? {cs : List Char} {p : Placeholder} (h : angled? cs = some p) :
    IsName p.name ∧ ∃ rest, cs = '<' :: (p.name ++ '>' :: rest) ∨
      ∃ converter, IsConverter converter ∧
      cs = '<' :: (converter ++ ':' :: (p.name ++ '>' :: rest)) := by
  rw [angled?_eq, Option.bind_eq_some_iff] at h
  obtain ⟨⟨first, rest⟩, hfirst, hrest⟩ := h
  obtain ⟨start, hstart, hconverter⟩ := Option.bind_eq_some_iff.mp hfirst
  obtain ⟨hvalid, rfl, -⟩ := converter?_eq_some_iff.mp hconverter
  obtain rfl := after?_eq_some_iff.mp hstart
  dsimp only at hrest
  split at hrest
  · obtain ⟨⟨name, rest⟩, hname, hend⟩ := Option.bind_eq_some_iff.mp hrest
    obtain ⟨hvalidName, rfl, -⟩ := word?_eq_some_iff.mp hname
    dsimp only at hend
    split at hend
    · next hclose =>
      obtain ⟨more, rfl⟩ := List.head?_eq_some_iff.mp (beq_iff_eq.mp hclose)
      obtain rfl := Option.some.inj hend
      exact ⟨hvalidName, more, .inr ⟨first, hvalid, rfl⟩⟩
    · contradiction
  · next more =>
    split at hrest
    · contradiction
    · next hdot =>
      obtain rfl := Option.some.inj hrest
      exact ⟨isName_of_isConverter hvalid (by simpa using hdot), more, .inl rfl⟩
  · contradiction

theorem opens_of_angled? {cs : List Char} {p : Placeholder} (h : angled? cs = some p) :
    ∃ d more, cs = '<' :: d :: more ∧ isWordStart d = true := by
  obtain ⟨hname, rest, rfl | ⟨converter, hconverter, rfl⟩⟩ := exists_of_angled? h
  · obtain ⟨d, more, hd, hword⟩ := Text.exists_cons_of_head?_any hname.1
    exact ⟨d, more ++ '>' :: rest, by rw [hd]; rfl, hword⟩
  · obtain ⟨d, more, rfl, hword⟩ := Text.exists_cons_of_head?_any hconverter.1
    exact ⟨d, more ++ ':' :: (p.name ++ '>' :: rest), rfl, hword⟩

theorem braced?_eq (cs : List Char) :
    braced? cs = ((cs.head?.filter (· == '{')).bind fun _ => word? cs.tail).bind fun (name, rest) =>
      match rest with
      | '}' :: _ => some ⟨name, [], name.length + 2⟩
      | ':' :: rest =>
        let plain (c : Char) := c != '{' && c != '}'
        let constraint := rest.takeWhile plain
        if !constraint.isEmpty && (rest.dropWhile plain).head? == some '}' then
          some ⟨name, constraint, name.length + constraint.length + 3⟩
        else none
      | _ => none := rfl

/-- Text that may stand behind the colon in braces. -/
def IsConstraint (cs : List Char) : Prop := cs ≠ [] ∧ ∀ c ∈ cs, c ≠ '{' ∧ c ≠ '}'

instance : DecidablePred IsConstraint := fun cs =>
  decidable_of_iff (cs ≠ [] ∧ (cs.all fun c => c != '{' && c != '}') = true)
    (by simp [IsConstraint])

theorem braced?_name {name : List Char} (h : IsName name) (rest : List Char) :
    braced? ('{' :: (name ++ '}' :: rest)) = some ⟨name, [], name.length + 2⟩ := by
  have hname : word? (name ++ '}' :: rest) = some (name, '}' :: rest) :=
    word?_eq_some_iff.mpr ⟨h, rfl, rfl⟩
  have hhead : (('{' :: (name ++ '}' :: rest)).head?.filter (· == '{')) = some '{' := rfl
  rw [braced?_eq, hhead, Option.bind_some, List.tail_cons, hname, Option.bind_some]
  rfl

theorem braced?_constrained {name constraint : List Char} (h : IsName name)
    (hconstraint : IsConstraint constraint) (rest : List Char) :
    braced? ('{' :: (name ++ ':' :: (constraint ++ '}' :: rest))) =
      some ⟨name, constraint, name.length + constraint.length + 3⟩ := by
  have hname : word? (name ++ ':' :: (constraint ++ '}' :: rest)) =
      some (name, ':' :: (constraint ++ '}' :: rest)) :=
    word?_eq_some_iff.mpr ⟨h, rfl, rfl⟩
  have hhead : (('{' :: (name ++ ':' :: (constraint ++ '}' :: rest))).head?.filter (· == '{')) =
      some '{' := rfl
  have hplain : ∀ c ∈ constraint, (c != '{' && c != '}') = true :=
    fun c hc => by simpa using hconstraint.2 c hc
  rw [braced?_eq, hhead, Option.bind_some, List.tail_cons, hname, Option.bind_some]
  change (if !((constraint ++ '}' :: rest).takeWhile fun c => c != '{' && c != '}').isEmpty &&
      ((constraint ++ '}' :: rest).dropWhile fun c => c != '{' && c != '}').head? == some '}'
    then some
      (Placeholder.mk name ((constraint ++ '}' :: rest).takeWhile fun c => c != '{' && c != '}') _)
    else none) = _
  rw [Text.takeWhile_run hplain rfl, Text.dropWhile_run hplain rfl]
  simp [hconstraint.1]

/-- What stands in braces is a name, with or without a constraint. -/
theorem exists_of_braced? {cs : List Char} {p : Placeholder} (h : braced? cs = some p) :
    IsName p.name ∧ ∃ rest, cs = '{' :: (p.name ++ '}' :: rest) ∨
      ∃ constraint, IsConstraint constraint ∧
      cs = '{' :: (p.name ++ ':' :: (constraint ++ '}' :: rest)) := by
  rw [braced?_eq, Option.bind_eq_some_iff] at h
  obtain ⟨⟨name, rest⟩, hname, hrest⟩ := h
  obtain ⟨brace, hbrace, hword⟩ := Option.bind_eq_some_iff.mp hname
  obtain ⟨hhead, heq⟩ := Option.filter_eq_some_iff.mp hbrace
  obtain ⟨tail, rfl⟩ := List.head?_eq_some_iff.mp hhead
  obtain rfl := beq_iff_eq.mp heq
  obtain ⟨hvalid, htail, -⟩ := word?_eq_some_iff.mp hword
  rw [List.tail_cons] at htail
  subst htail
  dsimp only at hrest
  split at hrest
  · next more =>
    obtain rfl := Option.some.inj hrest
    exact ⟨hvalid, more, .inl rfl⟩
  · next more =>
    split at hrest
    · next hconstraint =>
      obtain ⟨hne, hclose⟩ := Bool.and_eq_true_iff.mp hconstraint
      obtain ⟨rest, hend⟩ := List.head?_eq_some_iff.mp (beq_iff_eq.mp hclose)
      obtain rfl := Option.some.inj hrest
      have hfilled : more.takeWhile (fun c => c != '{' && c != '}') ≠ [] := fun hnil => by
        rw [hnil] at hne
        exact absurd hne (by decide)
      refine ⟨hvalid, rest, .inr ⟨_, ⟨hfilled, fun c hc => ?_⟩, ?_⟩⟩
      · simpa using List.all_eq_true.mp List.all_takeWhile c hc
      · rw [← hend, List.takeWhile_append_dropWhile]
    · contradiction
  · contradiction

theorem opens_of_braced? {cs : List Char} {p : Placeholder} (h : braced? cs = some p) :
    ∃ d more, cs = '{' :: d :: more ∧ isWordStart d = true := by
  obtain ⟨hname, rest, rfl | ⟨constraint, -, rfl⟩⟩ := exists_of_braced? h <;>
    obtain ⟨d, more, hd, hword⟩ := Text.exists_cons_of_head?_any hname.1
  · exact ⟨d, more ++ '}' :: rest, by rw [hd]; rfl, hword⟩
  · exact ⟨d, more ++ ':' :: (constraint ++ '}' :: rest), by rw [hd]; rfl, hword⟩

/-! ### Regex groups -/

/-- The inside of a character class. -/
inductive IsClass : List Char → Prop
  | nil : IsClass []
  | plain {c : Char} {cs : List Char} : c ≠ '\\' → c ≠ ']' → IsClass cs → IsClass (c :: cs)
  | escaped (c : Char) {cs : List Char} : IsClass cs → IsClass ('\\' :: c :: cs)

/-- The inside of a group: plain and escaped characters, character classes and balanced groups. -/
inductive IsBody : List Char → Prop
  | nil : IsBody []
  | plain {c : Char} {cs : List Char} : c ∉ ['\\', '[', '(', ')'] → IsBody cs → IsBody (c :: cs)
  | escaped (c : Char) {cs : List Char} : IsBody cs → IsBody ('\\' :: c :: cs)
  | set {inside cs : List Char} : IsClass inside → IsBody cs → IsBody ('[' :: (inside ++ ']' :: cs))
  | group {inside cs : List Char} : IsBody inside → IsBody cs →
    IsBody ('(' :: (inside ++ ')' :: cs))

theorem groupFrom_escape (depth : Nat) (inClass : Bool) (c : Char) (cs : List Char) :
    groupFrom depth inClass false ('\\' :: c :: cs) =
      (groupFrom depth inClass false cs).map ('\\' :: c :: ·) := by
  simp [groupFrom, Function.comp_def]

/-- A character class is passed over. -/
theorem groupFrom_class {inside : List Char} (h : IsClass inside) (depth : Nat) (rest : List Char) :
    groupFrom depth true false (inside ++ ']' :: rest) =
      (groupFrom depth false false rest).map (inside ++ ']' :: ·) := by
  induction h with
  | nil => simp [groupFrom]
  | plain hescape hclose _ ih =>
    rw [List.cons_append, groupFrom]
    simp [hescape, bne_iff_ne.mpr hclose, ih, Function.comp_def]
  | escaped c _ ih =>
    rw [List.cons_append, List.cons_append, groupFrom_escape, ih]
    simp [Function.comp_def]

/-- The inside of a group is passed over. -/
theorem groupFrom_body {body : List Char} (h : IsBody body) {depth : Nat} (hdepth : 1 ≤ depth)
    (rest : List Char) :
    groupFrom depth false false (body ++ rest) =
      (groupFrom depth false false rest).map (body ++ ·) := by
  induction h generalizing depth rest with
  | nil => simp
  | plain hplain _ ih =>
    simp only [List.mem_cons, List.not_mem_nil, or_false, not_or] at hplain
    obtain ⟨hescape, hclass, hopen, hclose⟩ := hplain
    rw [List.cons_append, groupFrom]
    simp [hescape, hclass, hopen, hclose, ih hdepth, Function.comp_def]
  | escaped c _ ih =>
    rw [List.cons_append, List.cons_append, groupFrom_escape, ih hdepth]
    simp [Function.comp_def]
  | @set inside cs hinside _ ih =>
    have hsplit : '[' :: (inside ++ ']' :: cs) ++ rest =
        '[' :: (inside ++ ']' :: (cs ++ rest)) := by simp
    have hpast := groupFrom_class hinside depth (cs ++ rest)
    rw [hsplit, groupFrom]
    simp [hpast, ih hdepth, Function.comp_def]
  | @group inside cs _ _ ihinside ih =>
    have hsplit : '(' :: (inside ++ ')' :: cs) ++ rest =
        '(' :: (inside ++ ')' :: (cs ++ rest)) := by simp
    have hclose : groupFrom (depth + 1) false false (')' :: (cs ++ rest)) =
        (groupFrom depth false false (cs ++ rest)).map (')' :: ·) := by
      rw [groupFrom]
      simp [show depth ≠ 0 by omega]
    rw [hsplit, groupFrom]
    simp [ihinside (Nat.le_add_left 1 depth), hclose, ih hdepth, Function.comp_def]

theorem namedGroup?_eq (cs : List Char) :
    namedGroup? cs = ((after? "(?P<" cs).bind word?).bind fun (name, rest) =>
      ((after? ">" rest).bind (groupFrom 1 false false)).bind fun body =>
        some ⟨name, body, name.length + body.length + 6⟩ := rfl

theorem namedGroup?_body {name body : List Char} (h : IsName name) (hbody : IsBody body)
    (rest : List Char) : namedGroup? ("(?P<".toList ++ (name ++ '>' :: (body ++ ')' :: rest))) =
      some ⟨name, body, name.length + body.length + 6⟩ := by
  have hname : word? (name ++ '>' :: (body ++ ')' :: rest)) =
      some (name, '>' :: (body ++ ')' :: rest)) :=
    word?_eq_some_iff.mpr ⟨h, rfl, rfl⟩
  have hafter : after? ">" ('>' :: (body ++ ')' :: rest)) = some (body ++ ')' :: rest) :=
    Text.after?_append ">" _
  have hclose : groupFrom 1 false false (')' :: rest) = some [] := by simp [groupFrom]
  rw [namedGroup?_eq, Text.after?_append, Option.bind_some, hname, Option.bind_some]
  dsimp only
  rw [hafter, Option.bind_some, groupFrom_body hbody (Nat.le_refl 1), hclose]
  simp

theorem exists_of_namedGroup? {cs : List Char} {p : Placeholder} (h : namedGroup? cs = some p) :
    IsName p.name ∧ ∃ rest, cs = '(' :: '?' :: 'P' :: '<' :: (p.name ++ '>' :: rest) := by
  rw [namedGroup?_eq, Option.bind_eq_some_iff] at h
  obtain ⟨⟨name, rest⟩, hname, hbody⟩ := h
  obtain ⟨start, hstart, hword⟩ := Option.bind_eq_some_iff.mp hname
  obtain ⟨hvalid, rfl, -⟩ := word?_eq_some_iff.mp hword
  obtain ⟨body, hafter, hp⟩ := Option.bind_eq_some_iff.mp hbody
  obtain ⟨more, hclose, -⟩ := Option.bind_eq_some_iff.mp hafter
  obtain rfl := after?_eq_some_iff.mp hclose
  obtain rfl := Option.some.inj hp
  exact ⟨hvalid, more, after?_eq_some_iff.mp hstart⟩

theorem opens_of_namedGroup? {cs : List Char} {p : Placeholder} (h : namedGroup? cs = some p) :
    ∃ d more, cs = '(' :: '?' :: 'P' :: '<' :: d :: more ∧ isWordStart d = true := by
  obtain ⟨hname, rest, rfl⟩ := exists_of_namedGroup? h
  obtain ⟨d, more, hd, hword⟩ := Text.exists_cons_of_head?_any hname.1
  exact ⟨d, more ++ '>' :: rest, by rw [hd]; rfl, hword⟩

/-! ### Names after a colon -/

theorem coloned?_eq (cs : List Char) :
    coloned? cs = ((after? ":" cs).bind word?).bind fun (name, rest) =>
      let inner := rest.tail.takeWhile (· != ')')
      let closed := rest.head? == some '(' && inner.length + 1 < rest.length
      let constraint := if closed then inner else []
      let size := name.length + 1 + if closed then inner.length + 2 else 0
      some ⟨name, constraint, if (cs.drop size).head? == some '?' then size + 1 else size⟩ := rfl

/-- A name without a pattern behind it, and the question mark if one follows. -/
theorem coloned?_name {name : List Char} (h : IsName name) {rest : List Char}
    (hword : rest.head?.any isWord = false) (hopen : rest.head? ≠ some '(') :
    coloned? (':' :: (name ++ rest)) =
      some ⟨name, [], name.length + 1 + if rest.head? = some '?' then 1 else 0⟩ := by
  have hafter : after? ":" (':' :: (name ++ rest)) = some (name ++ rest) := Text.after?_append ":" _
  have hdrop : (':' :: (name ++ rest)).drop (name.length + 1) = rest := by simp
  rw [coloned?_eq, hafter, Option.bind_some, word?_eq_some_iff.mpr ⟨h, rfl, hword⟩,
    Option.bind_some]
  simp only [beq_eq_false_iff_ne.mpr hopen, Bool.false_and, Bool.false_eq_true, if_false,
    Nat.add_zero, hdrop, beq_iff_eq]
  split <;> rfl

/-- A name with a pattern behind it, and the question mark if one follows. -/
theorem coloned?_pattern {name pattern : List Char} (h : IsName name) (hpattern : ')' ∉ pattern)
    (rest : List Char) : coloned? (':' :: (name ++ '(' :: (pattern ++ ')' :: rest))) =
      some ⟨name, pattern, name.length + pattern.length + 3 + if rest.head? = some '?' then 1
        else 0⟩ := by
  have hafter : after? ":" (':' :: (name ++ '(' :: (pattern ++ ')' :: rest))) =
      some (name ++ '(' :: (pattern ++ ')' :: rest)) := Text.after?_append ":" _
  have hname : word? (name ++ '(' :: (pattern ++ ')' :: rest)) =
      some (name, '(' :: (pattern ++ ')' :: rest)) :=
    word?_eq_some_iff.mpr ⟨h, rfl, rfl⟩
  have hinner : (pattern ++ ')' :: rest).takeWhile (· != ')') = pattern :=
    Text.takeWhile_run (fun c hc => bne_iff_ne.mpr fun heq => hpattern (heq ▸ hc)) rfl
  have hclosed : (('(' :: (pattern ++ ')' :: rest)).head? == some '(' &&
      decide (pattern.length + 1 < ('(' :: (pattern ++ ')' :: rest)).length)) = true := by simp
  have hdrop : (':' :: (name ++ '(' :: (pattern ++ ')' :: rest))).drop
      (name.length + 1 + (pattern.length + 2)) = rest := by
    have htext : ':' :: (name ++ '(' :: (pattern ++ ')' :: rest)) =
        ':' :: (name ++ '(' :: (pattern ++ [')'])) ++ rest := by
      simp
    rw [htext]
    exact List.drop_left' (by simp; omega)
  rw [coloned?_eq, hafter, Option.bind_some, hname, Option.bind_some]
  simp only [List.tail_cons, hinner, hclosed, if_true, hdrop, beq_iff_eq]
  congr 2
  split <;> omega

theorem exists_of_coloned? {cs : List Char} {p : Placeholder} (h : coloned? cs = some p) :
    IsName p.name ∧ ∃ rest, cs = ':' :: (p.name ++ rest) := by
  obtain ⟨⟨name, rest⟩, hname, hp⟩ := Option.bind_eq_some_iff.mp h
  obtain ⟨start, hstart, hword⟩ := Option.bind_eq_some_iff.mp hname
  obtain ⟨hvalid, rfl, -⟩ := word?_eq_some_iff.mp hword
  obtain rfl := Option.some.inj hp
  exact ⟨hvalid, rest, after?_eq_some_iff.mp hstart⟩

theorem opens_of_coloned? {cs : List Char} {p : Placeholder} (h : coloned? cs = some p) :
    ∃ d more, cs = ':' :: d :: more ∧ isWordStart d = true := by
  obtain ⟨hname, rest, rfl⟩ := exists_of_coloned? h
  obtain ⟨d, more, hd, hword⟩ := Text.exists_cons_of_head?_any hname.1
  exact ⟨d, more ++ rest, by rw [hd]; rfl, hword⟩

/-- Every colon before a letter or an underscore begins a placeholder. -/
theorem coloned?_ne_none {c : Char} (h : isWordStart c = true) (cs : List Char) :
    coloned? (':' :: c :: cs) ≠ none := by
  have hname : word? (c :: cs) = some (c :: cs.takeWhile isWord, cs.dropWhile isWord) := by
    rw [word?, if_pos h]
  have hafter : after? ":" (':' :: c :: cs) = some (c :: cs) := Text.after?_append ":" _
  unfold coloned?
  rw [hafter]
  simp [hname]

end Pattern

end EndpointCensus
