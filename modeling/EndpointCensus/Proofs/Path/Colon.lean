import EndpointCensus.Proofs.Path.Normal

/-! Routes with colon parameters. Whether a colon begins a parameter is told by the character before
it: it does at the start of a segment, and everywhere else the parameter, its pattern and its
question mark are copied as they stand. -/

namespace EndpointCensus.Pattern

open Text (IsName isWord isWordStart)

variable {start : Bool} {c : Char} {cs rest name pattern : List Char}

/-! ### Parts of a route -/

/-- A literal chunk, or a parameter after a colon, with a pattern in parentheses and a
question mark if it has them. -/
inductive ColonPart
  | chunk (text : List Char)
  | parameter (name : List Char) (pattern : Option (List Char)) (optional : Bool)
  deriving DecidableEq, Repr

namespace ColonPart

def text : ColonPart → List Char
  | chunk text => text
  | parameter name pattern optional =>
    ':' :: (name ++
      ((pattern.elim [] fun p => '(' :: (p ++ [')'])) ++ if optional then ['?'] else []))

def IsWritten : ColonPart → Prop
  | chunk text => ∀ c ∈ text, isWord c = true ∨ c ∈ ['/', '-', '.']
  | parameter name pattern _ => IsName name ∧ ∀ p ∈ pattern, ')' ∉ p

instance : DecidablePred IsWritten
  | chunk text =>
    decidable_of_iff (text.all fun c => isWord c || ['/', '-', '.'].contains c)
      (by simp [IsWritten])
  | parameter name pattern _ => inferInstanceAs (Decidable (IsName name ∧ ∀ p ∈ pattern, ')' ∉ p))

/-- The parameter ends with its name. -/
def isBare : ColonPart → Bool
  | parameter _ none false => true
  | _ => false

/-- What stands for the part in the normal pattern, given whether it stands at
the start of a segment. -/
def shown : Bool → ColonPart → List Char
  | true, parameter name _ _ => '{' :: (name ++ ['}'])
  | _, part => part.text

def params : Bool → ColonPart → List Param
  | true, parameter name pattern _ =>
    [⟨String.ofList name, (pattern.filter fun p => !p.isEmpty).map String.ofList⟩]
  | _, _ => []

end ColonPart

/-- The parts, each with whether it stands at the start of a segment. -/
def placed (start : Bool) : List ColonPart → List (Bool × ColonPart)
  | [] => []
  | part :: parts => (start, part) :: placed (startBehind start part.text) parts

/-- No parameter goes on with the word characters of the text behind it. -/
def AreApart : List ColonPart → Prop
  | [] => True
  | part :: parts =>
    (part.isBare = true → (parts.flatMap ColonPart.text).head?.any isWord = false) ∧ AreApart parts

instance decidableAreApart : DecidablePred AreApart
  | [] => isTrue trivial
  | _ :: parts => have := decidableAreApart parts; inferInstanceAs (Decidable (_ ∧ _))

/-- Nothing in the text is the beginning of a placeholder. -/
def IsInert (cs : List Char) : Prop :=
  ∀ d, isWordStart d = true → ¬ ['<', d] <:+: cs ∧ ¬ ['{', d] <:+: cs ∧ ¬ ['/', ':', d] <:+: cs

/-- Only the characters of the text need to be looked at. -/
theorem isInert_iff {cs : List Char} : IsInert cs ↔ (cs.all fun d => !(isWordStart d &&
    (Text.contains ['<', d] cs || Text.contains ['{', d] cs || Text.contains ['/', ':', d] cs))) =
      true := by
  have hfree (word : List Char) : Text.contains word cs = false ↔ ¬ word <:+: cs := by
    rw [← Text.contains_iff, Bool.not_eq_true]
  simp only [List.all_eq_true, Bool.not_eq_true', Bool.and_eq_false_imp, Bool.or_eq_false_iff,
    hfree]
  constructor
  · exact fun h d _ hd => ⟨⟨(h d hd).1, (h d hd).2.1⟩, (h d hd).2.2⟩
  · exact fun h d hd => ⟨fun hcs => (h d (hcs.subset (by simp)) hd).1.1 hcs,
      fun hcs => (h d (hcs.subset (by simp)) hd).1.2 hcs, fun hcs =>
        (h d (hcs.subset (by simp)) hd).2 hcs⟩

instance : DecidablePred IsInert := fun _ => decidable_of_iff' _ isInert_iff

def ColonPart.IsInert : ColonPart → Prop
  | parameter _ (some pattern) _ => Pattern.IsInert pattern
  | _ => True

instance : DecidablePred ColonPart.IsInert
  | .parameter _ (some pattern) _ => inferInstanceAs (Decidable (Pattern.IsInert pattern))
  | .parameter _ none _ | .chunk _ => isTrue trivial

/-! ### Text that is copied -/

theorem startBehind_of_not_mem {xs : List Char} (h : '/' ∉ xs) : startBehind false xs = false := by
  induction xs with
  | nil => rfl
  | cons c xs ih =>
    obtain ⟨hc, hxs⟩ := not_or.mp (mt List.mem_cons.mpr h)
    rw [startBehind_cons, beq_eq_false_iff_ne.mpr (Ne.symm hc), ih hxs]

theorem isOpening_of_isWord (h : isWord c = true) : isOpening c = false := by
  rw [Bool.eq_false_iff]
  intro hopening
  simp only [isOpening, Bool.or_eq_true, beq_iff_eq] at hopening
  rcases hopening with ((rfl | rfl) | rfl) | rfl <;> exact absurd h (by decide)

theorem eq_concat_of_startBehind {xs : List Char} (h : startBehind false xs = true) :
    ∃ ys, xs = ys ++ ['/'] := by
  rcases List.eq_nil_or_concat xs with rfl | ⟨ys, c, rfl⟩
  · contradiction
  · rw [List.concat_eq_append, startBehind_append] at h
    obtain rfl : c = '/' := beq_iff_eq.mp h
    exact ⟨ys, List.concat_eq_append⟩

/-- The beginning of a placeholder does not reach over a closing parenthesis. -/
theorem isPrefix_of_opens {mark ys more : List Char} {d : Char}
    (h : ys ++ ')' :: rest = mark ++ d :: more) (hmark : ')' ∉ mark) (hd : isWordStart d = true) :
    mark ++ [d] <+: ys := by
  have hclose : ')' ∉ mark ++ [d] := by
    rw [List.mem_append, List.mem_singleton, not_or]
    exact ⟨hmark, by rintro rfl; exact absurd hd (by decide)⟩
  rw [List.append_cons mark d more] at h
  rcases List.append_eq_append_iff.mp h with ⟨zs, hzs, hrest⟩ | ⟨zs, rfl, -⟩
  · cases zs with
    | nil => exact ⟨[], by rw [List.append_nil, hzs, List.append_nil]⟩
    | cons e zs =>
      obtain ⟨rfl, -⟩ := List.cons.inj hrest
      exact absurd (hzs ▸ List.mem_append_right ys List.mem_cons_self) hclose
  · exact List.prefix_append _ zs

theorem IsInert.cons (h : IsInert pattern) : IsInert ('(' :: pattern) := by
  intro d hd
  obtain ⟨hangle, hbrace, hslash⟩ := h d hd
  refine ⟨?_, ?_, ?_⟩ <;> simp [List.infix_cons_iff, hangle, hbrace, hslash]

/-- A placeholder begins nowhere in an inert text that a parenthesis closes. -/
theorem placeholder?_of_isInert {xs ys : List Char} (h : IsInert (xs ++ c :: ys))
    (rest : List Char) : placeholder? (startBehind false xs) (c :: (ys ++ ')' :: rest)) = none := by
  have hsuffix : c :: ys <:+ xs ++ c :: ys := List.suffix_append xs (c :: ys)
  refine placeholder?_eq_none_iff.mpr ⟨?group, ?angle, ?brace, fun hstart => ?colon⟩ <;>
    refine Option.eq_none_iff_forall_ne_some.mpr fun p hp => ?_
  case group =>
    obtain ⟨d, more, hcs, hd⟩ := opens_of_namedGroup? hp
    have hopens : ['(', '?', 'P', '<'] ++ [d] <+: c :: ys := isPrefix_of_opens hcs (by decide) hd
    have hangle : ['<', d] <:+ ['(', '?', 'P', '<'] ++ [d] :=
      List.suffix_append ['(', '?', 'P'] ['<', d]
    exact (h d hd).1 (hangle.isInfix.trans (hopens.isInfix.trans hsuffix.isInfix))
  case angle =>
    obtain ⟨d, more, hcs, hd⟩ := opens_of_angled? hp
    have hopens : ['<'] ++ [d] <+: c :: ys := isPrefix_of_opens hcs (by decide) hd
    exact (h d hd).1 (hopens.isInfix.trans hsuffix.isInfix)
  case brace =>
    obtain ⟨d, more, hcs, hd⟩ := opens_of_braced? hp
    have hopens : ['{'] ++ [d] <+: c :: ys := isPrefix_of_opens hcs (by decide) hd
    exact (h d hd).2.1 (hopens.isInfix.trans hsuffix.isInfix)
  case colon =>
    obtain ⟨d, more, hcs, hd⟩ := opens_of_coloned? hp
    have hopens : [':'] ++ [d] <+: c :: ys := isPrefix_of_opens hcs (by decide) hd
    obtain ⟨zs, rfl⟩ := eq_concat_of_startBehind hstart
    obtain ⟨more, hmore⟩ := hopens
    exact (h d hd).2.2 ⟨zs, more, by rw [← hmore]; simp⟩

/-- An inert pattern in parentheses is copied. -/
theorem normalizeFrom_inert (h : IsInert pattern) (rest : List Char) :
    normalizeFrom false 0 ('(' :: (pattern ++ ')' :: rest)) =
      ('(' :: (pattern ++ ')' :: (normalizeFrom false 0 rest).1),
        (normalizeFrom false 0 rest).2) := by
  have hcopy : ∀ xs c ys, '(' :: pattern = xs ++ c :: ys →
      placeholder? (startBehind false xs) (c :: (ys ++ ')' :: rest)) = none := fun xs c ys htext =>
    placeholder?_of_isInert (htext ▸ h.cons) rest
  have hclose :=
    placeholder?_of_not_isOpening (c := ')') (by decide) (startBehind false ('(' :: pattern)) rest
  rw [← List.cons_append, normalizeFrom_copy hcopy, normalizeFrom_plain hclose]
  simp

/-! ### Parts that are read -/

namespace ColonPart

theorem head?_flatMap_text {parts : List ColonPart} (h : ∀ part ∈ parts, part.IsWritten) :
    ∀ c ∈ (parts.flatMap text).head?, c ≠ '(' ∧ c ≠ '?' := by
  induction parts with
  | nil => simp
  | cons part parts ih =>
    obtain ⟨hpart, hparts⟩ := List.forall_mem_cons.mp h
    cases part with
    | chunk text =>
      cases text with
      | nil => exact ih hparts
      | cons c text =>
        rintro _ ⟨⟩
        have hc := hpart c List.mem_cons_self
        refine ⟨?_, ?_⟩ <;> rintro rfl <;> revert hc <;> decide
    | parameter name pattern optional =>
      rintro _ ⟨⟩
      decide

/-- At the start of a segment a parameter is read to its end. -/
theorem placeholder?_parameter {name : List Char} {pattern : Option (List Char)} {optional : Bool}
    {rest : List Char} (h : (parameter name pattern optional).IsWritten)
    (hrest : ∀ c ∈ rest.head?, c ≠ '(' ∧ c ≠ '?')
    (hbare : (parameter name pattern optional).isBare = true → rest.head?.any isWord = false) :
    placeholder? true ((parameter name pattern optional).text ++ rest) =
      some ⟨name, pattern.getD [], (parameter name pattern optional).text.length⟩ := by
  obtain ⟨hname, hpattern⟩ := h
  have hbefore (cs : List Char) : placeholder? true (':' :: cs) = coloned? (':' :: cs) := rfl
  have hmark : rest.head? ≠ some '?' := fun hhead => (hrest '?' hhead).2 rfl
  cases pattern with
  | none =>
    cases optional with
    | false =>
      have hread := coloned?_name hname (hbare rfl) fun hhead => (hrest '(' hhead).1 rfl
      rw [if_neg hmark] at hread
      simpa [text, hbefore] using hread
    | true =>
      have hquestion : isWord '?' = false := by decide
      have hread := @coloned?_name name hname ('?' :: rest) hquestion (by simp)
      simpa [text, hbefore] using hread
  | some pattern =>
    cases optional with
    | false =>
      have hread := coloned?_pattern hname (hpattern pattern rfl) rest
      rw [if_neg hmark] at hread
      refine Eq.trans (by simp [text, hbefore]) (hread.trans ?_)
      simp [text]
      omega
    | true =>
      have hread := coloned?_pattern hname (hpattern pattern rfl) ('?' :: rest)
      refine Eq.trans (by simp [text, hbefore]) (hread.trans ?_)
      simp [text]
      omega

theorem startBehind_parameter {name : List Char} {pattern : Option (List Char)} {optional : Bool}
    (h : IsName name) (start : Bool) :
    startBehind start (parameter name pattern optional).text = false := by
  have hname : startBehind false name = false := startBehind_of_not_mem (h.not_mem (by decide))
  cases pattern <;> cases optional <;> simp [text, startBehind_append, hname]

/-- Elsewhere a parameter is copied. -/
theorem normalizeFrom_parameter {name : List Char} {pattern : Option (List Char)} {optional : Bool}
    (h : IsName name) (hinert : (parameter name pattern optional).IsInert) (rest : List Char) :
    normalizeFrom false 0 ((parameter name pattern optional).text ++ rest) =
      ((parameter name pattern optional).text ++ (normalizeFrom false 0 rest).1,
        (normalizeFrom false 0 rest).2) := by
  have hcolon (cs : List Char) : placeholder? false (':' :: cs) = none := rfl
  have hname (cs : List Char) : normalizeFrom false 0 (name ++ cs) =
      (name ++ (normalizeFrom false 0 cs).1, (normalizeFrom false 0 cs).2) := by
    have hplain : ∀ c ∈ name, isOpening c = false := fun c hc => isOpening_of_isWord (h.2 c hc)
    have hbehind : startBehind false name = false := startBehind_of_not_mem (h.not_mem (by decide))
    rw [normalizeFrom_chunk hplain, hbehind]
  have hmark : normalizeFrom false 0 ((if optional then ['?'] else []) ++ rest) =
      ((if optional then ['?'] else []) ++ (normalizeFrom false 0 rest).1,
        (normalizeFrom false 0 rest).2) := by
    cases optional with
    | false => rfl
    | true => exact normalizeFrom_plain (placeholder?_of_not_isOpening (by decide) false rest)
  cases pattern with
  | none =>
    have htext : (parameter name none optional).text ++ rest =
        ':' :: (name ++ ((if optional then ['?'] else []) ++ rest)) := by simp [text]
    have hslash : (':' == '/') = false := rfl
    rw [htext, normalizeFrom_plain (hcolon _), hslash, hname, hmark]
    simp [text]
  | some pattern =>
    have htext : (parameter name (some pattern) optional).text ++ rest =
        ':' :: (name ++ '(' :: (pattern ++ ')' :: ((if optional then ['?'] else []) ++ rest))) := by
          simp [text]
    have hslash : (':' == '/') = false := rfl
    rw [htext, normalizeFrom_plain (hcolon _), hslash, hname, normalizeFrom_inert hinert, hmark]
    simp [text]

/-- A part is read by itself. -/
theorem normalizeFrom_append {part : ColonPart} (h : part.IsWritten)
    (hinert : start = false → part.IsInert) (hrest : ∀ c ∈ rest.head?, c ≠ '(' ∧ c ≠ '?')
    (hbare : part.isBare = true → rest.head?.any isWord = false) :
    normalizeFrom start 0 (part.text ++ rest) =
      (part.shown start ++ (normalizeFrom (startBehind start part.text) 0 rest).1,
        part.params start ++ (normalizeFrom (startBehind start part.text) 0 rest).2) := by
  cases part with
  | chunk text =>
    have hplain : ∀ c ∈ text, isOpening c = false := by
      intro c hc
      rcases h c hc with hword | hmark
      · exact isOpening_of_isWord hword
      · simp only [List.mem_cons, List.not_mem_nil, or_false] at hmark
        rcases hmark with rfl | rfl | rfl <;> decide
    have hcopy := normalizeFrom_chunk hplain start rest
    cases start <;> exact hcopy
  | parameter name pattern optional =>
    cases start with
    | false =>
      rw [normalizeFrom_parameter h.1 (hinert rfl), startBehind_parameter h.1]
      rfl
    | true =>
      have hread := placeholder?_parameter h hrest hbare
      have hne : (parameter name pattern optional).text ≠ [] := List.cons_ne_nil _ _
      have hparam : (Placeholder.mk name (pattern.getD [])
          (parameter name pattern optional).text.length).param =
            ⟨String.ofList name, (pattern.filter fun p => !p.isEmpty).map String.ofList⟩ := by
        rcases pattern with _ | _ | ⟨c, pattern⟩ <;> rfl
      rw [normalizeFrom_text hne hread rfl, hparam]
      simp [shown, params]

end ColonPart

/-- At the start of a segment a parameter is put in braces and listed, with its pattern unless that
is empty. Everything else is copied. -/
theorem normalize_colonParts {parts : List ColonPart} (hwritten : ∀ part ∈ parts, part.IsWritten)
    (hapart : AreApart parts) (hinert : ∀ x ∈ placed true parts, x.1 = false → x.2.IsInert) :
    normalize (parts.flatMap ColonPart.text) =
      ((placed true parts).flatMap fun x => x.2.shown x.1,
        (placed true parts).flatMap fun x => x.2.params x.1) := by
  suffices hfrom : ∀ start, (∀ x ∈ placed start parts, x.1 = false → x.2.IsInert) →
      normalizeFrom start 0 (parts.flatMap ColonPart.text) =
        ((placed start parts).flatMap fun x => x.2.shown x.1,
          (placed start parts).flatMap fun x => x.2.params x.1) from
    hfrom true hinert
  clear hinert
  induction parts with
  | nil => exact fun _ _ => rfl
  | cons part parts ih =>
    intro start hinert
    obtain ⟨hpart, hparts⟩ := List.forall_mem_cons.mp hwritten
    obtain ⟨hfirst, hrest⟩ := List.forall_mem_cons.mp hinert
    rw [List.flatMap_cons, ColonPart.normalizeFrom_append hpart hfirst
      (ColonPart.head?_flatMap_text hparts) hapart.1, ih hparts hapart.2 _ hrest]
    rfl

/-- The second parameter of a segment has a pattern with a brace, which begins no
placeholder before a digit. -/
theorem normalize_colonParts_second :
    let parts : List ColonPart :=
      [.chunk "/from/".toList, .parameter "year".toList (some "\\d+".toList) true,
        .chunk "-".toList, .parameter "month".toList (some "\\d{2}".toList) false,
        .chunk "/".toList, .parameter "page".toList (some []) false]
    (∀ part ∈ parts, part.IsWritten) ∧ AreApart parts ∧
      (∀ x ∈ placed true parts, x.1 = false → x.2.IsInert) ∧
      normalize (parts.flatMap ColonPart.text) =
        ("/from/{year}-:month(\\d{2})/{page}".toList, [⟨"year", some "\\d+"⟩, ⟨"page", none⟩]) := by
  intro parts
  have hwritten : ∀ part ∈ parts, part.IsWritten := by decide +kernel
  have hapart : AreApart parts := by decide +kernel
  have hinert : ∀ x ∈ placed true parts, x.1 = false → x.2.IsInert := by decide +kernel
  exact ⟨hwritten, hapart, hinert, (normalize_colonParts hwritten hapart hinert).trans
    (by decide +kernel)⟩

/-- Of two parameters in a segment only the first is read, and a name in braces is read inside the
pattern of a parameter that is not. -/
theorem second_parameter_copied :
    let flights : List ColonPart :=
      [.chunk "/flights/".toList, .parameter "from".toList none false, .chunk "-".toList,
        .parameter "to".toList none false]
    let files : List ColonPart :=
      [.chunk "/v".toList, .parameter "id".toList (some "{x}".toList) false]
    ((∀ part ∈ flights, part.IsWritten) ∧ AreApart flights ∧
      normalize (flights.flatMap ColonPart.text) =
        ("/flights/{from}-:to".toList, [⟨"from", none⟩]) ∧
      normalize (flights.flatMap ColonPart.text) ≠
        (flights.flatMap (ColonPart.shown true), flights.flatMap (ColonPart.params true))) ∧
    (∀ part ∈ files, part.IsWritten) ∧ AreApart files ∧
      normalize (files.flatMap ColonPart.text) = ("/v:id({x})".toList, [⟨"x", none⟩]) := by
  decide +kernel

end EndpointCensus.Pattern
