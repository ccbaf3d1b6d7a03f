import EndpointCensus.Proofs.Idiom.Registration
import EndpointCensus.Proofs.Statement.Row

/-!
Calls and lists as they are written on one line: parts with commas and blanks between them, in
brackets. What is built of parts is a part again, so calls and lists nest, and it is read back into
the parts that it was built of.
-/

namespace EndpointCensus

open Text (IsArgument IsKeyword isAsciiWord isDottedName)

/-! ### Characters of code -/

namespace Text

/-- A character with no meaning of its own: no quote, no bracket, no comma, and no
mark of a line. -/
def isInert (c : Char) : Bool :=
  !(['\x27', '\x22', '(', ')', '[', ']', '\x7b', '\x7d', ',', '#', ';', '\\', '\n'].contains c)

theorem of_isInert {c : Char} (h : isInert c = true) :
    isQuote c = false ∧ c ∉ ['#', ';', '\\', '\n'] ∧ isBracket c = false ∧ c ≠ ',' := by
  rw [isInert, Bool.not_eq_true', List.contains_eq_mem, decide_eq_false_iff_not] at h
  simp only [List.mem_cons, List.not_mem_nil, or_false, not_or] at h
  simp [isQuote, isBracket, isOpener, isCloser, h]

theorem isInert_of_isNamePart {c : Char} (h : isNamePart c = true) : isInert c = true := by
  have hmarks : ∀ d ∈ ['\x27', '\x22', '(', ')', '[', ']', '\x7b', '\x7d', ',', '#', ';', '\\',
      '\n'], (!isNamePart d) = true := List.all_eq_true.mp (by decide)
  rw [isInert, Bool.not_eq_true', List.contains_eq_mem, decide_eq_false_iff_not]
  intro hmem
  have hpart := hmarks c hmem
  rw [h] at hpart
  exact Bool.false_ne_true hpart

theorem isInert_of_isDottedName {cs : List Char} (h : isDottedName cs = true) :
    ∀ c ∈ cs, isInert c = true := by
  intro c hc
  rcases (isDottedName_chars h).2 c hc with hstart | hpart | rfl
  · exact isInert_of_isNamePart (isNamePart_of_isNameStart hstart)
  · exact isInert_of_isNamePart hpart
  · decide

theorem isBlank_of_mem_dottedName {cs : List Char} (h : isDottedName cs = true) :
    ∀ c ∈ cs, isBlank c = false := by
  intro c hc
  rcases (isDottedName_chars h).2 c hc with hstart | hpart | rfl
  · exact isBlank_of_isNamePart (isNamePart_of_isNameStart hstart)
  · exact isBlank_of_isNamePart hpart
  · decide

theorem not_isKeyword_dottedName {cs : List Char} (h : isDottedName cs = true) : ¬IsKeyword cs := by
  rintro ⟨name, spaces, rest, rfl, -⟩
  rcases (isDottedName_chars h).2 '=' (by simp) with hstart | hpart | hdot
  · exact absurd hstart (by decide)
  · exact absurd hpart (by decide)
  · contradiction

/-- What begins with word characters and goes on with something else than an
equals sign is no keyword. -/
theorem not_isKeyword_of_word {word rest : List Char} {c : Char}
    (hword : ∀ d ∈ word, isAsciiWord d = true) (hc : isAsciiWord c = false) (hspace : c ≠ ' ')
    (hsign : c ≠ '=') : ¬IsKeyword (word ++ c :: rest) := by
  rintro ⟨name, spaces, more, htext, -, hname, hspaces, -⟩
  have hstop : (spaces ++ '=' :: more).head?.any isAsciiWord = false := by
    cases spaces with
    | nil => rfl
    | cons d spaces =>
      rw [hspaces d List.mem_cons_self]
      rfl
  have hrun := takeWhile_run hname hstop
  rw [← htext, takeWhile_run hword (by simpa using hc)] at hrun
  rw [hrun] at htext
  have hbehind := List.append_cancel_left htext
  cases spaces with
  | nil => exact hsign (List.cons.inj hbehind).1
  | cons d spaces => exact hspace ((List.cons.inj hbehind).1.trans (hspaces d List.mem_cons_self))

/-- Texts in which brackets are balanced, one after the other. -/
theorem IsArgument.concat {depth more : Nat} {xs ys : List Char} (hxs : IsArgument depth xs)
    (hys : IsArgument more ys) : IsArgument (depth + more) (xs ++ ys) := by
  induction xs generalizing depth with
  | nil =>
    obtain rfl : depth = 0 := hxs
    rwa [Nat.zero_add]
  | cons c xs ih =>
    rw [IsArgument] at hxs
    rw [List.cons_append, IsArgument]
    split at hxs
    next hopener =>
      rw [if_pos hopener]
      have := ih hxs
      rwa [Nat.add_right_comm] at this
    next hopener =>
      rw [if_neg hopener]
      split at hxs
      next hcloser =>
        rw [if_pos hcloser]
        have := ih hxs.2
        rw [show depth - 1 + more = depth + more - 1 by omega] at this
        exact ⟨by omega, this⟩
      next hcloser =>
        rw [if_neg hcloser]
        exact ⟨fun hc => by have := hxs.1 hc; omega, ih hxs.2⟩

/-- In brackets that close at the end of the text nothing is split. -/
theorem splitFrom_of_closingFrom {sep : Char} {first pos depth stop : Nat} {cs : List Char}
    (h : closingFrom pos (depth + 1) cs = some stop) :
    splitFrom sep (stop + 1) first pos (depth + 1) cs = [(first, stop + 1)] := by
  induction cs generalizing pos depth with
  | nil => rfl
  | cons c cs ih =>
    obtain ⟨us, d, vs, -, -, hstop⟩ := exists_closer_of_closingFrom h
    rw [splitFrom, if_neg (by omega)]
    by_cases hopener : isOpener c = true
    · rw [if_pos hopener]
      rw [closingFrom_opener hopener] at h
      exact ih h
    · rw [if_neg hopener]
      by_cases hcloser : isCloser c = true
      · rw [if_pos hcloser, Nat.add_sub_cancel]
        rw [closingFrom_closer hcloser] at h
        split at h
        next hdepth =>
          obtain rfl := Option.some.inj h
          have hpos := c.utf8Size_pos
          cases cs with
          | nil => rfl
          | cons d cs => rw [splitFrom, if_pos (by omega)]
        next hdepth =>
          obtain ⟨n, rfl⟩ : ∃ n, depth = n + 1 := ⟨depth - 1, by omega⟩
          exact ih h
      · have hother : isBracket c = false :=
          Bool.or_eq_false_iff.mpr ⟨Bool.eq_false_iff.mpr hopener, Bool.eq_false_iff.mpr hcloser⟩
        rw [if_neg hcloser, if_neg (by simp)]
        rw [closingFrom_other hother] at h
        exact ih h

end Text

/-! ### Parts within parts -/

namespace Token

/-- Tokens between commas, with white space around them or not. -/
structure IsLoose (ts : List Token) : Prop where
  plain : ∀ t ∈ ts, t.IsPlain
  apart : ts.IsChain AreApart
  argument : IsArgument 0 (codeOf ts)

/-- Tokens between commas with no white space at either end. -/
structure IsSolid (ts : List Token) : Prop extends IsLoose ts where
  head : ∃ t rest, ts = t :: rest ∧ t.isBlank = false
  last : ts.getLast?.any isBlank = false

/-- Tokens with no white space at either end. -/
structure IsTrimmed (ts : List Token) : Prop where
  head : ∃ t rest, ts = t :: rest ∧ t.isBlank = false
  last : ts.getLast?.any isBlank = false

/-- Parts of which all but the first stand behind a blank. -/
def spaced : List (List Token) → List (List Token)
  | [] => [[]]
  | p :: parts => p :: parts.map (code ' ' :: ·)

/-- Parts in brackets, with commas and blanks between them. -/
def bracketed (opener closer : Char) (parts : List (List Token)) : List Token :=
  code opener :: (joined (spaced parts) ++ [code closer])

def listing (items : List (List Token)) : List Token := bracketed '[' ']' items

def calling (callee : List Char) (args : List (List Token)) : List Token :=
  callee.map code ++ bracketed '(' ')' args

variable {t : Token} {ts xs ys p : List Token} {parts : List (List Token)} {cs : List Char}
  {c : Char}

theorem isPlain_code (h : Text.isInert c = true) : (code c).IsPlain :=
  ⟨(Text.of_isInert h).1, (Text.of_isInert h).2.1⟩

theorem isPlain_of_isBracket (h : Text.isBracket c = true) : (code c).IsPlain := by
  simp only [Text.isBracket, Text.isOpener, Text.isCloser, Bool.or_eq_true, beq_iff_eq] at h
  rcases h with ((rfl | rfl) | rfl) | ((rfl | rfl) | rfl) <;> exact ⟨by decide, by decide⟩

theorem IsPlain.sealed (h : t.IsPlain) : t.Sealed := by
  cases t with
  | code c => trivial
  | literal cs =>
    obtain ⟨delimiter, interior, hdelimits, -, hinterior, -, hcs⟩ := h
    exact IsClosed.sealed ⟨delimiter, interior, hdelimits, hinterior, hcs⟩

theorem codeOf_append (xs ys : List Token) : codeOf (xs ++ ys) = codeOf xs ++ codeOf ys :=
  List.flatMap_append

theorem codeOf_code (c : Char) (ts : List Token) : codeOf (code c :: ts) = c :: codeOf ts := rfl

section Chain

-- A relation of neighbours in which code stands with everything.
variable {R : Token → Token → Prop} (hbefore : ∀ x c, R x (code c)) (hbehind : ∀ c y, R (code c) y)

include hbefore hbehind

theorem isChain_append_code (hxs : xs.IsChain R) (hys : ys.IsChain R) (c : Char) :
    (xs ++ code c :: ys).IsChain R := by
  induction xs with
  | nil =>
    cases ys with
    | nil => exact .singleton _
    | cons y ys => exact List.isChain_cons_cons.mpr ⟨hbehind c y, hys⟩
  | cons x xs ih =>
    cases xs with
    | nil => exact List.isChain_cons_cons.mpr ⟨hbefore x c, ih .nil⟩
    | cons y xs =>
      obtain ⟨hxy, hrest⟩ := List.isChain_cons_cons.mp hxs
      exact List.isChain_cons_cons.mpr ⟨hxy, ih hrest⟩

theorem isChain_joined (h : ∀ p ∈ parts, p.IsChain R) : (joined parts).IsChain R := by
  induction parts with
  | nil => exact .nil
  | cons p parts ih =>
    obtain ⟨hp, hparts⟩ := List.forall_mem_cons.mp h
    cases parts with
    | nil => rwa [joined_singleton]
    | cons q parts =>
      rw [joined_cons_cons]
      exact isChain_append_code hbefore hbehind hp (ih hparts) ','

end Chain

/-- Code keeps literals apart. -/
theorem apart_append_code (hxs : xs.IsChain AreApart) (hys : ys.IsChain AreApart) (c : Char) :
    (xs ++ code c :: ys).IsChain AreApart :=
  isChain_append_code (fun x _ => by cases x <;> trivial) (fun _ _ => trivial) hxs hys c

theorem forall_mem_joined {P : Token → Prop} (hcomma : P (code ','))
    (h : ∀ p ∈ parts, ∀ t ∈ p, P t) : ∀ t ∈ joined parts, P t := by
  induction parts with
  | nil => simp [joined]
  | cons p parts ih =>
    obtain ⟨hp, hparts⟩ := List.forall_mem_cons.mp h
    cases parts with
    | nil => rwa [joined_singleton]
    | cons q parts =>
      rw [joined_cons_cons]
      exact List.forall_mem_append.mpr ⟨hp, List.forall_mem_cons.mpr ⟨hcomma, ih hparts⟩⟩

/-- What a blank in front does not change holds of parts as they are written. -/
theorem forall_mem_spaced {P : List Token → Prop} (hnil : P [])
    (hblank : ∀ p, P p → P (code ' ' :: p)) (h : ∀ p ∈ parts, P p) : ∀ p ∈ spaced parts, P p := by
  cases parts with
  | nil => exact List.forall_mem_singleton.mpr hnil
  | cons q parts =>
    obtain ⟨hq, hparts⟩ := List.forall_mem_cons.mp h
    exact List.forall_mem_cons.mpr ⟨hq, List.forall_mem_map.mpr fun p hp => hblank p (hparts p hp)⟩

theorem IsLoose.part (h : IsLoose ts) : IsPart ts := ⟨fun t ht => (h.plain t ht).sealed, h.argument⟩

namespace IsTrimmed

variable (h : IsTrimmed ts)

include h

theorem ne_nil : ts ≠ [] := by
  obtain ⟨t, rest, rfl, -⟩ := h.head
  exact List.cons_ne_nil t rest

theorem trim : Token.trim ts = ts := by
  have hend := Text.dropEndWhile_append_of_getLast? h.last h.ne_nil []
  obtain ⟨t, rest, rfl, ht⟩ := h.head
  rw [Token.trim, List.dropWhile_cons, ht, if_neg Bool.false_ne_true]
  simpa [Text.dropEndWhile] using hend

theorem trim_blank : Token.trim (code ' ' :: ts) = ts := by
  have hblank : isBlank (code ' ') = true := by decide
  have htrim := h.trim
  rw [Token.trim] at htrim ⊢
  rwa [List.dropWhile_cons, hblank, if_pos rfl]

end IsTrimmed

theorem IsSolid.trimmed (h : IsSolid ts) : IsTrimmed ts := ⟨h.head, h.last⟩

theorem IsSolid.written (h : IsSolid ts) :
    (∀ t ∈ ts, t.Sealed) ∧ IsTrimmed ts := ⟨h.part.sealed, h.trimmed⟩

/-- A row of code and of what stands between commas. -/
theorem IsSolid.isRow (h : IsSolid (code c :: ts)) : IsRow (code c :: ts) := by
  obtain ⟨t, rest, heq, ht⟩ := h.head
  obtain ⟨rfl, -⟩ := List.cons.inj heq
  exact ⟨h.plain, h.apart, h.argument, ⟨c, ts, rfl, ht⟩, h.last⟩

/-- Code in front of a part. -/
theorem IsLoose.behind (hcs : ∀ c ∈ cs, Text.isInert c = true) (h : IsLoose ts) :
    IsLoose (cs.map code ++ ts) := by
  induction cs with
  | nil => exact h
  | cons c cs ih =>
    obtain ⟨hc, hcs⟩ := List.forall_mem_cons.mp hcs
    obtain ⟨-, -, hbracket, hcomma⟩ := Text.of_isInert hc
    obtain ⟨hopener, hcloser⟩ := Bool.or_eq_false_iff.mp hbracket
    have hrest := ih hcs
    refine ⟨List.forall_mem_cons.mpr ⟨isPlain_code hc, hrest.plain⟩,
      apart_append_code .nil hrest.apart c, ?_⟩
    rw [List.map_cons, List.cons_append, codeOf_code, IsArgument, if_neg (by simp [hopener]),
      if_neg (by simp [hcloser])]
    exact ⟨fun hc => absurd hc hcomma, hrest.argument⟩

theorem IsTrimmed.behind (hhead : cs.head?.any Text.isBlank = false) (h : IsTrimmed ts) :
    IsTrimmed (cs.map code ++ ts) := by
  constructor
  · cases cs with
    | nil => exact h.head
    | cons c cs => exact ⟨code c, _, rfl, hhead⟩
  · rw [List.getLast?_append, List.getLast?_eq_some_getLast h.ne_nil]
    have hlast := h.last
    rwa [List.getLast?_eq_some_getLast h.ne_nil] at hlast

theorem IsSolid.behind (hcs : ∀ c ∈ cs, Text.isInert c = true)
    (hhead : cs.head?.any Text.isBlank = false) (h : IsSolid ts) : IsSolid (cs.map code ++ ts) :=
  have htrimmed := h.trimmed.behind hhead
  ⟨h.toIsLoose.behind hcs, htrimmed.head, htrimmed.last⟩

theorem isSolid_dottedName (h : isDottedName cs = true) : IsSolid (cs.map code) := by
  have hnone : IsLoose [] := ⟨by simp, .nil, rfl⟩
  have hloose := hnone.behind (Text.isInert_of_isDottedName h)
  have hblank := Text.isBlank_of_mem_dottedName h
  rw [List.append_nil] at hloose
  refine ⟨hloose, ?_, ?_⟩
  · obtain ⟨c, rest, rfl, -⟩ := Text.exists_cons_of_head?_any (Text.isDottedName_chars h).1
    exact ⟨code c, rest.map code, rfl, hblank c List.mem_cons_self⟩
  · rw [List.getLast?_map, Option.any_map]
    exact Text.getLast?_any_of_forall hblank

theorem isLoose_spaced (h : ∀ p ∈ parts, IsSolid p) : ∀ p ∈ spaced parts, IsLoose p := by
  have hspace : ∀ c ∈ [' '], Text.isInert c = true := List.forall_mem_singleton.mpr rfl
  exact forall_mem_spaced ⟨by simp, .nil, rfl⟩ (fun _ hp => hp.behind hspace) fun p hp =>
    (h p hp).toIsLoose

/-- Joined parts with a bracket behind them that closes. -/
theorem isLoose_joined {closer : Char} (hcloser : Text.isCloser closer = true)
    (h : ∀ p ∈ parts, IsLoose p) :
    (∀ t ∈ joined parts ++ [code closer], t.IsPlain) ∧
      (joined parts ++ [code closer]).IsChain AreApart ∧
      IsArgument 1 (codeOf (joined parts ++ [code closer])) := by
  have hplain : (code closer).IsPlain :=
    isPlain_of_isBracket (by rw [Text.isBracket, hcloser, Bool.or_true])
  have hclose : IsArgument 1 [closer] := by
    rw [IsArgument, if_neg (by simp [Text.isOpener_eq_false_of_isCloser hcloser]), if_pos hcloser]
    exact ⟨Nat.one_pos, rfl⟩
  refine ⟨List.forall_mem_append.mpr ⟨forall_mem_joined ⟨by decide, by decide⟩ fun p hp =>
    (h p hp).plain, List.forall_mem_singleton.mpr hplain⟩,
    apart_append_code (isChain_joined (fun x _ => by cases x <;> trivial)
      (fun _ _ => trivial) fun p hp => (h p hp).apart) .nil closer, ?_⟩
  induction parts with
  | nil => exact hclose
  | cons p parts ih =>
    obtain ⟨hp, hparts⟩ := List.forall_mem_cons.mp h
    cases parts with
    | nil =>
      rw [joined_singleton, codeOf_append]
      exact Nat.zero_add 1 ▸ hp.argument.concat hclose
    | cons q parts =>
      have hcomma : IsArgument 1 (codeOf (code ',' :: (joined (q :: parts) ++ [code closer]))) := by
        rw [codeOf_code, IsArgument, if_neg (by decide), if_neg (by decide)]
        exact ⟨fun _ => Nat.one_pos, ih hparts⟩
      rw [joined_cons_cons, List.append_assoc, List.cons_append, codeOf_append]
      exact Nat.zero_add 1 ▸ hp.argument.concat hcomma

theorem isSolid_bracketed {opener closer : Char} (hopener : Text.isOpener opener = true)
    (hcloser : Text.isCloser closer = true) (hparts : ∀ p ∈ parts, IsSolid p) :
    IsSolid (bracketed opener closer parts) := by
  have hblank {c : Char} (h : Text.isMark c = true) : Text.isBlank c = false := by
    rw [Bool.eq_false_iff]
    intro hblank
    rw [Text.isMark_of_isBlank hblank] at h
    contradiction
  obtain ⟨hplain, hapart, hargument⟩ := isLoose_joined hcloser (isLoose_spaced hparts)
  have hfirst : (code opener).IsPlain :=
    isPlain_of_isBracket (by rw [Text.isBracket, hopener, Bool.true_or])
  refine ⟨⟨List.forall_mem_cons.mpr ⟨hfirst, hplain⟩, apart_append_code .nil hapart opener, ?_⟩,
    ⟨code opener, _, rfl, hblank (by simp [Text.isMark, hopener])⟩, ?_⟩
  · rw [bracketed, codeOf_code, IsArgument, if_pos hopener]
    exact hargument
  · rw [bracketed, ← List.cons_append, List.getLast?_concat]
    exact hblank (by simp [Text.isMark, hcloser])

theorem isSolid_listing (h : ∀ p ∈ parts, IsSolid p) :
    IsSolid (listing parts) := isSolid_bracketed rfl rfl h

theorem isSolid_calling (hcs : isDottedName cs = true) (h : ∀ p ∈ parts, IsSolid p) :
    IsSolid (calling cs parts) :=
  (isSolid_bracketed rfl rfl h).behind (Text.isInert_of_isDottedName hcs)
    (Text.head?_any_of_forall (Text.isBlank_of_mem_dottedName hcs))

/-- Calls and lists are no keyword arguments. -/
theorem not_isKeyword_calling (hcs : ∀ c ∈ cs, isAsciiWord c = true) (parts : List (List Token)) :
    ¬IsKeyword (textOf (calling cs parts)) := by
  rw [calling, textOf_append, textOf_map_code]
  exact Text.not_isKeyword_of_word hcs (by decide) (by decide) (by decide)

theorem not_isKeyword_listing (parts : List (List Token)) : ¬IsKeyword (textOf (listing parts)) :=
  @Text.not_isKeyword_of_word [] _ '[' (by simp) (by decide) (by decide) (by decide)

end Token

/-! ### Reading -/

namespace Expr

open Token (IsSolid IsTrimmed IsPart glyphsOf textOf widthOf maskedOf joined spaced listing calling)

variable {e : Expr} {parts : List (List Token)}

/-- The expressions are written with these tokens, one after the other. -/
def AreWritten (xs : List Expr) (parts : List (List Token)) : Prop :=
  List.Forall₂ (fun x p => x.glyphs = glyphsOf p) xs parts

/-- Blanks before the parts are dropped. -/
theorem areWritten_spaced (h : ∀ p ∈ parts, (∀ t ∈ p, t.Sealed) ∧ IsTrimmed p) (pos : Nat) :
    AreWritten ((partsFrom pos (spaced parts)).filter (!·.isEmpty)) parts := by
  have hfilled {x : Expr} {p : List Token} (hp : (∀ t ∈ p, t.Sealed) ∧ IsTrimmed p)
      (hx : x.glyphs = glyphsOf p) : (!x.isEmpty) = true := by
    rw [Bool.not_eq_true', isEmpty, hx, List.isEmpty_eq_false_iff]
    exact mt (Token.glyphsOf_eq_nil hp.1).mp hp.2.ne_nil
  have hblanks {parts : List (List Token)} (h : ∀ p ∈ parts, (∀ t ∈ p, t.Sealed) ∧ IsTrimmed p)
      (pos : Nat) :
      AreWritten ((partsFrom pos (parts.map (Token.code ' ' :: ·))).filter (!·.isEmpty)) parts := by
    induction parts generalizing pos with
    | nil => exact .nil
    | cons p parts ih =>
      obtain ⟨hp, hparts⟩ := List.forall_mem_cons.mp h
      have hglyphs := congrArg glyphsOf hp.2.trim_blank
      rw [List.map_cons, partsFrom, List.filter_cons, if_pos (hfilled hp hglyphs)]
      exact .cons hglyphs (ih hparts _)
  cases parts with
  | nil => exact .nil
  | cons p parts =>
    obtain ⟨hp, hparts⟩ := List.forall_mem_cons.mp h
    have hglyphs := congrArg glyphsOf hp.2.trim
    rw [spaced, partsFrom, List.filter_cons, if_pos (hfilled hp hglyphs)]
    exact .cons hglyphs (hblanks hparts _)

theorem spaced_ne_nil (parts : List (List Token)) :
    spaced parts ≠ [] := by cases parts <;> simp [spaced]

/-- A list has the items that it was built of. -/
theorem items?_listing (h : e.glyphs = glyphsOf (listing parts)) (hparts : ∀ p ∈ parts, IsSolid p) :
    ∃ xs, e.items? = some xs ∧ AreWritten xs parts := by
  have hloose := fun p hp => (Token.isLoose_spaced hparts p hp).part
  have hglyphs : e.glyphs =
      glyphsOf ([] ++ .code '[' :: (joined (spaced parts) ++ .code ']' :: [])) := h
  obtain ⟨hclose, hslices⟩ := slices_of_parts rfl rfl (spaced_ne_nil parts) hloose hglyphs
  have hmasked : e.masked = ('[' :: maskedOf (joined (spaced parts))) ++ ']' :: [] := by
    rw [masked_eq hglyphs]
    simp
  have hbefore : Text.width ('[' :: maskedOf (joined (spaced parts))) =
      1 + widthOf (joined (spaced parts)) := by
    rw [Text.width_cons, Token.width_maskedOf]
    rfl
  have hwidth : 1 + widthOf (joined (spaced parts)) + 1 = e.width := by
    rw [width_eq hglyphs]
    simp [Nat.add_assoc]
    rfl
  have hend : Text.charAt? e.masked (1 + widthOf (joined (spaced parts))) = some ']' := by
    rw [hmasked, ← hbefore, Text.charAt?_append]
  rw [Token.widthOf_nil, Nat.zero_add] at hclose hslices
  refine ⟨_, ?_, areWritten_spaced (fun p hp => (hparts p hp).written) (e.offset + 1)⟩
  have hcloser : e.masked.head?.bind closerOf? = some ']' := by
    rw [hmasked]
    rfl
  unfold items?
  dsimp only
  rw [hcloser, hclose]
  dsimp only
  rw [hend, hwidth, hslices]
  simp

theorem AreWritten.exists_singleton {xs : List Expr} {p : List Token} (h : AreWritten xs [p]) :
    ∃ x, xs = [x] ∧ x.glyphs = glyphsOf p := by
  obtain ⟨x, _, hx, hnone, rfl⟩ := List.forall₂_cons_right_iff.mp h
  obtain rfl := List.forall₂_nil_right_iff.mp hnone
  exact ⟨x, rfl, hx⟩

theorem AreWritten.exists_append {zs : List Expr} {more : List (List Token)}
    (h : AreWritten zs (parts ++ more)) : ∃ xs ys, zs = xs ++ ys ∧ AreWritten xs parts := by
  induction parts generalizing zs with
  | nil => exact ⟨[], zs, rfl, .nil⟩
  | cons p parts ih =>
    obtain _ | ⟨hx, hzs⟩ := h
    obtain ⟨xs, ys, rfl, hxs⟩ := ih hzs
    exact ⟨_ :: xs, ys, rfl, .cons hx hxs⟩

/-- Values stay as they are where no keyword stands before them. -/
theorem AreWritten.map_toArg {xs : List Expr} (h : AreWritten xs parts)
    (hparts : ∀ p ∈ parts, IsSolid p) (hvalues : ∀ p ∈ parts, ¬IsKeyword (textOf p)) :
    xs.map toArg = xs.map (⟨none, ·⟩) := by
  induction h with
  | nil => rfl
  | cons hx _ ih =>
    obtain ⟨hp, hparts⟩ := List.forall_mem_cons.mp hparts
    obtain ⟨hvalue, hvalues⟩ := List.forall_mem_cons.mp hvalues
    rw [List.map_cons, List.map_cons, toArg_of_tokens hp.part.sealed hx hvalue, ih hparts hvalues]

/-- A list is no sum. -/
theorem split_listing (h : e.glyphs = glyphsOf (listing parts)) (hparts : ∀ p ∈ parts, IsSolid p)
    (sep : Char) :
    ∃ x : Expr, e.split sep 0 e.width = [x] ∧ x.glyphs = glyphsOf (listing parts) := by
  have hsolid := Token.isSolid_listing hparts
  have hloose := fun p hp => (Token.isLoose_spaced hparts p hp).part
  have hglyphs : e.glyphs =
      glyphsOf ([] ++ .code '[' :: (joined (spaced parts) ++ .code ']' :: [])) := h
  obtain ⟨hclose, -⟩ := slices_of_parts rfl rfl (spaced_ne_nil parts) hloose hglyphs
  have hmasked : e.masked = [] ++ '[' :: maskedOf (joined (spaced parts) ++ [.code ']']) :=
    masked_eq h
  have hwidth : 1 + widthOf (joined (spaced parts)) + 1 = e.width := by
    rw [width_eq hglyphs]
    simp [Nat.add_assoc]
    rfl
  rw [Token.widthOf_nil, Nat.zero_add, hmasked] at hclose
  have hfound :=
    Text.findMatching_append (c := '[') rfl [] (maskedOf (joined (spaced parts) ++ [.code ']']))
  rw [Text.width_nil, hclose] at hfound
  have hsplit : Text.splitTopLevel sep e.masked 0 e.width = [(0, e.width)] := by
    have hopens : Text.splitTopLevel sep e.masked 0 e.width =
        Text.splitFrom sep e.width 0 1 1 (maskedOf (joined (spaced parts) ++ [.code ']'])) := by
      rw [hmasked, ← hwidth]
      rfl
    rw [hopens, ← hwidth]
    exact Text.splitFrom_of_closingFrom hfound.symm
  have hslice : e.slice (widthOf []) (widthOf [] + widthOf (listing parts)) = _ :=
    @slice_append e [] [] _ (by rw [h, List.append_nil]; rfl) hsolid.part.sealed
  rw [Token.widthOf_nil, Nat.zero_add, ← width_eq h, hsolid.trimmed.trim] at hslice
  exact ⟨e.slice 0 e.width, by rw [split, hsplit]; rfl, by rw [hslice]⟩

/-- Without a parenthesis there is no call. -/
theorem call?_eq_none (h : '(' ∉ e.masked) : e.call? = none := by
  have hargs (start : Nat) : e.argsIn? e.masked start = none := by
    refine if_neg fun hparen => ?_
    obtain ⟨xs, ys, hmasked, -⟩ := Text.eq_of_charAt? (beq_iff_eq.mp hparen)
    exact h (hmasked ▸ by simp)
  rw [call?, callPrefix?]
  split
  · rw [hargs]
    rfl
  · rfl

/-- A name and arguments in parentheses are a call, and it ends where the text does. -/
theorem call?_of_parts {callee : List Char} (hcallee : isDottedName callee = true)
    (hne : parts ≠ []) (hparts : ∀ p ∈ parts, IsPart p)
    (h : e.glyphs = glyphsOf (callee.map Token.code ++ .code '(' ::
      (joined parts ++ .code ')' :: []))) :
    e.call? = some ⟨callee,
      ⟨((partsFrom (e.offset + (Text.width callee + 1)) parts).filter (!·.isEmpty)).map toArg,
        e.width⟩⟩ := by
  have hargs := argsAt?_of_parts (e := e) hne hparts h
  generalize joined parts = inner at *
  rw [MemberCall.widthOf_map_code] at hargs
  have hmasked : e.masked = callee ++ '(' :: (maskedOf inner ++ [')']) := by
    rw [masked_eq h]
    simp
  have htext : IsCallText e.masked := ⟨_, _, Text.parts_of_isDottedName hcallee, hmasked⟩
  have hread := @Text.dottedName?_append _ hcallee ('(' :: (maskedOf inner ++ [')'])) rfl
  have hhead : callHead? e.masked = some (0, Text.width callee, Text.width callee) := by
    have hnew : (Text.after? "new" e.masked).bind Text.blanks? = none := by
      rcases hafter : Text.after? "new" e.masked with _ | rest
      · rfl
      · exact (htext.after? (by decide) hafter).blanks?
    have hnamed : namedCall? e.masked = some (callee, '(' :: (maskedOf inner ++ [')'])) := by
      rw [namedCall?, hmasked, hread]
      rfl
    unfold callHead?
    rw [hnew]
    dsimp only
    rw [Option.bind_none, Option.none_or, hnamed, Option.map_some, Nat.sub_self, Nat.zero_add,
      hmasked, Text.width_append, Nat.add_sub_cancel]
  have hname : e.chars 0 (Text.width callee) = callee := by
    have hchars :=
      @chars_append e [] (.code '(' :: (inner ++ .code ')' :: [])) (callee.map Token.code)
        (by rw [h, List.nil_append])
    rwa [Token.widthOf_nil, Nat.zero_add, MemberCall.widthOf_map_code, Token.textOf_map_code]
      at hchars
  have hwidth : Text.width callee + 1 + widthOf inner + 1 = e.width := by
    have hsize : ('(' : Char).utf8Size = 1 ∧ (')' : Char).utf8Size = 1 := ⟨rfl, rfl⟩
    rw [width_eq h, Token.widthOf_append, MemberCall.widthOf_map_code, Token.widthOf_code,
      Token.widthOf_append, Token.widthOf_code, Token.widthOf_nil]
    omega
  have hargs : e.argsIn? e.masked (Text.width callee) = _ := hargs
  rw [call?, callPrefix?, hhead]
  dsimp only
  rw [hargs, Option.map_some, hname, hwidth, Option.filter_some, if_pos (by simp)]

/-- A call has the arguments that it was built of. Values that come first are
its first positionals. -/
theorem call?_calling {callee : List Char} {more : List (List Token)}
    (h : e.glyphs = glyphsOf (calling callee (parts ++ more)))
    (hcallee : isDottedName callee = true) (hparts : ∀ p ∈ parts, IsSolid p)
    (hvalues : ∀ p ∈ parts, ¬IsKeyword (textOf p)) (hmore : ∀ p ∈ more, IsSolid p) :
    ∃ c xs ys, e.call? = some c ∧ c.callee = callee ∧ AreWritten xs parts ∧
    c.args.positionals = xs ++ ys := by
  have hall : ∀ p ∈ parts ++ more, IsSolid p := List.forall_mem_append.mpr ⟨hparts, hmore⟩
  have hloose := fun p hp => (Token.isLoose_spaced hall p hp).part
  have hcall := call?_of_parts (e := e) hcallee (spaced_ne_nil _) hloose h
  obtain ⟨xs, ys, hsplit, hxs⟩ := (areWritten_spaced (fun p hp => (hall p hp).written)
    (e.offset + (Text.width callee + 1))).exists_append
  rw [hsplit, List.map_append, hxs.map_toArg hparts hvalues] at hcall
  refine ⟨_, xs, Args.positionals ⟨ys.map toArg, 0⟩, hcall, rfl, hxs, ?_⟩
  have hvalues : (xs.map fun x => (⟨none, x⟩ : Arg)).filter (·.keyword.isNone) =
      xs.map (⟨none, ·⟩) :=
    List.filter_eq_self.mpr (by simp)
  rw [Args.positionals, List.filter_append, hvalues, List.map_append, List.map_map,
    Args.positionals]
  exact congrArg (· ++ _) (List.map_id xs)

end Expr

end EndpointCensus
