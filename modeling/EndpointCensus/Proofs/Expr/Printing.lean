import EndpointCensus.Proofs.Idiom.Layout

/-!
Calls that are printed and read back. An expression of Python on one line is code and closed
literals in which brackets nest, and no comma or equals sign stands outside of them. A call is
printed as its callee and its arguments, values or names with values, with a comma and a blank
between them. What is printed is one statement, and read as a call it has the callee and the
arguments that it was printed of.
-/

namespace EndpointCensus

open Text (IsArgument IsKeyword isAsciiDigit isAsciiWord isDottedName)

/-! ### Expressions -/

namespace Text

/-- Brackets are closed by those of their kind, `closers` being awaited before the text, the next
one first. Commas and equals signs stand in brackets only. -/
def IsNested : List Char → List Char → Prop
  | closers, [] => closers = []
  | closers, c :: cs =>
    match closerOf? c with
    | some closer => IsNested (closer :: closers) cs
    | none =>
      if isCloser c then closers.head? = some c ∧ IsNested closers.tail cs
      else (c = ',' ∨ c = '=' → closers ≠ []) ∧ IsNested closers cs

instance IsNested.decide : (closers cs : List Char) → Decidable (IsNested closers cs)
  | closers, [] => inferInstanceAs (Decidable (closers = []))
  | closers, c :: cs =>
    match h : closerOf? c with
    | some closer =>
      have := decide (closer :: closers) cs
      decidable_of_iff (IsNested (closer :: closers) cs) (by rw [IsNested, h])
    | none =>
      have := decide closers.tail cs
      have := decide closers cs
      decidable_of_iff (if isCloser c then closers.head? = some c ∧ IsNested closers.tail cs
        else (c = ',' ∨ c = '=' → closers ≠ []) ∧ IsNested closers cs) (by rw [IsNested, h])

theorem isOpener_eq_closerOf? (c : Char) : isOpener c = (closerOf? c).isSome := by
  unfold isOpener closerOf?
  cases hround : c == '(' <;> cases hsquare : c == '[' <;> cases hcurly : c == '\x7b' <;> rfl

theorem IsNested.isArgument {closers cs : List Char} (h : IsNested closers cs) :
    IsArgument closers.length cs := by
  induction cs generalizing closers with
  | nil => exact congrArg List.length h
  | cons c cs ih =>
    rw [IsNested] at h
    rw [IsArgument, isOpener_eq_closerOf?]
    split at h
    next closer hcloser =>
      rw [if_pos (by rw [hcloser]; rfl)]
      exact ih h
    next hnone =>
      rw [if_neg (by rw [hnone]; exact Bool.false_ne_true)]
      split at h
      next hcloser =>
        rw [if_pos hcloser]
        obtain ⟨rest, rfl⟩ := List.head?_eq_some_iff.mp h.1
        exact ⟨Nat.succ_pos _, ih h.2⟩
      next hcloser =>
        rw [if_neg hcloser]
        exact ⟨fun hc => List.length_pos_iff.mpr (h.1 (.inl hc)), ih h.2⟩

/-- Behind text without brackets the same brackets are awaited. -/
theorem IsNested.behind {closers xs cs : List Char} (hxs : ∀ c ∈ xs, isBracket c = false)
    (h : IsNested closers (xs ++ cs)) : IsNested closers cs := by
  induction xs with
  | nil => exact h
  | cons c xs ih =>
    obtain ⟨hc, hxs⟩ := List.forall_mem_cons.mp hxs
    obtain ⟨hopener, hcloser⟩ := Bool.or_eq_false_iff.mp hc
    have hnone : closerOf? c = none := by
      rw [isOpener_eq_closerOf?] at hopener
      simpa using hopener
    rw [List.cons_append, IsNested, hnone] at h
    dsimp only at h
    rw [if_neg (by simp [hcloser])] at h
    exact ih hxs h.2

/-- No equals sign stands outside of brackets. -/
theorem IsNested.not_sign {cs : List Char} : ¬IsNested [] ('=' :: cs) := fun h => h.1 (.inr rfl) rfl

theorem isInert_of_isAsciiWord {c : Char} (h : isAsciiWord c = true) : isInert c = true :=
  isInert_of_isNamePart (isNamePart_of_isAsciiWord h)

/-- A name in ASCII. -/
def IsAsciiName (cs : List Char) : Prop :=
  cs.head?.any (!isAsciiDigit ·) = true ∧ ∀ c ∈ cs, isAsciiWord c = true

instance (cs : List Char) : Decidable (IsAsciiName cs) :=
  decidable_of_iff ((cs.head?.any (!isAsciiDigit ·) && cs.all isAsciiWord) = true)
    (by simp [IsAsciiName])

/-- A name with an equals sign behind it is inert and begins with no blank. -/
theorem IsAsciiName.sign {name : List Char} (h : IsAsciiName name) :
    (∀ c ∈ name ++ ['='], isInert c = true) ∧ (name ++ ['=']).head?.any isBlank = false := by
  refine ⟨List.forall_mem_append.mpr
    ⟨fun c hc => isInert_of_isAsciiWord (h.2 c hc), List.forall_mem_singleton.mpr rfl⟩, ?_⟩
  obtain ⟨c, rest, rfl, -⟩ := exists_cons_of_head?_any h.1
  exact isBlank_of_isWord (isWord_of_isAsciiWord (h.2 c List.mem_cons_self))

end Text

namespace Token

/-- Tokens between commas on one line, with white space around them or not. -/
structure IsOperand (ts : List Token) : Prop where
  lexed : ∀ t ∈ ts, t.IsLexed
  distinct : ts.IsChain AreDistinct
  argument : IsArgument 0 (codeOf ts)

structure IsExpression (ts : List Token) : Prop extends IsTrimmed ts where
  lexed : ∀ t ∈ ts, t.IsLexed
  distinct : ts.IsChain AreDistinct
  nested : Text.IsNested [] (codeOf ts)

end Token

def Text.IsExpression (cs : List Char) : Prop := ∃ ts, Token.IsExpression ts ∧ Token.textOf ts = cs

/-- An argument as it is printed, with a keyword or without. -/
structure PrintedArg where
  keyword : Option (List Char)
  value : List Char
  deriving DecidableEq, Repr

namespace PrintedArg

def text (a : PrintedArg) : List Char :=
  match a.keyword with
  | some name => name ++ '=' :: a.value
  | none => a.value

/-- The keyword is a name and the value an expression. -/
structure IsPrinted (a : PrintedArg) : Prop where
  keyword : ∀ name ∈ a.keyword, Text.IsAsciiName name
  value : Text.IsExpression a.value

end PrintedArg

/-- The argument that prints as this one is written. -/
def Arg.printed (a : Arg) : PrintedArg := ⟨a.keyword, a.value.text⟩

def callText (callee : List Char) (args : List PrintedArg) : List Char :=
  callee ++ '(' :: ([',', ' '].intercalate (args.map PrintedArg.text) ++ [')'])

/-! ### Lines of calls -/

namespace Balance

variable {b : Balance} {cs : List Char}

/-- In brackets an argument leaves the depth as it is, and its semicolons end no statement. -/
theorem read_isArgument {depth : Nat} (h : IsArgument depth cs) (hb : depth < b.depth) :
    (b.read cs).depth = b.depth - depth ∧ b.Encloses cs := by
  induction cs generalizing depth b with
  | nil =>
    obtain rfl : depth = 0 := h
    exact ⟨rfl, rfl⟩
  | cons c cs ih =>
    rw [IsArgument] at h
    rw [read_cons, encloses_cons]
    split at h
    next hopener =>
      have hstep := b.step_opener hopener
      obtain ⟨hdepth, hencloses⟩ :=
        @ih (b.step c) (depth + 1) h (by rw [hstep]; exact Nat.succ_lt_succ hb)
      refine ⟨?_, encloses_opener hopener, hencloses⟩
      rw [hdepth, hstep]
      exact Nat.succ_sub_succ _ _
    next hopener =>
      split at h
      next hcloser =>
        obtain ⟨hpos, h⟩ := h
        have hstep := b.step_closer hcloser
        obtain ⟨hdepth, hencloses⟩ :=
          @ih (b.step c) (depth - 1) h (by rw [hstep]; dsimp only; omega)
        refine ⟨?_, encloses_closer hcloser, hencloses⟩
        rw [hdepth, hstep]
        dsimp only
        omega
      next hcloser =>
        have hlevel : b.depth ≠ 0 := by omega
        have hstep : b.step c = b := by simp [step, hopener, hcloser, hlevel]
        rw [hstep]
        obtain ⟨hdepth, hencloses⟩ := ih h.2 hb
        exact ⟨hdepth, congrArg Balance.breaks hstep, hencloses⟩

theorem read_joined {parts : List (List Token)} (h : ∀ p ∈ parts, IsArgument 0 (Token.codeOf p))
    (hb : 0 < b.depth) :
    (b.read (Token.codeOf (Token.joined parts))).depth = b.depth ∧
    b.Encloses (Token.codeOf (Token.joined parts)) := by
  induction parts generalizing b with
  | nil => exact ⟨rfl, rfl⟩
  | cons p parts ih =>
    obtain ⟨hp, hparts⟩ := List.forall_mem_cons.mp h
    obtain ⟨hdepth, hencloses⟩ := read_isArgument hp hb
    rw [Nat.sub_zero] at hdepth
    cases parts with
    | nil =>
      rw [Token.joined_singleton]
      exact ⟨hdepth, hencloses⟩
    | cons q parts =>
      have hcomma : (b.read (Token.codeOf p)).step ',' = b.read (Token.codeOf p) := rfl
      obtain ⟨hrest, hbehind⟩ := @ih (b.read (Token.codeOf p)) hparts (by rwa [hdepth])
      rw [Token.joined_cons_cons, Token.codeOf_append, Token.codeOf_code, read_append, read_cons,
        encloses_append, encloses_cons, hcomma]
      exact ⟨hrest.trans hdepth, hencloses, rfl, hbehind⟩

end Balance

namespace Token

variable {ts : List Token} {parts : List (List Token)} {cs callee name : List Char}

theorem IsLexed.sealed {t : Token} (h : t.IsLexed) : t.Sealed := by
  cases t with
  | code c => trivial
  | literal cs => exact IsPlain.sealed h

theorem IsOperand.part (h : IsOperand ts) :
    IsPart ts := ⟨fun t ht => (h.lexed t ht).sealed, h.argument⟩

theorem IsExpression.operand (h : IsExpression ts) :
    IsOperand ts := ⟨h.lexed, h.distinct, h.nested.isArgument⟩

/-- Code stands next to every token. -/
theorem distinct_append_code {xs ys : List Token} (hxs : xs.IsChain AreDistinct)
    (hys : ys.IsChain AreDistinct) (c : Char) : (xs ++ code c :: ys).IsChain AreDistinct :=
  isChain_append_code (fun x _ => by cases x <;> trivial) (fun _ _ => trivial) hxs hys c

/-- Code in front of an operand. -/
theorem IsOperand.behind (hcs : ∀ c ∈ cs, Text.isInert c = true) (h : IsOperand ts) :
    IsOperand (cs.map code ++ ts) := by
  induction cs with
  | nil => exact h
  | cons c cs ih =>
    obtain ⟨hc, hcs⟩ := List.forall_mem_cons.mp hcs
    obtain ⟨-, -, hbracket, hcomma⟩ := Text.of_isInert hc
    have hrest := ih hcs
    exact ⟨List.forall_mem_cons.mpr ⟨(isPlain_code hc).lexed, hrest.lexed⟩,
      distinct_append_code .nil hrest.distinct c,
      IsArgument.append (List.forall_mem_singleton.mpr ⟨hbracket, hcomma⟩) hrest.argument⟩

theorem isOperand_spaced (h : ∀ p ∈ parts, IsOperand p) : ∀ p ∈ spaced parts, IsOperand p := by
  have hspace : ∀ c ∈ [' '], Text.isInert c = true := List.forall_mem_singleton.mpr rfl
  exact forall_mem_spaced ⟨by simp, .nil, rfl⟩ (fun _ hp => hp.behind hspace) h

/-- The brackets of a call close, and the semicolons of its arguments stand in brackets. -/
theorem balance_calling (hcallee : isDottedName callee = true) (h : ∀ p ∈ parts, IsOperand p) :
    (({} : Balance).read (codeOf (calling callee parts))).depth = 0 ∧
      ({} : Balance).Encloses (codeOf (calling callee parts)) := by
  have hcode : codeOf (calling callee parts) = callee ++ '(' ::
      (codeOf (joined (spaced parts)) ++ [')']) := by
    rw [calling, bracketed, codeOf_append, codeOf_map_code, codeOf_code, codeOf_append]
    rfl
  have hcalleeRead : ({} : Balance).read callee = {} := by
    refine Balance.read_of_level rfl fun d hd => ?_
    obtain ⟨-, hmarks, hbracket, -⟩ := Text.of_isInert (Text.isInert_of_isDottedName hcallee d hd)
    exact ⟨(Bool.or_eq_false_iff.mp hbracket).1, fun hsemicolon => hmarks (hsemicolon ▸ by simp)⟩
  obtain ⟨hdepth, hencloses⟩ := @Balance.read_joined (({} : Balance).step '(') _
    (fun p hp => (isOperand_spaced h p hp).argument) Nat.one_pos
  constructor
  · rw [hcode, Balance.read_append, hcalleeRead, Balance.read_cons, Balance.read_append,
      Balance.read_cons, Balance.step_closer _ rfl, hdepth]
    rfl
  · rw [hcode]
    refine Balance.encloses_append.mpr ⟨congrArg Balance.breaks hcalleeRead, ?_⟩
    rw [hcalleeRead]
    exact Balance.encloses_cons.mpr ⟨Balance.encloses_opener rfl,
      Balance.encloses_append.mpr ⟨hencloses, Balance.encloses_closer rfl⟩⟩

theorem getLast?_calling (callee : List Char) (parts : List (List Token)) :
    (calling callee parts).getLast? = some (code ')') := by
  rw [calling, bracketed, ← List.cons_append, ← List.append_assoc, List.getLast?_concat]

/-- A call is one line, whatever semicolons its arguments have. -/
theorem isLine_calling (hcallee : isDottedName callee = true) (h : ∀ p ∈ parts, IsOperand p) :
    IsLine (calling callee parts) := by
  have hspaced := isOperand_spaced h
  have hfront : IsOperand (callee.map code ++ []) :=
    IsOperand.behind (Text.isInert_of_isDottedName hcallee) ⟨by simp, .nil, rfl⟩
  rw [List.append_nil] at hfront
  obtain ⟨hdepth, hencloses⟩ := balance_calling hcallee h
  refine ⟨?_, distinct_append_code hfront.distinct ?_ '(', hdepth, hencloses, ?_, ?_, ?_⟩
  · refine List.forall_mem_append.mpr ⟨hfront.lexed, List.forall_mem_cons.mpr ⟨⟨rfl, by decide⟩, ?_⟩⟩
    exact List.forall_mem_append.mpr ⟨forall_mem_joined ⟨rfl, by decide⟩ fun p hp =>
      (hspaced p hp).lexed, List.forall_mem_singleton.mpr ⟨rfl, by decide⟩⟩
  · exact distinct_append_code (isChain_joined (fun x _ => by cases x <;> trivial)
      (fun _ _ => trivial) fun p hp => (hspaced p hp).distinct) .nil ')'
  · obtain ⟨c, rest, rfl, -⟩ := Text.exists_cons_of_head?_any (Text.isDottedName_chars hcallee).1
    exact ⟨c, _, rfl, Text.isBlank_of_mem_dottedName hcallee c List.mem_cons_self⟩
  · rw [getLast?_calling]
    rfl
  · rw [getLast?_calling]
    decide

theorem textOf_calling (callee : List Char) (parts : List (List Token)) :
    textOf (calling callee parts) =
      callee ++ '(' :: ([',', ' '].intercalate (parts.map textOf) ++ [')']) := by
  have hjoined (p : List Token) (parts : List (List Token)) :
      textOf (joined (p :: parts.map (code ' ' :: ·))) =
        [',', ' '].intercalate ((p :: parts).map textOf) := by
    induction parts generalizing p with
    | nil => simp
    | cons q parts ih =>
      have hblank : [',', ' '].intercalate (((code ' ' :: q) :: parts).map textOf) =
          ' ' :: [',', ' '].intercalate ((q :: parts).map textOf) := by
        cases parts <;> simp [chars]
      rw [List.map_cons, joined_cons_cons, textOf_append, textOf_cons, ih, hblank]
      simp [chars]
  have hspaced : textOf (joined (spaced parts)) = [',', ' '].intercalate (parts.map textOf) := by
    cases parts with
    | nil => rfl
    | cons p parts => exact hjoined p parts
  rw [calling, bracketed, textOf_append, textOf_map_code, textOf_cons, textOf_append, hspaced]
  rfl

/-- No equals sign stands at the front of an expression. -/
theorem IsExpression.head?_ne_sign (h : IsExpression ts) : (textOf ts).head? ≠ some '=' := by
  obtain ⟨t, rest, rfl, -⟩ := h.head
  cases t with
  | code c =>
    intro hsign
    obtain rfl : c = '=' := Option.some.inj hsign
    exact Text.IsNested.not_sign h.nested
  | literal cs =>
    obtain ⟨q, more, rfl, hq⟩ := IsPlain.exists_quote (h.lexed _ List.mem_cons_self)
    intro hsign
    obtain rfl : q = '=' := Option.some.inj hsign
    contradiction

/-- Outside of brackets there is no equals sign, so an expression does not read as
a keyword and a value. -/
theorem IsExpression.not_isKeyword (h : IsExpression ts) : ¬IsKeyword (textOf ts) := by
  rintro ⟨name, spaces, rest, htext, -, hname, hspaces, -⟩
  have hfront : ∀ c ∈ name ++ spaces, isDelimiter c = false ∧ Text.isBracket c = false := by
    intro c hc
    rcases List.mem_append.mp hc with hc | hc
    · obtain ⟨-, -, hbracket, -⟩ := Text.of_isInert (Text.isInert_of_isAsciiWord (hname c hc))
      exact ⟨isDelimiter_of_isAsciiWord (hname c hc), hbracket⟩
    · rw [hspaces c hc]
      exact ⟨rfl, rfl⟩
  have hsealed : ∀ t ∈ ts, t.Sealed := fun t ht => (h.lexed t ht).sealed
  rw [← List.append_assoc] at htext
  obtain ⟨behind, rfl, hbehind⟩ := exists_code_of_textOf hsealed (fun c hc => (hfront c hc).1) htext
  obtain ⟨ys, rfl, -⟩ :=
    @exists_code_of_textOf behind (fun t ht => hsealed t (List.mem_append_right _ ht)) ['='] rest
      (List.forall_mem_singleton.mpr rfl) hbehind
  have hnested := h.nested
  rw [codeOf_append, codeOf_map_code] at hnested
  exact Text.IsNested.not_sign (hnested.behind fun c hc => (hfront c hc).2)

end Token

/-! ### Arguments -/

namespace Expr

open Token (IsOperand IsTrimmed glyphsOf textOf maskedOf widthOf)

variable {e : Expr} {ts : List Token} {name : List Char}

/-- A name, an equals sign and a value, at whose front no equals sign stands, read as a
keyword and its value. -/
theorem toArg_of_keyword (hname : Text.IsAsciiName name) (hsealed : ∀ t ∈ ts, t.Sealed)
    (hts : IsTrimmed ts) (hvalue : (textOf ts).head? ≠ some '=')
    (h : e.glyphs = glyphsOf ((name ++ ['=']).map Token.code ++ ts)) :
    e.toArg.keyword = some name ∧ e.toArg.value.glyphs = glyphsOf ts := by
  obtain ⟨hfirst, hwords⟩ := hname
  rw [List.map_append, List.append_assoc] at h
  change e.glyphs = glyphsOf (name.map Token.code ++ .code '=' :: ts) at h
  have hmasked : e.masked = name ++ ([] ++ '=' :: maskedOf ts) := by
    rw [masked_eq h, Token.maskedOf_append, Token.maskedOf_map_code, Token.maskedOf_code,
      List.nil_append]
  have hsign : (maskedOf ts).head? ≠ some '=' := by rwa [Token.head?_maskedOf hsealed]
  have hsize : ('=' : Char).utf8Size = 1 := rfl
  have hfront : widthOf (name.map Token.code ++ [.code '=']) = Text.width name + 1 := by
    rw [Token.widthOf_append, MemberCall.widthOf_map_code, Token.widthOf_code, hsize,
      Token.widthOf_nil]
  have hwidth : e.width = Text.width name + 1 + widthOf ts := by
    rw [width_eq h, Token.widthOf_append, MemberCall.widthOf_map_code, Token.widthOf_code, hsize,
      Nat.add_assoc]
  have hslice :=
    @slice_append e (name.map Token.code ++ [.code '=']) [] ts (by rw [h]; simp) hsealed
  rw [toArg_of_masked hmasked hfirst hwords (fun c hc => absurd hc List.not_mem_nil) hsign,
    Token.width_maskedOf, hwidth, Nat.add_sub_cancel, ← hfront, hslice, hts.trim]
  refine ⟨congrArg some ?_, rfl⟩
  rw [h, Token.glyphsOf_append, ← MemberCall.widthOf_map_code, ← Token.glyphWidth_glyphsOf,
    takeGlyphs_append, Token.plainText_glyphsOf, Token.textOf_map_code]

end Expr

open Token (IsOperand IsTrimmed glyphsOf textOf calling spaced)

/-- The argument is printed with these tokens and read back from them. -/
structure PrintedArg.HasTokens (a : PrintedArg) (p : List Token) : Prop where
  text : textOf p = a.text
  operand : IsOperand p
  trimmed : IsTrimmed p
  read : ∀ e : Expr, e.glyphs = glyphsOf p → e.toArg.printed = a

theorem PrintedArg.IsPrinted.exists_tokens {a : PrintedArg} (h : a.IsPrinted) :
    ∃ p, a.HasTokens p := by
  obtain ⟨ts, hts, hvalue⟩ := h.value
  obtain ⟨keyword, value⟩ := a
  obtain rfl : textOf ts = value := hvalue
  cases keyword with
  | none =>
    refine ⟨ts, rfl, hts.operand, hts.toIsTrimmed, fun e he => ?_⟩
    rw [Expr.toArg_of_tokens (fun t ht => (hts.lexed t ht).sealed) he hts.not_isKeyword,
      Arg.printed, Expr.text_eq he]
  | some name =>
    have hname := h.keyword name rfl
    obtain ⟨hinert, hhead⟩ := hname.sign
    refine ⟨(name ++ ['=']).map Token.code ++ ts, ?_, hts.operand.behind hinert,
      hts.toIsTrimmed.behind hhead, fun e he => ?_⟩
    · rw [Token.textOf_append, Token.textOf_map_code, List.append_assoc]
      rfl
    · have hsealed : ∀ t ∈ ts, t.Sealed := fun t ht => (hts.lexed t ht).sealed
      obtain ⟨hkeyword, hglyphs⟩ :=
        Expr.toArg_of_keyword hname hsealed hts.toIsTrimmed hts.head?_ne_sign he
      rw [Arg.printed, hkeyword, Expr.text_eq hglyphs]

/-! ### Calls -/

namespace PrintedArg

/-- The arguments are printed with these tokens and read back from them. -/
def HaveTokens (args : List PrintedArg) (parts : List (List Token)) : Prop :=
  List.Forall₂ HasTokens args parts

variable {args : List PrintedArg} {parts : List (List Token)}

theorem exists_haveTokens (h : ∀ a ∈ args, a.IsPrinted) : ∃ parts, HaveTokens args parts := by
  induction args with
  | nil => exact ⟨[], .nil⟩
  | cons a args ih =>
    obtain ⟨ha, hargs⟩ := List.forall_mem_cons.mp h
    obtain ⟨p, hp⟩ := ha.exists_tokens
    obtain ⟨parts, hparts⟩ := ih hargs
    exact ⟨p :: parts, .cons hp hparts⟩

namespace HaveTokens

theorem operand (h : HaveTokens args parts) : ∀ p ∈ parts, IsOperand p ∧ IsTrimmed p := by
  induction h with
  | nil => exact fun p hp => absurd hp List.not_mem_nil
  | cons hp _ ih => exact List.forall_mem_cons.mpr ⟨⟨hp.operand, hp.trimmed⟩, ih⟩

theorem text (h : HaveTokens args parts) : parts.map textOf = args.map PrintedArg.text := by
  induction h with
  | nil => rfl
  | cons hp _ ih => rw [List.map_cons, List.map_cons, hp.text, ih]

theorem textOf_calling (h : HaveTokens args parts) (callee : List Char) :
    textOf (calling callee parts) = callText callee args := by
  rw [Token.textOf_calling, h.text]
  rfl

theorem read (h : HaveTokens args parts) {xs : List Expr} (hxs : Expr.AreWritten xs parts) :
    (xs.map Expr.toArg).map Arg.printed = args := by
  induction h generalizing xs with
  | nil =>
    cases hxs
    rfl
  | cons hp _ ih =>
    cases hxs with
    | cons hx hxs => rw [List.map_cons, List.map_cons, hp.read _ hx, ih hxs]

end HaveTokens

end PrintedArg

/-- A printed call is one statement, and it reads as the call that was printed: with its callee,
with its arguments in order, and up to its end. -/
theorem Expr.call?_callText {callee : List Char} {args : List PrintedArg}
    (hcallee : isDottedName callee = true) (hargs : ∀ a ∈ args, a.IsPrinted) :
    ∃ s c, (readStatements .python (callText callee args)).statements = [s] ∧
      s.text = callText callee args ∧ (ofStatement s).call? = some c ∧ c.callee = callee ∧
      c.args.items.map Arg.printed = args ∧ c.args.stop = Text.width s.text := by
  obtain ⟨parts, hparts⟩ := PrintedArg.exists_haveTokens hargs
  have hoperands := fun p hp => (hparts.operand p hp).1
  obtain ⟨s, hread, hs⟩ := (Token.isLine_calling hcallee hoperands).exists_statement
  have htext : s.text = callText callee args := by
    rw [s.text_eq_textOf, hs.tokens, hparts.textOf_calling]
  rw [hparts.textOf_calling] at hread
  have hglyphs : (ofStatement s).glyphs = glyphsOf (calling callee parts) :=
    s.glyphs_eq.trans (by rw [hs.tokens])
  have hcall := call?_of_parts hcallee (spaced_ne_nil parts)
    (fun p hp => (Token.isOperand_spaced hoperands p hp).part) hglyphs
  have hitems :=
    areWritten_spaced (fun p hp => ⟨(hoperands p hp).part.sealed, (hparts.operand p hp).2⟩)
      ((ofStatement s).offset + (Text.width callee + 1))
  refine ⟨s, _, hread, htext, hcall, rfl, hparts.read hitems, ?_⟩
  dsimp only
  rw [width_eq hglyphs, Token.widthOf, hparts.textOf_calling, htext]

/-- Brackets, commas, equals signs and quotes in literals, a semicolon and a backslash in brackets,
and two literals side by side, the first one empty. -/
theorem Expr.call?_callText_nested :
    let args : List PrintedArg := [⟨none, "g(\x7b'k=': \"v,)#\"\x7d; \\ [a == b, 1])".toList⟩,
      ⟨some "name".toList, "''\"(\\\"\" + x".toList⟩]
    callText "app.add".toList args =
        "app.add(g(\x7b'k=': \"v,)#\"\x7d; \\ [a == b, 1]), name=''\"(\\\"\" + x)".toList ∧
      ∃ s c, (readStatements .python (callText "app.add".toList args)).statements = [s] ∧
        s.text = callText "app.add".toList args ∧ (ofStatement s).call? = some c ∧
        c.callee = "app.add".toList ∧ c.args.items.map Arg.printed = args ∧
        c.args.stop = Text.width s.text := by
  have hcode (cs : List Char) (h : (cs.all fun c => !isQuote c && c != '#' && c != '\n') = true) :
      ∀ t ∈ cs.map Token.code, t.IsLexed :=
    List.forall_mem_map.mpr
      fun c hc => by simpa [Token.IsLexed, and_assoc] using List.all_eq_true.mp h c hc
  have hliteral (q : Char) (cs : List Char) (hq : isQuote q = true) (h : Interior [q] [q] cs)
      (hline : '\n' ∉ cs) : (Token.literal (q :: (cs ++ [q]))).IsLexed :=
    ⟨[q], cs, .once (isDelimiter_of_isQuote hq), List.forall_mem_singleton.mpr hq, h, hline, rfl⟩
  have hvalue : Text.IsExpression "g(\x7b'k=': \"v,)#\"\x7d; \\ [a == b, 1])".toList := by
    let ts : List Token :=
      "g(\x7b".toList.map Token.code ++ (.literal "'k='".toList ::
        (": ".toList.map Token.code ++ (.literal "\"v,)#\"".toList ::
          "\x7d; \\ [a == b, 1])".toList.map Token.code)))
    have hkey : (Token.literal "'k='".toList).IsLexed :=
      hliteral '\x27' "k=".toList rfl (.of_plain (by decide) (by decide)) (by decide)
    have hitem : (Token.literal "\"v,)#\"".toList).IsLexed :=
      hliteral '\x22' "v,)#".toList rfl (.of_plain (by decide) (by decide)) (by decide)
    have hlexed : ∀ t ∈ ts, t.IsLexed :=
      List.forall_mem_append.mpr ⟨hcode _ (by decide), List.forall_mem_cons.mpr ⟨hkey,
        List.forall_mem_append.mpr ⟨hcode _ (by decide),
          List.forall_mem_cons.mpr ⟨hitem, hcode _ (by decide)⟩⟩⟩⟩
    exact ⟨ts, ⟨⟨⟨_, _, rfl, rfl⟩, by decide⟩, hlexed, by decide, by decide⟩, by decide⟩
  have hquoted : Text.IsExpression "''\"(\\\"\" + x".toList := by
    let ts : List Token := .literal "''".toList :: .literal "\"(\\\"\"".toList :: " + x".toList.map Token.code
    have hempty : (Token.literal "''".toList).IsLexed := hliteral '\x27' [] rfl .nil (by decide)
    have hescaped : (Token.literal "\"(\\\"\"".toList).IsLexed :=
      hliteral '\x22' "(\\\"".toList rfl (.plain (by decide) (by decide) (.escape '\x22' .nil)) (by decide)
    have hlexed : ∀ t ∈ ts, t.IsLexed :=
      List.forall_mem_cons.mpr ⟨hempty, List.forall_mem_cons.mpr ⟨hescaped, hcode _ (by decide)⟩⟩
    exact ⟨ts, ⟨⟨⟨_, _, rfl, rfl⟩, by decide⟩, hlexed, by decide, by decide⟩, by decide⟩
  have hname : Text.IsAsciiName "name".toList := by decide
  refine ⟨by decide, Expr.call?_callText (by decide)
    (List.forall_mem_cons.mpr ⟨⟨by simp, hvalue⟩, ?_⟩)⟩
  exact List.forall_mem_singleton.mpr ⟨by simpa using hname, hquoted⟩

end EndpointCensus
