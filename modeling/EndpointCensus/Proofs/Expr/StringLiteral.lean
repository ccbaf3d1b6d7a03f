import EndpointCensus.Proofs.Expr.Span

/-!
String literals as expressions. The value of an expression is looked for at its two ends alone. In a
text whose literals are all closed on their lines, an expression that is one literal has the
interior of the literal for its value. Another expression with a value is told apart from a literal
in no other way than by these: a backslash between its ends lets the delimiter stand there, an empty
literal beside another one reads as a delimiter of three quotes, and in Python a backtick is no
delimiter for the scanner.
-/

namespace EndpointCensus

open Token (widthOf textOf glyphsOf)

/-! ### Delimiters and what they enclose -/

namespace Text

/-- Texts that begin alike and are cut at the same byte are cut alike. -/
theorem eq_of_append_of_width {xs xs' ys ys' : List Char} (h : xs ++ ys = xs' ++ ys')
    (hwidth : width xs = width xs') : xs = xs' ∧ ys = ys' := by
  have hxs : xs = xs' := by
    rw [← takeBytes_append xs ys, h, hwidth, takeBytes_append]
  subst hxs
  exact ⟨rfl, List.append_cancel_left h⟩

end Text

/-- What stands between the delimiter that a text begins with and the same one at its end. -/
def enclosed? (body : List Char) : Option (List Char) :=
  (stringDelimiters.find? (·.isPrefixOf body)).bind fun delimiter =>
    let n := delimiter.length
    let inner := (body.drop n).take (body.length - 2 * n)
    if body.length < 2 * n || !delimiter.isSuffixOf body then none
    else if Text.contains delimiter inner && !inner.contains '\\' then none
    else some inner

theorem stringLiteral?_eq (cs : List Char) :
    stringLiteral? cs = enclosed? (cs.drop ((cs.take 2).takeWhile isStringMark).length) := rfl

theorem isDelimiter_of_isStringMark {c : Char} (h : isStringMark c = true) :
    isDelimiter c = false := by
  rw [isStringMark, List.contains_iff_mem] at h
  simp only [List.mem_cons, List.not_mem_nil, or_false] at h
  rcases h with rfl | rfl | rfl | rfl | rfl | rfl | rfl | rfl <;> rfl

/-- At most two letters are dropped before a delimiter. -/
theorem stringLiteral?_append {marks body : List Char} (hlength : marks.length ≤ 2)
    (hmarks : ∀ c ∈ marks, isStringMark c = true) (hbody : body.head?.any isDelimiter = true) :
    stringLiteral? (marks ++ body) = enclosed? body := by
  obtain ⟨q, rest, rfl⟩ : ∃ q rest, body = q :: rest := by
    cases body with
    | nil => contradiction
    | cons q rest => exact ⟨q, rest, rfl⟩
  have hquote : isStringMark q = false := by
    rw [Bool.eq_false_iff]
    intro hmark
    have hq : isDelimiter q = true := hbody
    rw [isDelimiter_of_isStringMark hmark] at hq
    contradiction
  have hrun : ((q :: rest).take (2 - marks.length)).takeWhile isStringMark = [] := by
    cases 2 - marks.length with
    | zero => rfl
    | succ n => rw [List.take_succ_cons, List.takeWhile_cons, hquote, if_neg Bool.false_ne_true]
  have htaken : ((marks ++ q :: rest).take 2).takeWhile isStringMark = marks := by
    rw [List.take_append, List.take_of_length_le hlength, List.takeWhile_append_of_pos hmarks, hrun,
      List.append_nil]
  rw [stringLiteral?_eq, htaken, List.drop_left]

/-- The delimiter that a text begins with is as long as masking takes it to be. -/
theorem find?_delimiter {q : Char} (hq : isDelimiter q = true) (rest : List Char) :
    stringDelimiters.find? (·.isPrefixOf (q :: rest)) =
      some (List.replicate (delimiterLength (q :: rest)) q) := by
  unfold isDelimiter isQuote at hq
  simp only [Bool.or_eq_true, beq_iff_eq] at hq
  rcases hq with (rfl | rfl) | rfl
  · cases hpair : ['\x27', '\x27'].isPrefixOf rest <;>
      simp [stringDelimiters, delimiterLength, hpair]
  · cases hpair : ['\x22', '\x22'].isPrefixOf rest <;>
      simp [stringDelimiters, delimiterLength, hpair]
  · rfl

theorem find?_delimiter_eq_none {body : List Char} (h : body.head?.any isDelimiter = false) :
    stringDelimiters.find? (·.isPrefixOf body) = none := by
  have hdelimiters : ∀ d ∈ stringDelimiters, d.head?.any isDelimiter = true := by decide
  refine List.find?_eq_none.mpr fun d hd hbegins => ?_
  obtain ⟨more, rfl⟩ := List.isPrefixOf_iff_prefix.mp hbegins
  have hhead := hdelimiters d hd
  cases d with
  | nil => contradiction
  | cons q d =>
    have hq : isDelimiter q = false := h
    have hq' : isDelimiter q = true := hhead
    rw [hq] at hq'
    contradiction

/-- A text is enclosed by the delimiter it begins with. -/
theorem enclosed?_eq_some {delimiter body inner : List Char}
    (hfind : stringDelimiters.find? (·.isPrefixOf body) = some delimiter) :
    enclosed? body = some inner ↔
      body = delimiter ++ (inner ++ delimiter) ∧ (delimiter <:+: inner → '\\' ∈ inner) := by
  have hcut (inner : List Char) :
      ((delimiter ++ (inner ++ delimiter)).drop delimiter.length).take
        ((delimiter ++ (inner ++ delimiter)).length - 2 * delimiter.length) = inner := by
    have hlength : (delimiter ++ (inner ++ delimiter)).length - 2 * delimiter.length =
        inner.length := by
      simp only [List.length_append]
      omega
    rw [List.drop_left, hlength, List.take_left]
  unfold enclosed?
  rw [hfind, Option.bind_some]
  dsimp only
  constructor
  · intro h
    split at h
    · contradiction
    · next hends =>
      rw [Bool.or_eq_true, not_or, decide_eq_true_eq, Bool.not_eq_true', Bool.not_eq_false,
        List.isSuffixOf_iff_suffix] at hends
      obtain ⟨hlength, hsuffix⟩ := hends
      have hbegins : delimiter.isPrefixOf body = true :=
        List.find?_some (p := fun d => List.isPrefixOf d body) hfind
      obtain ⟨more, rfl⟩ := List.isPrefixOf_iff_prefix.mp hbegins
      obtain ⟨inner', rfl⟩ : ∃ inner', more = inner' ++ delimiter := by
        have hmore : delimiter.length ≤ more.length := by
          rw [List.length_append] at hlength
          omega
        obtain ⟨inner', hinner⟩ :=
          List.suffix_of_suffix_length_le hsuffix (List.suffix_append delimiter more) hmore
        exact ⟨inner', hinner.symm⟩
      rw [hcut] at h
      split at h
      · contradiction
      · next hinner =>
        obtain rfl := Option.some.inj h
        refine ⟨rfl, fun hinfix => ?_⟩
        rw [Bool.and_eq_true, not_and, Bool.not_eq_true', Bool.not_eq_false] at hinner
        exact List.contains_iff_mem.mp (hinner (Text.contains_iff.mpr hinfix))
  · rintro ⟨rfl, hinner⟩
    have hends : ¬((decide ((delimiter ++ (inner ++ delimiter)).length < 2 * delimiter.length) ||
        !delimiter.isSuffixOf (delimiter ++ (inner ++ delimiter))) = true) := by
      rw [Bool.or_eq_true, not_or, decide_eq_true_eq, Bool.not_eq_true', Bool.not_eq_false,
        List.isSuffixOf_iff_suffix, ← List.append_assoc]
      refine ⟨?_, List.suffix_append _ _⟩
      simp only [List.length_append]
      omega
    have hescape : ¬((Text.contains delimiter inner && !inner.contains '\\') = true) := by
      rw [Bool.and_eq_true, not_and, Bool.not_eq_true', Bool.not_eq_false]
      intro hinfix
      exact List.contains_iff_mem.mpr (hinner (Text.contains_iff.mp hinfix))
    rw [if_neg hends, hcut, if_neg hescape]

/-! ### Tokens of an expression -/

namespace IsClosed

/-- A literal is enclosed by its own delimiter, and only a backslash hides that delimiter inside. -/
theorem exists_eq {cs : List Char} (h : IsClosed cs) : ∃ q interior, isDelimiter q = true ∧
    (delimiterLength cs = 1 ∨ delimiterLength cs = 3 ∧ isQuote q = true) ∧
    cs = List.replicate (delimiterLength cs) q ++
      (interior ++ List.replicate (delimiterLength cs) q) ∧
    (List.replicate (delimiterLength cs) q <:+: interior → '\\' ∈ interior) ∧
    (delimiterLength cs = 1 → interior.head? ≠ some q) := by
  obtain ⟨delimiter, interior, hdelimits, hinterior, rfl⟩ := h
  cases hdelimits with
  | @once q hq =>
    have hlength : delimiterLength ([q] ++ (interior ++ [q])) = 1 :=
      delimiterLength_once (hinterior.head?_ne hq)
    refine ⟨q, interior, hq, .inl hlength, ?_, ?_, fun _ => hinterior.head?_ne hq⟩
    · rw [hlength]
      rfl
    · rw [hlength]
      exact hinterior.mem_of_infix (List.cons_ne_nil q [])
  | @thrice q hq =>
    have hlength := delimiterLength_triple hq (interior ++ List.replicate 3 q)
    refine ⟨q, interior, isDelimiter_of_isQuote hq, .inr ⟨hlength, hq⟩, ?_, ?_, fun hone => ?_⟩
    · rw [hlength]
    · rw [hlength]
      exact hinterior.mem_of_infix (List.cons_ne_nil q _)
    · rw [hlength] at hone
      contradiction

end IsClosed

namespace Token

variable {language : Language} {ts xs xs' ys ys' : List Token}

theorem chars_ne_nil {t : Token} (h : t.Sealed) : t.chars ≠ [] := by
  cases t with
  | code c => exact List.cons_ne_nil c []
  | literal cs => exact EndpointCensus.Sealed.ne_nil h

@[simp] theorem textOf_map_code (cs : List Char) : textOf (cs.map code) = cs := by
  induction cs with
  | nil => rfl
  | cons c cs ih => rw [List.map_cons, textOf_cons, ih, chars, List.singleton_append]

/-- Characters that are no delimiters, at the start of tokens, are code. -/
theorem exists_code_of_textOf (hts : ∀ t ∈ ts, t.Sealed) {cs rest : List Char}
    (hcs : ∀ c ∈ cs, isDelimiter c = false) (h : textOf ts = cs ++ rest) :
    ∃ ts', ts = cs.map code ++ ts' ∧ textOf ts' = rest := by
  induction cs generalizing ts with
  | nil => exact ⟨ts, rfl, h⟩
  | cons c cs ih =>
    obtain ⟨hc, hcs'⟩ := List.forall_mem_cons.mp hcs
    cases ts with
    | nil => exact absurd h.symm (List.cons_ne_nil c _)
    | cons t ts =>
      cases t with
      | code d =>
        obtain ⟨rfl, htail⟩ := List.cons.inj h
        obtain ⟨ts', rfl, hrest⟩ := ih (fun t ht => hts t (List.mem_cons_of_mem _ ht)) hcs' htail
        exact ⟨ts', rfl, hrest⟩
      | literal ds =>
        obtain ⟨q, n, interior, hq, hpos, hds, -⟩ : EndpointCensus.Sealed ds :=
          hts _ List.mem_cons_self
        obtain ⟨n, rfl⟩ : ∃ k, n = k + 1 := ⟨n - 1, by omega⟩
        rw [textOf_cons, chars, hds] at h
        obtain ⟨rfl, -⟩ := List.cons.inj h
        rw [hq] at hc
        contradiction

/-- Where tokens begin with a delimiter, they begin with a literal, but for the
backtick in Python. -/
theorem exists_literal_of_textOf (hts : ∀ t ∈ ts, t.Clean language) {q : Char} {rest : List Char}
    (hq : isDelimiter q = true) (h : textOf ts = q :: rest) :
    (∃ cs ts', ts = literal cs :: ts' ∧ IsClosed cs) ∨ language = .python ∧ q = backtick := by
  cases ts with
  | nil => contradiction
  | cons t ts =>
    have hclean := hts t List.mem_cons_self
    cases t with
    | literal cs => exact .inl ⟨cs, ts, rfl, hclean⟩
    | code c =>
      obtain ⟨rfl, -⟩ := List.cons.inj h
      cases language with
      | script =>
        have hplain : isDelimiter c = false := hclean
        rw [hq] at hplain
        contradiction
      | python =>
        have hplain : isQuote c = false := hclean
        rw [isDelimiter, hplain, Bool.false_or, beq_iff_eq] at hq
        exact .inr ⟨rfl, hq⟩

/-- An empty literal stands directly beside another one. -/
def EmptyBeside (ts : List Token) : Prop :=
  ∃ xs cs ds ys, ts = xs ++ literal cs :: literal ds :: ys ∧ (Text.width cs = 2 ∨ Text.width ds = 2)

theorem width_pair {q : Char} (hq : isDelimiter q = true) : Text.width [q, q] = 2 :=
  width_replicate_of_isDelimiter hq 2

/-- A short literal is an empty one. -/
theorem width_eq_two {cs : List Char} (h : IsClosed cs) (hlength : cs.length ≤ 2) :
    Text.width cs = 2 := by
  obtain ⟨q, interior, hq, hlen, hcs, -, -⟩ := h.exists_eq
  have hsum := congrArg List.length hcs
  simp only [List.length_append, List.length_replicate] at hsum
  obtain ⟨hone, hnone⟩ : delimiterLength cs = 1 ∧ interior.length = 0 := by omega
  rw [hcs, hone, List.eq_nil_of_length_eq_zero hnone]
  exact width_pair hq

/-- Where quotes follow a literal, another literal does. -/
theorem exists_literal_of_quote (hts : ∀ t ∈ ts, t.Clean language) {q : Char} {rest : List Char}
    (hq : isQuote q = true) (h : textOf ts = q :: rest) :
    ∃ cs ts', ts = literal cs :: ts' ∧ IsClosed cs := by
  rcases exists_literal_of_textOf hts (isDelimiter_of_isQuote hq) h with hliteral | ⟨-, rfl⟩
  · exact hliteral
  · contradiction

theorem delimiterLength_cases (cs : List Char) :
    delimiterLength cs = 1 ∨ delimiterLength cs = 3 := by
  unfold delimiterLength
  split
  · exact .inr rfl
  · exact .inl rfl

/-- A literal is read to its closing delimiter, so the text in delimiters has it inside
if as much text follows. -/
theorem infix_of_append_eq {α : Type} {xs ys zs d : List α} (h : xs ++ (d ++ ys) = zs ++ d)
    (hlong : d.length ≤ ys.length) : d <:+: zs := by
  have hsuffix : ys <:+ zs ++ d := by
    rw [← h, ← List.append_assoc]
    exact List.suffix_append _ _
  obtain ⟨more, rfl⟩ := List.suffix_of_suffix_length_le (List.suffix_append zs d) hsuffix hlong
  refine ⟨xs, more, ?_⟩
  rw [← List.append_assoc, ← List.append_assoc] at h
  exact List.append_cancel_right h

/-- Fewer than three quotes behind a literal are an empty one. -/
theorem emptyBeside_of_suffix (hts : ∀ t ∈ ts, t.Clean language) (hne : textOf ts ≠ []) {n : Nat}
    {q : Char} (hq : isQuote q = true) (hsuffix : textOf ts <:+ List.replicate n q)
    (hshort : (textOf ts).length < 3) (cs : List Char) : EmptyBeside (literal cs :: ts) := by
  obtain ⟨c, rest, hfirst⟩ := List.exists_cons_of_ne_nil hne
  obtain rfl : c = q := List.eq_of_mem_replicate (hsuffix.subset (hfirst ▸ List.mem_cons_self))
  obtain ⟨ds, ts', rfl, hds⟩ := exists_literal_of_quote hts hq hfirst
  refine ⟨[], cs, ds, ts', rfl, .inr (width_eq_two hds ?_)⟩
  rw [textOf_cons, List.length_append] at hshort
  simp only [chars] at hshort
  omega

/-- Three quotes at the start of a literal in single ones are an empty literal and
the start of another one. -/
theorem emptyBeside_of_triple {cs rest : List Char} (hcs : IsClosed cs)
    (hts : ∀ t ∈ ts, t.Clean language) {q : Char} (hone : delimiterLength cs = 1)
    (h : cs ++ textOf ts = List.replicate 3 q ++ rest)
    (hthree : delimiterLength (cs ++ textOf ts) = 3) : EmptyBeside (literal cs :: ts) := by
  obtain ⟨q', interior, hq, -, hchars, -, hhead⟩ := hcs.exists_eq
  rw [hone] at hchars
  rw [hchars] at h
  obtain ⟨rfl, hsecond⟩ := List.cons.inj h
  cases interior with
  | cons c more =>
    obtain ⟨rfl, -⟩ := List.cons.inj hsecond
    exact absurd rfl (hhead hone)
  | nil =>
    obtain ⟨-, hthird⟩ := List.cons.inj hsecond
    have hquote : isQuote q' = true := by
      rcases Bool.or_eq_true_iff.mp hq with hquote | htick
      · exact hquote
      · have hshort : delimiterLength ([backtick, backtick] ++ textOf ts) = 1 := rfl
        rw [hchars, beq_iff_eq.mp htick] at hthree
        exact absurd (hshort.symm.trans hthree) (by decide)
    obtain ⟨ds, ts', rfl, -⟩ := exists_literal_of_quote hts hquote hthird
    refine ⟨[], cs, ds, ts', rfl, .inl ?_⟩
    rw [hchars]
    exact width_pair hq

/-- A text that begins with a literal and goes on behind it, but is enclosed by the
delimiter it begins with. -/
theorem escaped_or_emptyBeside {cs inner delimiter : List Char} (hcs : IsClosed cs) {q : Char}
    (hts : ∀ t ∈ ts, t.Clean language) (hne : ts ≠ [])
    (hdelimiter : delimiter = List.replicate (delimiterLength (cs ++ textOf ts)) q)
    (h : cs ++ textOf ts = delimiter ++ (inner ++ delimiter))
    (hinner : delimiter <:+: inner → '\\' ∈ inner) :
    '\\' ∈ inner ∨ EmptyBeside (literal cs :: ts) := by
  have htail : textOf ts ≠ [] := by
    obtain ⟨t, ts', rfl⟩ := List.exists_cons_of_ne_nil hne
    exact List.append_ne_nil_of_left_ne_nil (chars_ne_nil (hts t List.mem_cons_self).sealed) _
  obtain ⟨q', interior, hq, hlength, hchars, -, -⟩ := hcs.exists_eq
  have hcases := delimiterLength_cases (cs ++ textOf ts)
  by_cases hsame : delimiterLength (cs ++ textOf ts) = delimiterLength cs
  · -- Both delimiters begin the text, so they are the same one.
    obtain rfl : q' = q := by
      have hfirst := congrArg List.head? h
      rw [hchars, hdelimiter] at hfirst
      rcases hlength with hm | ⟨hm, -⟩ <;> rcases hcases with hn | hn <;>
        simpa [hm, hn] using hfirst
    rw [hsame] at hdelimiter
    rw [hchars, ← hdelimiter, List.append_assoc, List.append_assoc] at h
    have hrest : interior ++ (delimiter ++ textOf ts) = inner ++ delimiter :=
      List.append_cancel_left h
    by_cases hlong : delimiter.length ≤ (textOf ts).length
    · exact .inl (hinner (infix_of_append_eq hrest hlong))
    · have hwidth : delimiter.length = delimiterLength cs := by
        rw [hdelimiter, List.length_replicate]
      have hpos := List.length_pos_iff.mpr htail
      rcases hlength with hm | ⟨hm, hquote⟩
      · omega
      · have hsuffix : textOf ts <:+ inner ++ delimiter := by
          rw [← hrest, ← List.append_assoc]
          exact List.suffix_append _ _
        have hshort := List.suffix_of_suffix_length_le hsuffix (List.suffix_append inner delimiter)
          (Nat.le_of_not_le hlong)
        exact .inr (emptyBeside_of_suffix hts htail hquote (hdelimiter ▸ hshort) (by omega) cs)
  · -- The text begins with three quotes, but the literal with one.
    have hone : delimiterLength cs = 1 := by
      rcases hlength with hm | ⟨hm, hquote⟩
      · exact hm
      · refine absurd ?_ hsame
        rw [hm, hchars, hm, List.append_assoc]
        exact delimiterLength_triple hquote _
    have hthree := hcases.resolve_left fun hn => hsame (hn.trans hone.symm)
    rw [hthree] at hdelimiter
    rw [hdelimiter] at h
    exact .inr (emptyBeside_of_triple hcs hts hone h hthree)

/-- Tokens that begin alike and are cut at the same byte are cut alike. -/
theorem exists_append_of_width (hxs : ∀ t ∈ xs, t.Sealed) (h : xs ++ ys = xs' ++ ys')
    (hwidth : widthOf xs ≤ widthOf xs') : ∃ zs, xs' = xs ++ zs ∧ ys = zs ++ ys' := by
  rcases List.append_eq_append_iff.mp h with ⟨zs, rfl, rfl⟩ | ⟨zs, rfl, rfl⟩
  · exact ⟨zs, rfl, rfl⟩
  · rw [widthOf_append] at hwidth
    cases zs with
    | nil => exact ⟨[], by simp, rfl⟩
    | cons t zs =>
      have hpos := Text.width_pos (chars_ne_nil (hxs t (by simp)))
      rw [widthOf_cons] at hwidth
      omega

end Token

/-! ### Expressions -/

namespace Expr

variable {language : Language} {s : Statement} {e : Expr} {ts : List Token} {inner : List Char}

/-- The expression is, behind at most two letters that mark it, one literal of the statement, and
`interior` stands between its delimiters. -/
def IsLiteralOf (s : Statement) (e : Expr) (interior : List Char) : Prop :=
  ∃ marks delimiter, marks.length ≤ 2 ∧ (∀ c ∈ marks, isStringMark c = true) ∧
    e.text = marks ++ (delimiter ++ (interior ++ delimiter)) ∧
    delimiter.length = delimiterLength (delimiter ++ (interior ++ delimiter)) ∧
    (e.offset + Text.width marks, e.offset + e.width) ∈ s.literals

/-- Within the expression, an empty literal of the statement stands directly beside another one. -/
def EmptyBeside (s : Statement) (e : Expr) : Prop :=
  ∃ first middle last, (first, middle) ∈ s.literals ∧ (middle, last) ∈ s.literals ∧
    (middle = first + 2 ∨ last = middle + 2) ∧ e.offset ≤ first ∧ last ≤ e.offset + e.width

/-- A value is enclosed by delimiters, behind at most two letters. -/
theorem exists_marks_of_stringValue? (h : e.stringValue? = some inner) : ∃ marks q rest,
    e.text = marks ++ q :: rest ∧ marks.length ≤ 2 ∧ (∀ c ∈ marks, isStringMark c = true) ∧
      isDelimiter q = true ∧ enclosed? (q :: rest) = some inner := by
  rw [stringValue?, stringLiteral?_eq] at h
  have hprefix := List.takeWhile_prefix isStringMark (l := e.text.take 2)
  have hmark : ∀ c ∈ (e.text.take 2).takeWhile isStringMark, isStringMark c = true :=
    fun c hc => List.mem_takeWhile_imp hc
  generalize (e.text.take 2).takeWhile isStringMark = marks at h hprefix hmark
  obtain ⟨body, hbody⟩ := hprefix.trans (List.take_prefix 2 e.text)
  rw [← hbody, List.drop_left] at h
  cases body with
  | nil => contradiction
  | cons q rest =>
    refine ⟨marks, q, rest, hbody.symm, hprefix.length_le.trans (List.length_take_le 2 _), hmark,
      ?_, h⟩
    cases hq : isDelimiter q with
    | true => rfl
    | false =>
      rw [enclosed?, find?_delimiter_eq_none (show (q :: rest).head?.any isDelimiter =
        false from hq)] at h
      contradiction

namespace Spans

variable (h : e.Spans s ts)

include h

theorem mem_literals (xs : List Token) (cs : List Char) (ys : List Token)
    (hts : ts = xs ++ .literal cs :: ys) :
    (e.offset + widthOf xs, e.offset + widthOf xs + Text.width cs) ∈ s.literals := by
  obtain ⟨before, after, htokens, -, hoffset⟩ := h
  rw [Statement.mem_literals]
  refine ⟨before ++ xs, cs, ys ++ after, ?_, ?_⟩
  · rw [htokens, hts]
    simp
  · rw [Token.widthOf_append, hoffset]

theorem emptyBeside (hbeside : Token.EmptyBeside ts) : e.EmptyBeside s := by
  have hwidth := width_eq h.glyphs
  obtain ⟨xs, cs, ds, ys, rfl, hempty⟩ := hbeside
  have hfirst := h.mem_literals xs cs _ rfl
  have hsecond := h.mem_literals (xs ++ [.literal cs]) ds ys (by simp)
  simp only [Token.widthOf_append, Token.widthOf_cons, Token.widthOf_nil, Token.chars, Nat.add_zero]
    at hwidth hsecond
  rw [← Nat.add_assoc] at hsecond
  refine ⟨_, _, _, hfirst, hsecond, ?_, by omega, by omega⟩
  rcases hempty with hempty | hempty
  · left
    rw [hempty]
  · right
    rw [hempty]

/-- One literal has its interior for its value. -/
theorem stringValue?_of_isLiteralOf (hclean : ∀ t ∈ s.tokens, t.Clean language)
    (hliteral : e.IsLiteralOf s inner) : e.stringValue? = some inner := by
  obtain ⟨marks, delimiter, hmarks, hmark, htext, hlength, hmem⟩ := hliteral
  have hsealed : ∀ t ∈ s.tokens, t.Sealed := fun t ht => (hclean t ht).sealed
  have hts := h.sealed hsealed
  obtain ⟨before, after, htokens, hglyphs, hoffset⟩ := h
  obtain ⟨xs, cs, ys, hxs, hrange⟩ := Statement.mem_literals.mp hmem
  obtain ⟨hstart, hstop⟩ := Prod.mk.inj hrange
  rw [width_eq hglyphs] at hstop
  -- The literal is the last token of the expression, and the letters are those before it.
  have hbefore : ∀ t ∈ before, t.Sealed :=
    fun t ht => hsealed t (by rw [htokens]; exact List.mem_append_left _ ht)
  obtain ⟨us, rfl, hrest⟩ :=
    Token.exists_append_of_width hbefore (htokens.symm.trans hxs) (by omega)
  have hsplit : ts ++ after = (us ++ [.literal cs]) ++ ys := by rw [hrest, List.append_assoc]; rfl
  have hcs : IsClosed cs := hclean (.literal cs) (by rw [hxs]; simp)
  have hwidth : widthOf (us ++ [.literal cs]) = widthOf ts := by
    simp only [Token.widthOf_append, Token.widthOf_cons, Token.widthOf_nil, Token.chars]
      at hstart hstop ⊢
    omega
  have hwhole : textOf ts = textOf us ++ cs := by
    have htexts := congrArg textOf hsplit
    rw [Token.textOf_append, Token.textOf_append] at htexts
    rw [(Text.eq_of_append_of_width htexts hwidth.symm).1, Token.textOf_append]
    exact congrArg (textOf us ++ ·) (List.append_nil cs)
  rw [text_eq hglyphs, hwhole] at htext
  have hus : Text.width (textOf us) = Text.width marks := by
    have hbytes := Token.widthOf_append before us
    rw [hbytes] at hstart
    have : widthOf us = Text.width marks := by omega
    exact this
  obtain ⟨hmarks', rfl⟩ := Text.eq_of_append_of_width htext hus
  obtain ⟨q, interior, hq, hcases, hchars, hinterior, -⟩ := hcs.exists_eq
  rw [← hlength] at hchars hinterior hcases
  have hdelimiter : delimiter = List.replicate delimiter.length q := by
    exact (List.append_inj hchars (by simp)).1
  obtain rfl : inner = interior := by
    rw [← hdelimiter] at hchars
    exact List.append_cancel_right (List.append_cancel_left hchars)
  obtain ⟨rest, hrest⟩ : ∃ rest, delimiter ++ (inner ++ delimiter) = q :: rest := by
    obtain ⟨n, hn⟩ : ∃ n, delimiter.length = n + 1 := ⟨delimiter.length - 1, by omega⟩
    rw [hn, List.replicate_succ] at hdelimiter
    rw [hdelimiter]
    exact ⟨_, rfl⟩
  have hfind : stringDelimiters.find? (·.isPrefixOf (delimiter ++ (inner ++ delimiter))) =
      some delimiter := by
    rw [hrest, find?_delimiter hq, ← hrest, ← hlength, ← hdelimiter]
  have hhead : (delimiter ++ (inner ++ delimiter)).head?.any isDelimiter = true := by
    rw [hrest]
    exact hq
  rw [stringValue?, text_eq hglyphs, hwhole, hmarks', stringLiteral?_append hmarks hmark hhead]
  refine (enclosed?_eq_some hfind).mpr ⟨rfl, ?_⟩
  rwa [← hdelimiter] at hinterior

/-- An expression with a value is one literal, but for what stands between its ends
or a backtick of Python. -/
theorem isLiteralOf_of_stringValue? (hclean : ∀ t ∈ s.tokens, t.Clean language)
    (hvalue : e.stringValue? = some inner) :
    e.IsLiteralOf s inner ∨ '\\' ∈ inner ∨ e.EmptyBeside s ∨
      language = .python ∧ ∃ marks rest, (∀ c ∈ marks, isStringMark c = true) ∧
      e.text = marks ++ backtick :: rest := by
  have hsealed : ∀ t ∈ s.tokens, t.Sealed := fun t ht => (hclean t ht).sealed
  have hts := h.sealed hsealed
  have hclean' : ∀ t ∈ ts, t.Clean language := by
    obtain ⟨before, after, htokens, -, -⟩ := h
    intro t ht
    apply hclean t
    rw [htokens]
    exact List.mem_append_right _ (List.mem_append_left _ ht)
  have hglyphs := h.glyphs
  obtain ⟨marks, q, rest, htext, hmarks, hmark, hq, henclosed⟩ :=
    exists_marks_of_stringValue? hvalue
  have hplain : ∀ c ∈ marks, isDelimiter c = false :=
    fun c hc => isDelimiter_of_isStringMark (hmark c hc)
  obtain ⟨us, rfl, hbody⟩ :=
    Token.exists_code_of_textOf hts hplain (by rw [← text_eq hglyphs]; exact htext)
  obtain ⟨hchars, hinner⟩ := (enclosed?_eq_some (find?_delimiter hq rest)).mp henclosed
  have hus : ∀ t ∈ us, t.Clean language := fun t ht => hclean' t (List.mem_append_right _ ht)
  rcases Token.exists_literal_of_textOf hus hq hbody with ⟨cs, vs, rfl, hcs⟩ | ⟨hpython, htick⟩
  · rw [← hbody, Token.textOf_cons] at hchars hinner
    by_cases hvs : vs = []
    · left
      subst hvs
      rw [Token.textOf_nil, List.append_nil, Token.chars] at hchars
      have hwidth : widthOf (marks.map Token.code) = Text.width marks := by
        rw [widthOf, Token.textOf_map_code]
      have hmem := h.mem_literals (marks.map Token.code) cs [] rfl
      rw [hwidth] at hmem
      refine ⟨marks, List.replicate (delimiterLength cs) q, hmarks, hmark, ?_, ?_, ?_⟩
      · rw [htext, ← hbody, Token.textOf_cons, Token.textOf_nil, List.append_nil]
        exact congrArg (marks ++ ·) hchars
      · rw [← hchars, List.length_replicate]
      · rw [width_eq hglyphs, Token.widthOf_append, Token.widthOf_cons, hwidth, ← Nat.add_assoc]
        exact hmem
    · have hclosing :=
        Token.escaped_or_emptyBeside hcs (fun t ht => hus t (List.mem_cons_of_mem _ ht)) hvs rfl
          hchars hinner
      rcases hclosing with hescape | ⟨xs, ds, ds', ys, hbeside, hempty⟩
      · exact .inr (.inl hescape)
      · refine .inr
          (.inr (.inl (h.emptyBeside ⟨marks.map Token.code ++ xs, ds, ds', ys, ?_, hempty⟩)))
        rw [hbeside, List.append_assoc]
  · refine .inr (.inr (.inr ⟨hpython, marks, rest, hmark, ?_⟩))
    rw [htext, htick]

end Spans

/-- Where all literals of a text are closed on their lines, an expression that is one literal has
its interior for its value, and another one has a value only if a backslash stands between its ends,
if an empty literal stands beside another one in it, or if it begins with a backtick in Python. -/
theorem stringValue?_of_reached {cs : List Char} (hclosed : LiteralsClose language cs)
    (hs : s ∈ (readStatements language cs).statements) (he : e.Reached s) (inner : List Char) :
    (e.IsLiteralOf s inner → e.stringValue? = some inner) ∧
      (e.stringValue? = some inner →
        e.IsLiteralOf s inner ∨ '\\' ∈ inner ∨ e.EmptyBeside s ∨
          language = .python ∧
            ∃ marks rest, (∀ c ∈ marks, isStringMark c = true) ∧
              e.text = marks ++ backtick :: rest) := by
  have hclean := (Statement.clean_of_mem_readStatements hclosed hs).token
  obtain ⟨ts, hts⟩ := he.spans fun t ht => (hclean t ht).sealed
  exact ⟨hts.stringValue?_of_isLiteralOf hclean, hts.isLiteralOf_of_stringValue? hclean⟩

/-- What does not begin with a mark is a literal only as a whole. -/
theorem IsLiteralOf.mem_literals (h : e.IsLiteralOf s inner)
    (hhead : e.text.head?.any isStringMark = false) :
    (e.offset, e.offset + e.width) ∈ s.literals := by
  obtain ⟨marks, delimiter, -, hmark, htext, -, hmem⟩ := h
  cases marks with
  | nil => exact hmem
  | cons c marks =>
    have hc := hmark c List.mem_cons_self
    rw [htext] at hhead
    rw [show isStringMark c = false from hhead] at hc
    contradiction

/-- A literal with two letters before it, and the sum of two literals. -/
theorem stringValue?_of_reached_sum :
    let cs := "f(rb'a\"', 'b' + 'c')".toList
    LiteralsClose .python cs ∧ ∃ s ∈ (readStatements .python cs).statements, ∃ e e' : Expr,
      e.Reached s ∧ e.IsLiteralOf s "a\"".toList ∧ e.stringValue? = some "a\"".toList ∧
        e'.Reached s ∧ e'.text = "'b' + 'c'".toList ∧ e'.stringValue? ≠ some "b' + 'c".toList := by
  intro cs
  have hclosed : LiteralsClose .python cs := by decide +kernel
  obtain ⟨s, hs, hliterals, args, hargs, a, ha, b, hb, hfirst, hsecond⟩ :
      ∃ s ∈ (readStatements .python cs).statements, s.literals = [(4, 8), (10, 13), (16, 19)] ∧
        ∃ args ∈ (ofStatement s).argsAt? 1, ∃ a ∈ args.items, ∃ b ∈ args.items,
          (a.value.text = "rb'a\"'".toList ∧ a.value.offset = 2 ∧ a.value.width = 6) ∧
            b.value.text = "'b' + 'c'".toList ∧ b.value.offset = 10 ∧ b.value.width = 9 := by
    decide +kernel
  have ha : a.value.Reached s := .argument .whole hargs ha
  have hb : b.value.Reached s := .argument .whole hargs hb
  have hliteral : a.value.IsLiteralOf s "a\"".toList := by
    refine ⟨['r', 'b'], ['\x27'], by decide, by simp [isStringMark], hfirst.1, by decide, ?_⟩
    rw [hfirst.2.1, hfirst.2.2, hliterals]
    decide
  refine ⟨hclosed, s, hs, a.value, b.value, ha, hliteral,
    (stringValue?_of_reached hclosed hs ha _).1 hliteral, hb, hsecond.1, fun hvalue => ?_⟩
  rcases (stringValue?_of_reached hclosed hs hb _).2 hvalue
    with h | h | ⟨_, _, _, h, h', hwidth, -⟩ | ⟨-, marks, rest, hmark, h⟩
  · have hmem := h.mem_literals (by rw [hsecond.1]; decide)
    rw [hsecond.2.1, hsecond.2.2, hliterals] at hmem
    revert hmem
    decide
  · revert h
    decide
  · simp only [hliterals, List.mem_cons, Prod.mk.injEq, List.not_mem_nil, or_false] at h h'
    omega
  · rw [hsecond.1] at h
    cases marks with
    | nil => exact absurd (List.cons.inj h).1 (by decide)
    | cons c marks =>
      have hc := hmark c List.mem_cons_self
      rw [← (List.cons.inj h).1] at hc
      revert hc
      decide

/-- The sum of two literals, of which the second has a backslash, is taken for one. -/
theorem stringValue?_sum_escaped :
    let cs := "f('a' + 'b\\n')".toList
    LiteralsClose .python cs ∧ ∃ s ∈ (readStatements .python cs).statements, ∃ e : Expr,
      e.Reached s ∧ e.text = "'a' + 'b\\n'".toList ∧ e.stringValue? = some "a' + 'b\\n".toList ∧
      ∀ inner, ¬e.IsLiteralOf s inner := by
  intro cs
  obtain ⟨s, hs, hliterals, c, hc, a, ha, htext, hoffset, hwidth⟩ :
      ∃ s ∈ (readStatements .python cs).statements, s.literals = [(2, 5), (8, 13)] ∧
        ∃ c ∈ (ofStatement s).callPrefix?, ∃ a ∈ c.args.items, a.value.text =
          "'a' + 'b\\n'".toList ∧ a.value.offset = 2 ∧ a.value.width = 11 := by
    decide +kernel
  refine ⟨by decide +kernel, s, hs, a.value, .of_callPrefix? .whole hc ha, htext, ?_,
    fun inner h => ?_⟩
  · rw [stringValue?, htext]
    decide +kernel
  · have hmem := h.mem_literals (by rw [htext]; decide)
    rw [hoffset, hwidth, hliterals] at hmem
    revert hmem
    decide

end Expr

end EndpointCensus
