import EndpointCensus.Proofs.Expr.Argument
import EndpointCensus.Proofs.Line.Closed
import EndpointCensus.Proofs.Line.Concatenation
import EndpointCensus.Proofs.Statement.Reading
import EndpointCensus.Proofs.Statement.Token

/-! Statements that stand on one line each. Tokens whose brackets are balanced and whose
literals close on the line are written out and read back: every line is one statement,
and it has these tokens. -/

namespace EndpointCensus

theorem Text.IsArgument.depth_read {depth : Nat} {cs : List Char} (h : Text.IsArgument depth cs)
    (b : Balance) (hb : b.depth = depth) : (b.read cs).depth = 0 := by
  induction cs generalizing depth b with
  | nil => exact hb.trans h
  | cons c cs ih =>
    rw [Text.IsArgument] at h
    rw [Balance.read_cons]
    unfold Balance.step
    split at h
    next hopener =>
      rw [if_pos hopener]
      exact ih h _ (by simp [hb])
    next hopener =>
      rw [if_neg hopener]
      split at h
      next hcloser =>
        rw [if_pos hcloser]
        exact ih h.2 _ (by simp [hb])
      next hcloser =>
        rw [if_neg hcloser]
        split
        · exact ih h.2 _ hb
        · exact ih h.2 b hb

/-! ### Rows of tokens -/

namespace Token

/-- Code that neither opens a literal or a comment nor ends or continues a line, or a
closed literal of Python. -/
def IsPlain : Token → Prop
  | code c => isQuote c = false ∧ c ∉ ['#', ';', '\\', '\n']
  | literal cs => ∃ delimiter interior, Delimits delimiter ∧ (∀ q ∈ delimiter, isQuote q = true) ∧
      Interior delimiter delimiter interior ∧ '\n' ∉ interior ∧
      cs = delimiter ++ (interior ++ delimiter)

/-- No literal stands directly behind another one. -/
def AreApart : Token → Token → Prop
  | literal _, literal _ => False
  | _, _ => True

/-- The tokens of a statement of Python on one line. -/
structure IsRow (ts : List Token) : Prop where
  plain : ∀ t ∈ ts, t.IsPlain
  apart : ts.IsChain AreApart
  balanced : Text.IsArgument 0 (codeOf ts)
  /-- The first token is code and no white space. -/
  head : ∃ c rest, ts = code c :: rest ∧ Text.isBlank c = false
  last : ts.getLast?.any isBlank = false

/-- Code that neither opens a literal or a comment nor ends the line, or a
closed literal of Python. -/
def IsLexed : Token → Prop
  | code c => isQuote c = false ∧ c ∉ ['#', '\n']
  | literal cs => (literal cs).IsPlain

/-- An empty literal is told apart from a literal behind it: together they do not
begin with three quotes. -/
def AreDistinct : Token → Token → Prop
  | literal cs, literal ds => cs.length = 2 → ds.head? ≠ cs.head?
  | _, _ => True

instance : (x y : Token) → Decidable (AreDistinct x y)
  | literal cs, literal ds => inferInstanceAs (Decidable (cs.length = 2 → ds.head? ≠ cs.head?))
  | literal _, code _ | code _, _ => isTrue trivial

/-- The tokens of a statement of Python on one line. Semicolons stand in brackets, and no
backslash stands at the end. -/
structure IsLine (ts : List Token) : Prop where
  lexed : ∀ t ∈ ts, t.IsLexed
  distinct : ts.IsChain AreDistinct
  balanced : (({} : Balance).read (codeOf ts)).depth = 0
  encloses : ({} : Balance).Encloses (codeOf ts)
  /-- The first token is code and no white space. -/
  head : ∃ c rest, ts = code c :: rest ∧ Text.isBlank c = false
  last : ts.getLast?.any isBlank = false
  ends : ts.getLast? ≠ some (code '\\')

/-- The segments of tokens behind the characters of code in `seen`, last one first. -/
def segmentsFrom (seen : List Char) : List Token → List Segment
  | [] => cut .code seen
  | code c :: ts => segmentsFrom (c :: seen) ts
  | literal cs :: ts => cut .code seen ++ ⟨.literal, cs⟩ :: segmentsFrom [] ts

variable {t : Token} {ts : List Token} {seen : List Char}

/-- A literal begins with a quote. -/
theorem IsPlain.exists_quote {cs : List Char} (h : (literal cs).IsPlain) :
    ∃ q more, cs = q :: more ∧ isQuote q = true := by
  obtain ⟨delimiter, interior, hdelimits, hquotes, -, -, rfl⟩ := h
  cases hdelimits with
  | once => exact ⟨_, _, rfl, hquotes _ List.mem_cons_self⟩
  | thrice => exact ⟨_, _, rfl, hquotes _ List.mem_cons_self⟩

theorem IsPlain.lexed (h : t.IsPlain) : t.IsLexed := by
  cases t with
  | code c => exact ⟨h.1, fun hmem => h.2 (by simp at hmem ⊢; tauto)⟩
  | literal cs => exact h

/-- A row is a line. -/
theorem IsRow.line (h : IsRow ts) : IsLine ts where
  lexed t ht := (h.plain t ht).lexed
  distinct := by
    refine h.apart.imp fun x y hapart => ?_
    cases x with
    | code c => trivial
    | literal cs =>
      cases y with
      | code c => trivial
      | literal ds => exact hapart.elim
  balanced := h.balanced.depth_read {} rfl
  encloses := by
    refine Balance.encloses_of_not_mem fun hmem => ?_
    obtain ⟨t, ht, hc⟩ := List.mem_flatMap.mp hmem
    cases t with
    | literal cs => exact List.not_mem_nil hc
    | code c => exact (h.plain _ ht).2 (List.mem_singleton.mp hc ▸ by simp)
  head := h.head
  last := h.last
  ends hslash := (h.plain _ (List.mem_of_getLast? hslash)).2 (by simp)

theorem chars_segmentsFrom :
    (segmentsFrom seen ts).flatMap Segment.chars = seen.reverse ++ textOf ts := by
  have hcut (seen : List Char) : (cut .code seen).flatMap Segment.chars = seen.reverse := by
    cases seen <;> simp [cut]
  induction ts generalizing seen with
  | nil => rw [segmentsFrom, hcut, textOf_nil, List.append_nil]
  | cons t ts ih =>
    cases t with
    | code c => simp [segmentsFrom, ih, chars]
    | literal cs => simp [segmentsFrom, ih, hcut, chars]

theorem codeOf_segmentsFrom :
    EndpointCensus.codeOf (marked (segmentsFrom seen ts)) = seen.reverse ++ codeOf ts := by
  have hcut (seen : List Char) : EndpointCensus.codeOf (marked (cut .code seen)) =
      seen.reverse := by
    cases seen with
    | nil => rfl
    | cons c seen => exact (codeOf_marked_cons _ []).trans (List.append_nil _)
  induction ts generalizing seen with
  | nil =>
    rw [segmentsFrom, hcut]
    exact (List.append_nil _).symm
  | cons t ts ih =>
    cases t with
    | code c =>
      rw [segmentsFrom, ih, List.reverse_cons, List.append_assoc]
      rfl
    | literal cs =>
      rw [segmentsFrom, marked_append, EndpointCensus.codeOf_append, hcut, codeOf_marked_cons, ih]
      rfl

end Token

open Token (segmentsFrom textOf)

/-! ### Scanning -/

/-- What stands behind the delimiter does not close the literal before it does. -/
theorem Interior.append {delimiter cs : List Char} (h : Interior delimiter delimiter cs)
    (rest : List Char) : Interior delimiter (delimiter ++ rest) cs := by
  induction h with
  | nil => exact .nil
  | escape c _ ih => exact .escape c ih
  | @plain c cs hc hopen _ ih =>
    refine .plain hc (fun hprefix => hopen ?_) ih
    refine List.prefix_of_prefix_length_le hprefix ⟨rest, by simp⟩ ?_
    simp
    omega

namespace Cursor

variable {language : Language} {number : Nat} {mode : Mode} {delimiter interior seen : List Char}

/-- A literal is read from behind its first delimiter to the next one. -/
theorem read_interior (hmode : mode.delimiter? = some delimiter) (hdelimits : Delimits delimiter)
    {rest : List Char} (hinterior : Interior delimiter (delimiter ++ rest) interior) :
    ({ mode, seen } : Cursor).read language number [] (interior ++ (delimiter ++ rest)) =
      (⟨.literal, seen.reverse ++ (interior ++ delimiter)⟩ ::
          (({ mode := .code } : Cursor).read language number [] rest).1,
        (({ mode := .code } : Cursor).read language number [] rest).2) := by
  induction hinterior generalizing seen with
  | nil => exact read_delimiter hmode hdelimits rest
  | @escape c cs _ ih =>
    have hlexeme :=
      Mode.lexeme_of_delimiter? hmode language number '\\' (c :: (cs ++ (delimiter ++ rest)))
    have hstep : ({ mode, seen } : Cursor).step language number '\\'
        (c :: (cs ++ (delimiter ++ rest))) =
          ([], { mode, seen := '\\' :: seen, passing := 1 }) := by
      rw [if_pos rfl] at hlexeme
      simp [step, hlexeme, take]
    have hpass := @read_passing language number mode ('\\' :: seen) [c] (cs ++ (delimiter ++ rest))
    rw [List.length_singleton, List.singleton_append] at hpass
    rw [List.cons_append, List.cons_append, read_cons, hstep, hpass, ih]
    simp
  | @plain c cs hc hopen _ ih =>
    have hlexeme := Mode.lexeme_of_delimiter? hmode language number c (cs ++ (delimiter ++ rest))
    have hstep : ({ mode, seen } : Cursor).step language number c (cs ++ (delimiter ++ rest)) =
        ([], { mode, seen := c :: seen }) := by
      rw [if_neg hc, if_neg hopen] at hlexeme
      simp [step, hlexeme, take]
    rw [List.cons_append, read_cons, hstep, ih]
    simp

/-- A literal of Python is read from where it opens in code. -/
theorem read_quoted (hdelimits : Delimits delimiter) (hquotes : ∀ q ∈ delimiter, isQuote q = true)
    (hinterior : Interior delimiter delimiter interior) {rest : List Char}
    (hrest : (delimiter ++ (interior ++ delimiter)).length = 2 →
      rest.head? ≠ (delimiter ++ (interior ++ delimiter)).head?) :
    ({ mode := .code, seen } : Cursor).read .python number []
      (delimiter ++ (interior ++ delimiter) ++ rest) =
          (cut .code seen ++ ⟨.literal, delimiter ++ (interior ++ delimiter)⟩ ::
            (({ mode := .code } : Cursor).read .python number [] rest).1,
        (({ mode := .code } : Cursor).read .python number [] rest).2) := by
  have hbody := hinterior.append rest
  rw [List.append_assoc, List.append_assoc]
  cases hdelimits with
  | @once q hq =>
    have hquote := hquotes q (List.mem_singleton_self q)
    have hmark : (q == '#') = false := beq_eq_false_iff_ne.mpr fun heq => by
      rw [heq] at hquote
      contradiction
    have hpair : [q, q].isPrefixOf (interior ++ ([q] ++ rest)) = false := by
      rw [Bool.eq_false_iff]
      intro hpair
      obtain ⟨more, hmore⟩ := List.isPrefixOf_iff_prefix.mp hpair
      cases interior with
      | nil =>
        cases rest with
        | nil => simp at hmore
        | cons d rest =>
          obtain rfl : q = d := (List.cons.inj (List.cons.inj hmore).2).1
          exact hrest rfl rfl
      | cons d interior =>
        refine hinterior.head?_ne hq ?_
        have hd : q = d := (List.cons.inj hmore).1
        rw [hd]
        rfl
    have hstep : ({ mode := .code, seen } : Cursor).step .python number q
        (interior ++ ([q] ++ rest)) = (cut .code seen, { mode := .quoted q, seen := [q] }) := by
      simp only [step, lexeme, opening, hmark, hquote, hpair, Mode.kind]
      rfl
    have hread :=
      @read_interior .python number (.quoted q) [q] interior [q] rfl (.once hq) rest hbody
    rw [List.singleton_append, read_cons, hstep, hread]
    rfl
  | @thrice q hq =>
    have hmark : (q == '#') = false := beq_eq_false_iff_ne.mpr fun heq => by
      rw [heq] at hq
      contradiction
    have hpair (more : List Char) : [q, q].isPrefixOf ([q, q] ++ more) = true :=
      List.isPrefixOf_iff_prefix.mpr (List.prefix_append _ _)
    have hstep (more : List Char) : ({ mode := .code, seen } : Cursor).step .python number q
        ([q, q] ++ more) =
          (cut .code seen, { mode := .triple q number, seen := [q], passing := [q, q].length }) := by
      simp only [step, lexeme, opening, hmark, hq, hpair, Mode.kind]
      rfl
    have hread :=
      @read_interior .python number (.triple q number) (List.replicate 3 q) interior [q, q, q] rfl
        (.thrice hq) rest hbody
    have hopen : List.replicate 3 q ++ (interior ++ (List.replicate 3 q ++ rest)) =
        q :: ([q, q] ++ (interior ++ (List.replicate 3 q ++ rest))) := rfl
    rw [hopen, read_cons, hstep, read_passing, show [q, q].reverse ++ [q] = [q, q, q] from rfl,
      hread]
    rfl

end Cursor

/-- A line is scanned into its literals and the code between them. -/
theorem scanFrom_line {ts : List Token} (hlexed : ∀ t ∈ ts, t.IsLexed)
    (hdistinct : ts.IsChain Token.AreDistinct) (number : Nat) (seen : List Char) :
    scanFrom .python number { mode := .code, seen } (textOf ts) =
      (segmentsFrom seen ts, .code) := by
  induction ts generalizing seen with
  | nil => rfl
  | cons t ts ih =>
    obtain ⟨ht, hts⟩ := List.forall_mem_cons.mp hlexed
    have hrest := ih hts (List.IsChain.of_cons hdistinct)
    cases t with
    | code c =>
      obtain ⟨hquote, hmarks⟩ := ht
      have hmark : (c == '#') = false := beq_eq_false_iff_ne.mpr fun heq =>
        hmarks (heq ▸ List.mem_cons_self)
      have hstep : ({ mode := .code, seen } : Cursor).step .python number c (textOf ts) =
          ([], { mode := .code, seen := c :: seen }) := by
        simp [Cursor.step, lexeme, opening, hmark, hquote, Cursor.take]
      have htext : textOf (.code c :: ts) = c :: textOf ts := rfl
      rw [htext, scanFrom, hstep, hrest]
      rfl
    | literal cs =>
      have hnext : cs.length = 2 → (textOf ts).head? ≠ cs.head? := by
        intro hempty
        obtain ⟨q, more, hcs, hq⟩ := Token.IsPlain.exists_quote ht
        cases ts with
        | nil => exact hcs ▸ (Option.some_ne_none q).symm
        | cons t ts =>
          cases t with
          | literal ds =>
            obtain ⟨r, rest, rfl, -⟩ := Token.IsPlain.exists_quote (hts _ List.mem_cons_self)
            exact (List.isChain_cons_cons.mp hdistinct).1 hempty
          | code c =>
            have hc : isQuote c = false := (hts _ List.mem_cons_self).1
            rw [hcs]
            rintro hsame
            obtain rfl : c = q := Option.some.inj hsame
            rw [hc] at hq
            contradiction
      obtain ⟨delimiter, interior, hdelimits, hquotes, hinterior, -, rfl⟩ := ht
      have hread :=
        @Cursor.read_quoted number delimiter interior seen hdelimits hquotes hinterior
          (textOf ts) hnext
      have hscan := hrest []
      rw [scanFrom_eq_read] at hscan
      rw [Token.textOf_cons, Token.chars, scanFrom_eq_read, hread]
      obtain ⟨hsegments, hmode⟩ := Prod.mk.inj hscan
      dsimp only at hsegments hmode ⊢
      rw [List.append_assoc, List.cons_append, hsegments, hmode]
      rfl

/-! ### Assembly -/

namespace Draft

theorem append_of_code {d : Draft} (h : d.openLiteral = none) (cells : List Cell) :
    d.append cells =
      { d with width := d.width + cellWidth cells, tail := cells.reverse ++ d.tail } := by
  obtain ⟨_, _, _, _, _, openLiteral, _⟩ := d
  obtain rfl : openLiteral = none := h
  rfl

/-- A draft of one line that holds these tokens. -/
structure Holds (number : Nat) (ts : List Token) (d : Draft) : Prop where
  startLine : d.startLine = number
  indent : d.indent = 0
  openLiteral : d.openLiteral = none
  lineStarts : d.lineStarts = [(0, number)]
  tokens : d.settled.reverse.flatMap Piece.tokens ++ d.tail.reverse.map (fun c => .code c.char) = ts

namespace Holds

variable {number : Nat} {ts : List Token} {d : Draft}

theorem lastLine (h : Holds number ts d) : d.lastLine = some number := by
  rw [Draft.lastLine, h.lineStarts]
  rfl

theorem withDepth (h : Holds number ts d) (depth maxDepth : Nat) :
    Holds number ts (d.withDepth depth maxDepth) :=
  ⟨h.startLine, h.indent, h.openLiteral, h.lineStarts, h.tokens⟩

theorem map_cellsOf (number : Nat) (cs : List Char) :
    (cellsOf number cs).map (fun c => Token.code c.char) = cs.map Token.code := by
  rw [cellsOf, List.map_map]
  rfl

theorem pushCode (h : Holds number ts d) (cs : List Char) :
    Holds number (ts ++ cs.map Token.code) (d.pushCode number cs) := by
  rw [pushCode_of_lastLine h.lastLine, append_of_code h.openLiteral]
  refine ⟨h.startLine, h.indent, h.openLiteral, h.lineStarts, ?_⟩
  dsimp only
  rw [← h.tokens, List.reverse_append, List.map_append, List.reverse_reverse, map_cellsOf,
    List.append_assoc]

theorem pushLiteral (h : Holds number ts d) (cs : List Char) :
    Holds number (ts ++ [.literal cs]) (d.pushLiteral number cs false) := by
  have hchars : (cellsOf number cs).map Cell.char = cs := by
    rw [cellsOf, List.map_map]
    exact List.map_id cs
  rw [pushLiteral_false, enterLine_of_lastLine h.lastLine, h.openLiteral]
  refine ⟨h.startLine, h.indent, rfl, h.lineStarts, ?_⟩
  dsimp only
  rw [← h.tokens]
  simp [Piece.tokens, hchars]

/-- The first code of a line. -/
theorem ofLine {l : Line} {c : Char} {cs : List Char} (hc : Text.isBlank c = false)
    (hline : indentWidth l.text = 0) (depth maxDepth : Nat) :
    Holds l.number ((c :: cs).map Token.code)
      (((Draft.ofLine l).withDepth depth maxDepth).pushCode l.number (c :: cs)) := by
  have htrim : Text.trimStart (c :: cs) = c :: cs := by
    rw [Text.trimStart, List.dropWhile_cons, hc, if_neg Bool.false_ne_true]
  rw [pushCode_withDepth]
  refine Holds.withDepth ?_ depth maxDepth
  have hlast : (Draft.ofLine l).lastLine = none := rfl
  have henter : (Draft.ofLine l).enterLine l.number =
      { Draft.ofLine l with lineStarts := [(0, l.number)] } := by
    rw [enterLine, hlast]
    rfl
  rw [Draft.pushCode, henter, hlast, if_neg (by simp), htrim, append_of_code rfl]
  refine ⟨rfl, hline, rfl, rfl, ?_⟩
  dsimp only [Draft.ofLine]
  rw [List.append_nil, List.reverse_reverse, map_cellsOf]
  rfl

end Holds

end Draft

namespace Assembly

variable {l : Line} {finished : List Statement} {d : Draft} {b : Balance} {done ts : List Token}

/-- Code with its semicolons in brackets only counts brackets until it is appended. -/
theorem feedCode_open {rest : List Char} (hdepth : d.depth = b.depth) (hrest : b.Encloses rest)
    (chunk seen : List Char) :
    ∃ maxDepth, feedCode .python l chunk seen ⟨finished, some d, none⟩ rest =
      ⟨finished, some ((d.withDepth (b.read rest).depth maxDepth).pushCode l.number chunk),
        none⟩ := by
  induction rest generalizing b d seen with
  | nil =>
    refine ⟨d.maxDepth, ?_⟩
    rw [feedCode, pushCode_of_current rfl, Balance.read_nil, ← hdepth]
    rfl
  | cons c rest ih =>
    obtain ⟨hc, hrest⟩ := Balance.encloses_cons.mp hrest
    have hcurrent : (⟨finished, some d, none⟩ : Assembly).depth = b.depth := hdepth
    rw [feedCode, hcurrent, Balance.read_cons]
    split
    next hopener =>
      rw [modifyFor_of_current rfl]
      exact ih (by rw [b.step_opener hopener, Draft.openBracket, hdepth]) hrest (c :: seen)
    next hopener =>
      split
      next hcloser =>
        rw [modifyCurrent_of_current rfl]
        exact ih (by rw [b.step_closer hcloser, Draft.closeBracket, hdepth]) hrest (c :: seen)
      next hcloser =>
        have hopener := Bool.eq_false_iff.mpr hopener
        have hcloser := Bool.eq_false_iff.mpr hcloser
        rw [hc.step_eq hopener hcloser] at hrest ⊢
        rw [hc.not_break hopener hcloser]
        exact ih hdepth hrest (c :: seen)

/-- Code that is not blank opens a statement. -/
theorem feedCode_first {rest chunk : List Char} (hdepth : b.depth = 0) (hrest : b.Encloses rest)
    (hchunk : Text.allBlank chunk = false) (seen : List Char) :
    ∃ maxDepth, feedCode .python l chunk seen ⟨finished, none, none⟩ rest =
      ⟨finished, some (((Draft.ofLine l).withDepth (b.read rest).depth maxDepth).pushCode l.number
        chunk), none⟩ := by
  induction rest generalizing b seen with
  | nil =>
    refine ⟨0, ?_⟩
    rw [feedCode, pushCode, hchunk, Balance.read_nil, hdepth]
    rfl
  | cons c rest ih =>
    obtain ⟨hc, hrest⟩ := Balance.encloses_cons.mp hrest
    have hcurrent : (⟨finished, none, none⟩ : Assembly).depth = b.depth := hdepth.symm
    rw [feedCode, hcurrent, Balance.read_cons]
    split
    next hopener =>
      refine feedCode_open (d := (Draft.ofLine l).openBracket) ?_ hrest chunk (c :: seen)
      rw [b.step_opener hopener, hdepth]
      rfl
    next hopener =>
      split
      next hcloser => exact ih (by rw [b.step_closer hcloser, hdepth]) hrest (c :: seen)
      next hcloser =>
        have hopener := Bool.eq_false_iff.mpr hopener
        have hcloser := Bool.eq_false_iff.mpr hcloser
        rw [hc.step_eq hopener hcloser] at hrest ⊢
        rw [hc.not_break hopener hcloser]
        exact ih hdepth hrest (c :: seen)

/-- The code in `seen` gets into a draft, behind what was done before, and its
brackets are counted. -/
def TakesIn (l : Line) (finished : List Statement) (done : List Token) (b : Balance) (a : Assembly)
    (seen : List Char) :
    Prop :=
  ∀ rest, ∃ d, feedSegments .python l a (cut .code seen ++ rest) =
      feedSegments .python l ⟨finished, some d, none⟩ rest ∧
      d.Holds l.number (done ++ seen.reverse.map Token.code) ∧
    d.depth = (b.read seen.reverse).depth

theorem takesIn_open {seen : List Char} (hseen : b.Encloses seen.reverse)
    (hd : d.Holds l.number done) (hdepth : d.depth = b.depth) :
    TakesIn l finished done b ⟨finished, some d, none⟩ seen := by
  intro rest
  cases seen with
  | nil => exact ⟨d, rfl, by simpa using hd, hdepth⟩
  | cons c seen =>
    obtain ⟨maxDepth, hfeed⟩ := @feedCode_open l finished d b _ hdepth hseen (c :: seen).reverse []
    refine ⟨_, congrArg (feedSegments .python l · rest) hfeed, (hd.withDepth _ maxDepth).pushCode _,
      ?_⟩
    rw [(Draft.counts_pushCode _ _ _).1]
    rfl

/-- Code that does not begin with a blank opens a draft. -/
theorem takesIn_first (hline : indentWidth l.text = 0) {seen cs : List Char} {c : Char}
    (hc : Text.isBlank c = false) (hfirst : seen.reverse = c :: cs) (hdepth : b.depth = 0)
    (hseen : b.Encloses seen.reverse) : TakesIn l finished [] b ⟨finished, none, none⟩ seen := by
  intro rest
  have hblank : Text.allBlank seen.reverse = false := allBlank_of_mem hc (by simp [hfirst])
  have hsegments : cut .code seen = [⟨.code, seen.reverse⟩] := by
    cases seen with
    | nil => contradiction
    | cons d seen => rfl
  obtain ⟨maxDepth, hfeed⟩ := @feedCode_first l finished b _ _ hdepth hseen hblank []
  have hholds := @Draft.Holds.ofLine l c cs hc hline (b.read seen.reverse).depth maxDepth
  rw [← hfirst] at hholds
  refine ⟨_, by rw [hsegments]; exact congrArg (feedSegments .python l · rest) hfeed, hholds, ?_⟩
  rw [(Draft.counts_pushCode _ _ _).1]
  rfl

/-- A draft takes in a line, if it takes in the code before its first literal. -/
theorem feedSegments_line (hopen : l.literalOpen = false) {a : Assembly} {P : List Char → Prop}
    (htakes : ∀ seen, P seen → b.Encloses seen.reverse → TakesIn l finished done b a seen)
    (hmore : ∀ seen c, P seen → P (c :: seen)) {seen : List Char} (hseen : P seen)
    (hencloses : b.Encloses (seen.reverse ++ Token.codeOf ts)) :
    ∃ d, feedSegments .python l a (segmentsFrom seen ts) = ⟨finished, some d, none⟩ ∧
      d.Holds l.number (done ++ (seen.reverse.map Token.code ++ ts)) := by
  induction ts generalizing a b P done seen with
  | nil =>
    obtain ⟨d, hfeed, hd, -⟩ := htakes seen hseen (Balance.encloses_append.mp hencloses).1 []
    refine ⟨d, ?_, by rwa [List.append_nil]⟩
    rw [List.append_nil] at hfeed
    exact hfeed
  | cons t ts ih =>
    cases t with
    | code c =>
      have hcode : seen.reverse ++ Token.codeOf (.code c :: ts) =
          (c :: seen).reverse ++ Token.codeOf ts := by
        rw [List.reverse_cons, List.append_assoc]
        rfl
      obtain ⟨d, hfeed, hd⟩ := ih htakes hmore (hmore seen c hseen) (hcode ▸ hencloses)
      refine ⟨d, hfeed, ?_⟩
      simpa using hd
    | literal cs =>
      obtain ⟨hbefore, hbehind⟩ := Balance.encloses_append.mp hencloses
      -- Behind the literal the draft is open, whatever came before it.
      obtain ⟨d, hfeed, hd, hdepth⟩ :=
        htakes seen hseen hbefore (⟨.literal, cs⟩ :: segmentsFrom [] ts)
      have hliteral : (d.pushLiteral l.number cs false).depth = (b.read seen.reverse).depth :=
        (Draft.counts_pushLiteral _ _ _ _).1.trans hdepth
      have htaken (more : List Char) (_ : True)
          (hmore : (b.read seen.reverse).Encloses more.reverse) :
          TakesIn l finished _ _ ⟨finished, some _, none⟩ more :=
        takesIn_open hmore (hd.pushLiteral cs) hliteral
      have hrest : (b.read seen.reverse).Encloses (([] : List Char).reverse ++ Token.codeOf ts) :=
        hbehind
      obtain ⟨d', hfeed', hd'⟩ :=
        ih (P := fun _ => True) htaken (fun _ _ _ => trivial) trivial hrest
      refine ⟨d', ?_, ?_⟩
      · rw [segmentsFrom, hfeed, feedSegments]
        dsimp only
        rw [modifyFor_of_current rfl, hopen, Bool.false_and]
        exact hfeed'
      · simpa using hd'

/-- What a line opens between statements. -/
theorem feedSegments_first (hopen : l.literalOpen = false) (hline : indentWidth l.text = 0)
    {c : Char} (hc : Text.isBlank c = false)
    (hencloses : ({} : Balance).Encloses (c :: Token.codeOf ts)) :
    ∃ d, feedSegments .python l ⟨finished, none, none⟩ (segmentsFrom [c] ts) =
      ⟨finished, some d, none⟩ ∧ d.Holds l.number (.code c :: ts) := by
  refine feedSegments_line (P := fun seen => ∃ cs, seen.reverse = c :: cs) hopen
    (fun seen hfirst hseen => takesIn_first hline hc hfirst.choose_spec rfl hseen) ?_
    ⟨[], rfl⟩ hencloses
  rintro seen x ⟨cs, hfirst⟩
  exact ⟨cs ++ [x], by rw [List.reverse_cons, hfirst, List.cons_append]⟩

end Assembly

/-! ### Statements -/

/-- A statement that stands on one line, at its left edge, and has these tokens. -/
structure Statement.IsRow (number : Nat) (ts : List Token) (s : Statement) : Prop where
  startLine : s.startLine = number
  indent : s.indent = 0
  lineStarts : s.lineStarts = #[(0, number)]
  tokens : s.tokens = ts

/-- Everything in the statement stands on its line. -/
theorem Statement.IsRow.lineAt {number : Nat} {ts : List Token} {s : Statement}
    (h : s.IsRow number ts) (offset : Nat) : s.lineAt offset = number := by
  have hbase : halve #[(0, number)] offset 0 1 = 0 := by
    rw [halve]
    rfl
  unfold Statement.lineAt
  rw [h.lineStarts, show (#[(0, number)] : Array (Nat × Nat)).size = 1 from rfl, hbase]
  exact if_pos (Nat.zero_le offset)

namespace Draft.Holds

variable {number : Nat} {ts : List Token} {d : Draft}

/-- The last of the code that is not settled yet is the last token. -/
theorem getLast?_eq (h : Holds number ts d) {x : Cell} {cells : List Cell}
    (htail : d.tail = x :: cells) : ts.getLast? = some (.code x.char) := by
  rw [← h.tokens, htail, List.reverse_cons, List.map_append, ← List.append_assoc,
    List.map_singleton, List.getLast?_concat]

theorem dropWhile_tail (h : Holds number ts d) (hline : Token.IsLine ts) :
    d.tail.dropWhile Cell.isBlank = d.tail := by
  cases htail : d.tail with
  | nil => rfl
  | cons x cells =>
    have hx := hline.last
    rw [h.getLast?_eq htail] at hx
    rw [List.dropWhile_cons, show x.isBlank = false from hx, if_neg Bool.false_ne_true]

/-- A line is not continued. -/
theorem withoutContinuation?_eq_none (h : Holds number ts d) (hline : Token.IsLine ts) :
    d.withoutContinuation? = none := by
  rw [withoutContinuation?, h.dropWhile_tail hline]
  split
  · rfl
  next x cells htail =>
    rw [if_neg]
    intro hslash
    exact hline.ends (beq_iff_eq.mp hslash ▸ h.getLast?_eq htail)

theorem trimCode_eq (h : Holds number ts d) (hline : Token.IsLine ts) : d.trimCode = d := by
  have hdrop := h.dropWhile_tail hline
  have htaken : d.tail.takeWhile Cell.isBlank = [] := by
    have hboth := List.takeWhile_append_dropWhile (p := Cell.isBlank) (l := d.tail)
    rw [hdrop] at hboth
    simpa using hboth
  rw [trimCode, h.openLiteral, htaken]
  obtain ⟨_, _, _, _, _, openLiteral, _⟩ := d
  obtain rfl : openLiteral = none := h.openLiteral
  dsimp only at hdrop ⊢
  rw [hdrop]
  rfl

/-- A draft that holds a line is finished as a statement with its tokens. -/
theorem exists_finish (h : Holds number ts d) (hline : Token.IsLine ts) :
    ∃ s, d.finish = some s ∧ s.IsRow number ts := by
  obtain ⟨c, rest, hhead, hc⟩ := hline.head
  have htrim := h.trimCode_eq hline
  have hpieces : d.trimCode.pieces = d.settled.reverse ++ [.code d.tail.reverse] := by
    rw [htrim, pieces, h.openLiteral, Option.getD_none, List.reverse_nil, List.append_nil]
  have hcells : d.trimCode.pieces.flatMap Piece.tokens = ts := by
    rw [hpieces, List.flatMap_append, List.flatMap_singleton]
    exact h.tokens
  -- The first token is no white space, so there is something to finish.
  have hsome : ¬(d.trimCode.pieces.all fun p => p.cells.all Cell.isBlank) = true := by
    intro hall
    have hmem : Token.code c ∈ d.trimCode.pieces.flatMap Piece.tokens := by
      rw [hcells, hhead]
      exact List.mem_cons_self
    obtain ⟨p, hp, hcode⟩ := List.mem_flatMap.mp hmem
    have hp := List.all_eq_true.mp hall p hp
    cases p with
    | literal cells => simp [Piece.tokens] at hcode
    | code cells =>
      obtain ⟨x, hx, hxc⟩ := List.mem_map.mp hcode
      have hx := List.all_eq_true.mp hp x hx
      rw [Cell.isBlank, Token.code.inj hxc, hc] at hx
      contradiction
  refine ⟨_, if_neg hsome, ?_, ?_, ?_, hcells⟩
  · rw [htrim]
    exact h.startLine
  · rw [htrim]
    exact h.indent
  · rw [htrim, h.lineStarts]
    rfl

end Draft.Holds

/-- A line is one statement. -/
theorem Assembly.feedLine_line {ts : List Token} (h : Token.IsLine ts) (number : Nat)
    (finished : List Statement) :
    ∃ s, feedLine .python ⟨finished, none, none⟩
      (.ofSegments number .code .code (segmentsFrom [] ts)) = ⟨s :: finished, none, none⟩ ∧
      s.IsRow number ts := by
  obtain ⟨c, rest, rfl, hc⟩ := h.head
  have hsegments : segmentsFrom [] (.code c :: rest) = segmentsFrom [c] rest := rfl
  rw [hsegments]
  -- The first segment has the first character, so the line has content.
  have hcontent : (segmentsFrom [c] rest).any Segment.hasContent = true := by
    refine Decidable.of_not_not fun hnone => ?_
    have hblank := allBlank_codeOf (Bool.eq_false_iff.mpr hnone)
    rw [Token.codeOf_segmentsFrom, allBlank_of_mem hc (by simp)] at hblank
    contradiction
  have hskip : ((Line.ofSegments number .code .code (segmentsFrom [c] rest)).tag == .comment ||
      (⟨finished, none, none⟩ : Assembly).current.isNone &&
        !(Line.ofSegments number .code .code (segmentsFrom [c] rest)).hasContent) = false := by
    have htag : (Line.ofSegments number .code .code (segmentsFrom [c] rest)).tag = .code := by
      rw [Line.ofSegments]
      dsimp only
      rw [hcontent]
      rfl
    rw [htag, show (Line.ofSegments number .code .code (segmentsFrom [c] rest)).hasContent =
      true from hcontent]
    rfl
  have hindent : indentWidth (Line.ofSegments number .code .code (segmentsFrom [c] rest)).text =
      0 := by
    have htext : (Line.ofSegments number .code .code (segmentsFrom [c] rest)).text =
        c :: textOf rest :=
      Token.chars_segmentsFrom
    rw [htext, indentWidth, hc, if_neg Bool.false_ne_true]
  obtain ⟨d, hfeed, hd⟩ :=
    @feedSegments_first (.ofSegments number .code .code (segmentsFrom [c] rest)) finished rest
    rfl hindent c hc h.encloses
  have hdepth : d.depth = 0 := by
    have hstart : (⟨finished, none, none⟩ : Assembly).Counts ({} : Balance).depth :=
      ⟨rfl, fun _ h => by contradiction, fun h => by contradiction⟩
    have hcounts :=
      @Assembly.Counts.feedSegments .python (.ofSegments number .code .code (segmentsFrom [c] rest))
        _ _ hstart (segmentsFrom [c] rest)
    rw [hfeed, Token.codeOf_segmentsFrom] at hcounts
    exact hcounts.depth.trans h.balanced
  obtain ⟨s, hfinish, hs⟩ := hd.exists_finish h
  have hopen : d.isOpen = false := by
    rw [Draft.isOpen, hdepth, hd.openLiteral]
    rfl
  refine ⟨s, ?_, hs⟩
  have hsegments : (Line.ofSegments number .code .code (segmentsFrom [c] rest)).segments =
      segmentsFrom [c] rest := rfl
  rw [feedLine, hskip, if_neg Bool.false_ne_true, hsegments, hfeed, endLine]
  dsimp only
  rw [hopen, if_neg Bool.false_ne_true, hd.withoutContinuation?_eq_none h]
  dsimp only
  rw [emit, hfinish]

/-- The text of rows, a line for each. -/
def rowsText (rows : List (List Token)) : List Char := rows.flatMap fun ts => textOf ts ++ ['\n']

theorem Token.IsLexed.not_mem_chars {t : Token} (h : t.IsLexed) : '\n' ∉ t.chars := by
  cases t with
  | code c => exact fun hmem => h.2 (List.mem_singleton.mp hmem ▸ by simp)
  | literal cs =>
    obtain ⟨delimiter, interior, -, hquotes, -, hinterior, rfl⟩ := h
    have hdelimiter : '\n' ∉ delimiter := fun hmem => by
      have := hquotes _ hmem
      contradiction
    rw [chars, List.mem_append, List.mem_append]
    rintro (hmem | hmem | hmem)
    · exact hdelimiter hmem
    · exact hinterior hmem
    · exact hdelimiter hmem

namespace Token.IsLine

variable {ts : List Token} (h : IsLine ts)

include h

theorem not_mem_textOf : '\n' ∉ textOf ts := fun hmem => by
  obtain ⟨t, ht, hc⟩ := List.mem_flatMap.mp hmem
  exact (h.lexed t ht).not_mem_chars hc

/-- The text of a line is one physical line. -/
theorem linesFrom (more : List Char) :
    physicalLines (textOf ts ++ '\n' :: more) = textOf ts :: physicalLines more := by
  have hreturn : (textOf ts).getLast? ≠ some '\r' := by
    have hlast := h.last
    obtain ⟨c, rest, hhead, -⟩ := h.head
    obtain ⟨init, t, rfl⟩ : ∃ init t, ts = init ++ [t] :=
      ⟨_, _, (List.dropLast_append_getLast (by rw [hhead]; exact List.cons_ne_nil _ _)).symm⟩
    have ht := h.lexed t (by simp)
    rw [List.getLast?_concat] at hlast
    rw [textOf_append, textOf_cons, textOf_nil, List.append_nil]
    cases t with
    | code c =>
      rw [chars, List.getLast?_concat]
      intro heq
      obtain rfl := Option.some.inj heq
      contradiction
    | literal cs =>
      obtain ⟨delimiter, interior, hdelimits, hquotes, -, -, rfl⟩ := ht
      have hend : ∃ front q, delimiter = front ++ [q] := by
        cases hdelimits with
        | @once q => exact ⟨[], q, rfl⟩
        | @thrice q => exact ⟨[q, q], q, rfl⟩
      obtain ⟨front, q, rfl⟩ := hend
      rw [chars, ← List.append_assoc interior, ← List.append_assoc, ← List.append_assoc,
        List.getLast?_concat]
      intro heq
      obtain rfl := Option.some.inj heq
      have hquote := hquotes '\r' (by simp)
      contradiction
  rw [physicalLines, linesFrom_line h.not_mem_textOf, List.reverse_nil, List.nil_append, chomp,
    if_neg hreturn]

/-- A line is one statement. -/
theorem exists_statement :
    ∃ s, (readStatements .python (textOf ts)).statements = [s] ∧ s.IsRow 1 ts := by
  obtain ⟨s, hfeed, hs⟩ := Assembly.feedLine_line h 1 []
  have htext : textOf ts ≠ [] := by
    obtain ⟨c, rest, rfl, -⟩ := h.head
    exact List.cons_ne_nil _ _
  have hlines : physicalLines (textOf ts) = [textOf ts] := linesFrom_last h.not_mem_textOf htext
  have hclassify : classify .python (textOf ts) =
      ⟨[.ofSegments 1 .code .code (segmentsFrom [] ts)], none⟩ := by
    rw [classify, hlines, scanLines, scanFrom_line h.lexed h.distinct]
    rfl
  refine ⟨s, ?_, hs⟩
  rw [readStatements, hclassify, LineTable.assemble]
  dsimp only [List.foldl_cons, List.foldl_nil]
  rw [show ({} : Assembly) = ⟨[], none, none⟩ from rfl, hfeed]
  rfl

end Token.IsLine

theorem physicalLines_rowsText {rows : List (List Token)} (h : ∀ ts ∈ rows, Token.IsRow ts) :
    physicalLines (rowsText rows) = rows.map textOf := by
  induction rows with
  | nil => rfl
  | cons ts rows ih =>
    obtain ⟨hts, hrows⟩ := List.forall_mem_cons.mp h
    rw [rowsText, List.flatMap_cons, List.append_assoc, List.singleton_append, hts.line.linesFrom,
      List.map_cons, ← ih hrows]
    rfl

/-- The lines of rows, the first one with number `number`. -/
def rowLines (number : Nat) : List (List Token) → List Line
  | [] => []
  | ts :: rows => .ofSegments number .code .code (segmentsFrom [] ts) :: rowLines (number + 1) rows

theorem scanLines_rows {rows : List (List Token)} (h : ∀ ts ∈ rows, Token.IsRow ts) (number : Nat) :
    scanLines .python number .code (rows.map textOf) = (rowLines number rows, .code) := by
  induction rows generalizing number with
  | nil => rfl
  | cons ts rows ih =>
    obtain ⟨hts, hrows⟩ := List.forall_mem_cons.mp h
    have hscan := scanFrom_line hts.line.lexed hts.line.distinct number []
    rw [List.map_cons, scanLines, hscan]
    dsimp only
    rw [ih hrows]
    rfl

theorem foldl_feedLine_rows {rows : List (List Token)} (h : ∀ ts ∈ rows, Token.IsRow ts)
    (number : Nat) (finished : List Statement) :
    ∃ ss, (rowLines number rows).foldl (Assembly.feedLine .python) ⟨finished, none, none⟩ =
        ⟨ss.reverse ++ finished, none, none⟩ ∧
      List.Forall₂ (fun r s => Statement.IsRow r.2 r.1 s) (rows.zipIdx number) ss := by
  induction rows generalizing number finished with
  | nil => exact ⟨[], rfl, .nil⟩
  | cons ts rows ih =>
    obtain ⟨hts, hrows⟩ := List.forall_mem_cons.mp h
    obtain ⟨s, hfeed, hs⟩ := Assembly.feedLine_line hts.line number finished
    obtain ⟨ss, hfold, hss⟩ := ih hrows (number + 1) (s :: finished)
    refine ⟨s :: ss, ?_, .cons hs hss⟩
    rw [rowLines, List.foldl_cons, hfeed, hfold, List.reverse_cons, List.append_assoc,
      List.singleton_append]

/-- The statements of rows are the rows, in order. -/
theorem readStatements_rows {rows : List (List Token)} (h : ∀ ts ∈ rows, Token.IsRow ts) :
    List.Forall₂ (fun r s => Statement.IsRow r.2 r.1 s) (rows.zipIdx 1)
      (readStatements .python (rowsText rows)).statements := by
  obtain ⟨ss, hfold, hss⟩ := foldl_feedLine_rows h 1 []
  have hclassify : classify .python (rowsText rows) = ⟨rowLines 1 rows, none⟩ := by
    rw [classify, physicalLines_rowsText h, scanLines_rows h]
    rfl
  have hstatements : (readStatements .python (rowsText rows)).statements = ss := by
    rw [readStatements, hclassify, LineTable.assemble]
    dsimp only
    rw [show ({} : Assembly) = ⟨[], none, none⟩ from rfl, hfold, List.append_nil]
    exact List.reverse_reverse ss
  rwa [hstatements]

end EndpointCensus
