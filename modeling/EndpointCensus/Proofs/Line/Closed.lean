import EndpointCensus.Proofs.Line.Literal

/-!
Closed literals. Where no line of a text ends inside of a literal, every literal stands on one line,
between a delimiter and the first place behind it where the same delimiter is not hidden by a
backslash. Code has no delimiters then: one that stands in code would have opened a literal.
-/

namespace EndpointCensus

/-! ### Literals as they are written -/

inductive Delimits : List Char → Prop
  | once {q : Char} (hq : isDelimiter q = true) : Delimits [q]
  | thrice {q : Char} (hq : isQuote q = true) : Delimits (List.replicate 3 q)

/-- Text of a literal that does not close it, with `ahead` behind it: a backslash goes with the
character after it, and at no other place the delimiter begins. -/
inductive Interior (delimiter ahead : List Char) : List Char → Prop
  | nil : Interior delimiter ahead []
  | escape (c : Char) {cs : List Char} (hcs : Interior delimiter ahead cs) :
    Interior delimiter ahead ('\\' :: c :: cs)
  | plain {c : Char} {cs : List Char} (hc : c ≠ '\\') (hopen : ¬delimiter <+: c :: (cs ++ ahead))
      (hcs : Interior delimiter ahead cs) : Interior delimiter ahead (c :: cs)

/-- A literal from its delimiter up to the first place where it closes. -/
def IsClosed (cs : List Char) : Prop :=
  ∃ delimiter interior, Delimits delimiter ∧ Interior delimiter delimiter interior ∧
    cs = delimiter ++ (interior ++ delimiter)

namespace Interior

variable {delimiter ahead cs : List Char}

/-- Text without backslashes in which the delimiter does not occur. -/
theorem of_plain {q : Char} (hslash : '\\' ∉ cs) (hquote : q ∉ cs) : Interior [q] ahead cs := by
  induction cs with
  | nil => exact .nil
  | cons c cs ih =>
    obtain ⟨hslash, hslashes⟩ := not_or.mp (mt List.mem_cons.mpr hslash)
    obtain ⟨hquote, hquotes⟩ := not_or.mp (mt List.mem_cons.mpr hquote)
    exact .plain (fun heq => hslash heq.symm) (fun hopens =>
      hquote (List.cons_prefix_cons.mp hopens).1) (ih hslashes hquotes)

/-- What stands behind the delimiter does not matter. -/
theorem of_append {more : List Char} (h : Interior delimiter (ahead ++ more) cs) :
    Interior delimiter ahead cs := by
  induction h with
  | nil => exact .nil
  | escape c _ ih => exact .escape c ih
  | @plain c cs hc hopen _ ih =>
    refine .plain hc (fun hprefix => hopen ?_) ih
    apply hprefix.trans
    rw [← List.append_assoc, ← List.cons_append]
    exact List.prefix_append _ _

/-- Only a backslash lets the delimiter stand in a literal. -/
theorem mem_of_infix (h : Interior delimiter ahead cs) (hne : delimiter ≠ [])
    ( hinfix : delimiter <:+: cs) : '\\' ∈ cs := by
  induction h with
  | nil => exact absurd (List.infix_nil.mp hinfix) hne
  | escape => exact List.mem_cons_self
  | @plain c cs _ hopen _ ih =>
    rcases List.infix_cons_iff.mp hinfix with hprefix | hrest
    · refine absurd ( hprefix.trans ?_) hopen
      rw [← List.cons_append]
      exact List.prefix_append _ _
    · exact List.mem_cons_of_mem c (ih hrest)

theorem head?_ne {q : Char} (hq : isDelimiter q = true) (h : Interior [q] ahead cs) :
    cs.head? ≠ some q := by
  intro hhead
  cases h with
  | nil => contradiction
  | escape =>
    obtain rfl : '\\' = q := Option.some.inj hhead
    contradiction
  | @plain c cs _ hopen =>
    obtain rfl : c = q := Option.some.inj hhead
    exact hopen (List.prefix_append [c] (cs ++ ahead))

end Interior

/-! ### Scanning a literal -/

/-- The delimiter of the literal that the mode is inside of. -/
def Mode.delimiter? : Mode → Option (List Char)
  | quoted q => some [q]
  | triple q _ => some (List.replicate 3 q)
  | template _ => some [backtick]
  | _ => none

namespace Mode

variable {mode : Mode} {delimiter : List Char}

theorem kind_of_delimiter? (h : mode.delimiter? = some delimiter) : mode.kind = .literal := by
  cases mode <;> first | rfl | contradiction

/-- In a literal only backslashes and its delimiter count. -/
theorem lexeme_of_delimiter? (h : mode.delimiter? = some delimiter) (language : Language)
    (number : Nat) (c : Char) (rest : List Char) :
    lexeme language number c rest mode =
      if c = '\\' then .escape else if delimiter <+: c :: rest then .closes delimiter.length
        else .plain := by
  cases mode with
  | code | remark | block => contradiction
  | quoted q =>
    obtain rfl : [q] = delimiter := Option.some.inj h
    have hstart : [q] <+: c :: rest ↔ c = q := by
      rw [List.cons_prefix_cons]
      exact ⟨fun h => h.1.symm, fun h => ⟨h.symm, List.nil_prefix⟩⟩
    simp only [lexeme, beq_iff_eq, hstart, List.length_singleton]
  | triple q since =>
    obtain rfl : List.replicate 3 q = delimiter := Option.some.inj h
    have hstart : List.replicate 3 q <+: c :: rest ↔ (c == q && [q, q].isPrefixOf rest) = true := by
      rw [Bool.and_eq_true, beq_iff_eq, List.isPrefixOf_iff_prefix, List.replicate_succ,
        List.cons_prefix_cons]
      exact ⟨fun h => ⟨h.1.symm, h.2⟩, fun h => ⟨h.1.symm, h.2⟩⟩
    simp only [lexeme, beq_iff_eq, hstart, List.length_replicate]
  | template since =>
    obtain rfl : [backtick] = delimiter := Option.some.inj h
    have hstart : [backtick] <+: c :: rest ↔ c = backtick := by
      rw [List.cons_prefix_cons]
      exact ⟨fun h => h.1.symm, fun h => ⟨h.symm, List.nil_prefix⟩⟩
    simp only [lexeme, beq_iff_eq, hstart, List.length_singleton]

end Mode

namespace Cursor

variable {language : Language} {number : Nat} {mode : Mode} {delimiter seen : List Char}

theorem read_cons (k : Cursor) (c : Char) (cs : List Char) :
    k.read language number [] (c :: cs) =
      ((k.step language number c cs).1 ++ ((k.step language number c cs).2.read language number
        [] cs).1, ((k.step language number c cs).2.read language number [] cs).2) := by
  rw [Cursor.read, List.append_nil]

/-- Characters of a marker that closes nothing. -/
theorem read_passing (xs rest : List Char) :
    ({ mode, seen, passing := xs.length } : Cursor).read language number [] (xs ++ rest) =
      ({ mode, seen := xs.reverse ++ seen } : Cursor).read language number [] rest := by
  induction xs generalizing seen with
  | nil => rfl
  | cons c xs ih =>
    have hstep : ({ mode, seen, passing := xs.length + 1 } : Cursor).step language number c
        (xs ++ rest) = ([], { mode, seen := c :: seen, passing := xs.length }) := by
      simp [step, take]
    rw [List.cons_append, List.length_cons, read_cons, hstep, List.nil_append, ih]
    simp

/-- The characters of the marker that ends a literal, behind the first of them. -/
theorem read_closing (hkind : mode.kind = .literal) {xs : List Char} (hne : xs ≠ [])
    (rest : List Char) :
    ({ mode, seen, passing := xs.length, closing := true } : Cursor).read language number []
      (xs ++ rest) =
        (⟨.literal, seen.reverse ++ xs⟩ :: (({ mode := .code } : Cursor).read language number
          [] rest).1, (({ mode := .code } : Cursor).read language number [] rest).2) := by
  induction xs generalizing seen with
  | nil => exact absurd rfl hne
  | cons c xs ih =>
    rw [List.cons_append, List.length_cons, read_cons]
    cases xs with
    | nil =>
      have hstep : ({ mode, seen, passing := 1, closing := true } : Cursor).step language number c
          ([] ++ rest) = ([⟨.literal, (c :: seen).reverse⟩], { mode := .code }) := by
        simp [step, take, cut, hkind]
      rw [List.length_nil, hstep, List.reverse_cons]
      rfl
    | cons d xs =>
      have hstep : ({ mode, seen, passing := (d :: xs).length + 1, closing := true } : Cursor).step
          language number c (d :: xs ++ rest) =
            ([], { mode, seen := c :: seen, passing := (d :: xs).length, closing := true }) := by
        simp [step, take]
      rw [hstep, List.nil_append, ih (List.cons_ne_nil d xs), List.reverse_cons, List.append_assoc]
      rfl

theorem read_delimiter (hmode : mode.delimiter? = some delimiter) (hdelimits : Delimits delimiter)
    (rest : List Char) : ({ mode, seen } : Cursor).read language number [] (delimiter ++ rest) =
      (⟨.literal, seen.reverse ++ delimiter⟩ ::
        (({ mode := .code } : Cursor).read language number [] rest).1,
          (({ mode := .code } : Cursor).read language number [] rest).2) := by
  have hkind := Mode.kind_of_delimiter? hmode
  have hlexeme {c : Char} (hc : c ≠ '\\') (cs : List Char) (h : delimiter <+: c :: cs) :
      lexeme language number c cs mode = .closes delimiter.length := by
    rw [Mode.lexeme_of_delimiter? hmode, if_neg hc, if_pos h]
  cases hdelimits with
  | @once q hq =>
    have hne : q ≠ '\\' := by
      rintro rfl
      contradiction
    have hstep : ({ mode, seen } : Cursor).step language number q rest =
        ([⟨.literal, (q :: seen).reverse⟩], { mode := .code }) := by
      have hclose := hlexeme hne rest (List.prefix_append [q] rest)
      simp [step, hclose, take, cut, hkind]
    rw [List.singleton_append, read_cons, hstep, List.reverse_cons]
    rfl
  | @thrice q hq =>
    have hne : q ≠ '\\' := by
      rintro rfl
      contradiction
    have hstep : ({ mode, seen } : Cursor).step language number q ([q, q] ++ rest) =
        ([], { mode, seen := q :: seen, passing := [q, q].length, closing := true }) := by
      have hclose := hlexeme hne ([q, q] ++ rest) (List.prefix_append [q, q, q] rest)
      rw [step, hclose]
      rfl
    rw [show List.replicate 3 q ++ rest = q :: ([q, q] ++ rest) from rfl, read_cons, hstep,
      List.nil_append, read_closing hkind (List.cons_ne_nil q [q]), List.reverse_cons,
      List.append_assoc]
    rfl

/-- A literal that does not reach to the end of the line is closed on it, and
code goes on behind it. -/
theorem read_literal (hmode : mode.delimiter? = some delimiter) (hdelimits : Delimits delimiter)
    (cs : List Char)
    (hend : (({ mode, seen } : Cursor).read language number [] cs).2.mode.kind ≠ .literal) :
    ∃ interior rest, cs = interior ++ (delimiter ++ rest) ∧
      Interior delimiter (delimiter ++ rest) interior ∧
      ({ mode, seen } : Cursor).read language number [] cs =
        (⟨.literal, seen.reverse ++ (interior ++ delimiter)⟩ ::
            (({ mode := .code } : Cursor).read language number [] rest).1,
          (({ mode := .code } : Cursor).read language number [] rest).2) := by
  induction hlength : cs.length using Nat.strongRecOn generalizing cs seen with | ind n ih =>
  subst hlength
  cases cs with
  | nil => exact absurd (Mode.kind_of_delimiter? hmode) hend
  | cons c cs =>
    have hlexeme := Mode.lexeme_of_delimiter? hmode language number c cs
    by_cases hescape : c = '\\'
    · have hstep : ({ mode, seen } : Cursor).step language number c cs =
          ([], { mode, seen := c :: seen, passing := 1 }) := by
        rw [if_pos hescape] at hlexeme
        simp [step, hlexeme, take]
      rw [read_cons, hstep] at hend ⊢
      cases cs with
      | nil => exact absurd (Mode.kind_of_delimiter? hmode) hend
      | cons d cs =>
        have hpass := @read_passing language number mode (c :: seen) [d] cs
        rw [List.length_singleton, List.singleton_append] at hpass
        rw [hpass] at hend ⊢
        obtain ⟨interior, rest, rfl, hinterior, hread⟩ :=
          ih cs.length (Nat.lt_succ_of_lt (Nat.lt_succ_self _)) cs hend rfl
        refine ⟨c :: d :: interior, rest, rfl, ?_, ?_⟩
        · rw [hescape]
          exact .escape d hinterior
        · rw [hread]
          simp
    · rw [if_neg hescape] at hlexeme
      by_cases hopen : delimiter <+: c :: cs
      · obtain ⟨rest, hrest⟩ := hopen
        refine ⟨[], rest, hrest.symm, .nil, ?_⟩
        rw [← hrest, read_delimiter hmode hdelimits]
        rfl
      · have hstep : ({ mode, seen } : Cursor).step language number c cs =
            ([], { mode, seen := c :: seen }) := by
          rw [if_neg hopen] at hlexeme
          simp [step, hlexeme, take]
        rw [read_cons, hstep] at hend ⊢
        obtain ⟨interior, rest, rfl, hinterior, hread⟩ := ih cs.length (by simp) cs hend rfl
        refine ⟨c :: interior, rest, rfl, .plain hescape hopen hinterior, ?_⟩
        rw [hread]
        simp

end Cursor

/-! ### Lines -/

/-- A character that opens a literal wherever it stands in code. -/
def Language.opensLiteral : Language → Char → Bool
  | python => isQuote
  | script => isDelimiter

/-- A literal is closed, and code has no delimiters. -/
def Segment.Clean (language : Language) (s : Segment) : Prop :=
  match s.kind with
  | .code => ∀ c ∈ s.chars, language.opensLiteral c = false
  | .literal => IsClosed s.chars
  | .comment => True

namespace Cursor

variable {language : Language} {number : Nat} {k : Cursor} {c : Char} {rest : List Char}

/-- The cursor is outside of literals, and the code it has seen has no delimiters. -/
structure Outside (language : Language) (k : Cursor) : Prop where
  kind : k.mode.kind ≠ .literal
  passing : k.mode = .code → k.passing = 0
  seen : k.mode = .code → ∀ c ∈ k.seen, language.opensLiteral c = false

theorem Outside.cut (h : k.Outside language) : ∀ s ∈ cut k.mode.kind k.seen, s.Clean language := by
  intro s hs
  unfold EndpointCensus.cut at hs
  split at hs
  · exact absurd hs List.not_mem_nil
  · rw [List.mem_singleton.mp hs]
    unfold Segment.Clean
    cases hmode : k.mode with
    | code => exact fun c hc => h.seen hmode c (List.mem_reverse.mp hc)
    | remark | block => trivial
    | _ =>
      have hkind := h.kind
      rw [hmode] at hkind
      exact absurd rfl hkind

theorem outside_code (language : Language) : ({ mode := .code } : Cursor).Outside language :=
  ⟨by simp [Mode.kind], fun _ => rfl, fun _ _ hc => absurd hc List.not_mem_nil⟩

/-- What a character that is no delimiter does outside of literals. -/
theorem Outside.take (h : k.Outside language) {left : Nat} (hleft : k.mode = .code → left = 0)
    (hc : k.mode = .code → language.opensLiteral c = false) (closing : Bool) :
    (∀ s ∈ (k.take c left closing).1, s.Clean language) ∧
    (k.take c left closing).2.Outside language := by
  have hpushed : ({ k with seen := c :: k.seen, passing := left, closing } : Cursor).Outside
      language := by
    refine ⟨h.kind, hleft, fun hmode d hd => ?_⟩
    rcases List.mem_cons.mp hd with rfl | hd
    · exact hc hmode
    · exact h.seen hmode d hd
  unfold Cursor.take
  split
  · exact ⟨hpushed.cut, outside_code language⟩
  · exact ⟨fun s hs => absurd hs List.not_mem_nil, hpushed⟩

theorem opensLiteral_of_plain (h : opening language number c rest = .plain) :
    language.opensLiteral c = false := by
  unfold opening at h
  cases language with
  | python =>
    dsimp only at h
    repeat' split at h
    all_goals first | contradiction | (exact Bool.eq_false_iff.mpr ‹_›)
  | script =>
    dsimp only at h
    repeat' split at h
    all_goals first | contradiction | skip
    next hquote htick =>
      unfold Language.opensLiteral isDelimiter
      exact Bool.or_eq_false_iff.mpr ⟨Bool.eq_false_iff.mpr hquote, Bool.eq_false_iff.mpr htick⟩

/-- A marker outside of literals opens one, or the cursor stays outside. -/
theorem Outside.step (h : k.Outside language) (number : Nat) (c : Char) (rest : List Char) :
    ((∀ s ∈ (k.step language number c rest).1, s.Clean language) ∧
        (k.step language number c rest).2.Outside language) ∨
      ∃ mode delimiter more, mode.delimiter? = some delimiter ∧ Delimits delimiter ∧
        c :: rest = delimiter ++ more ∧ k.step language number c rest =
          (EndpointCensus.cut k.mode.kind k.seen,
            { mode, seen := [c], passing := delimiter.length - 1 }) := by
  unfold Cursor.step
  split
  · next left hpassing =>
    have hmode : k.mode ≠ .code := fun hmode => by
      rw [h.passing hmode] at hpassing
      contradiction
    exact .inl (h.take (absurd · hmode) (absurd · hmode) _)
  · next hpassing =>
    split
    · next hlexeme =>
      refine .inl (h.take (fun _ => rfl) (fun hmode => ?_) _)
      rw [hmode] at hlexeme
      exact opensLiteral_of_plain hlexeme
    · next hlexeme =>
      have hmode := ne_code_of_lexeme hlexeme (by simp) (by simp)
      exact .inl (h.take (absurd · hmode) (absurd · hmode) _)
    · next hlexeme =>
      have hmode := ne_code_of_lexeme hlexeme (by simp) (by simp)
      exact .inl (h.take (absurd · hmode) (absurd · hmode) _)
    · next mode size hlexeme =>
      cases opens_of_opening (opening_of_lexeme hlexeme) with
      | remark | block => exact .inl ⟨h.cut, ⟨by simp [Mode.kind], by simp, by simp⟩⟩
      | quoted hquote => exact .inr ⟨_, _, rest, rfl, .once (isDelimiter_of_isQuote hquote), rfl, rfl⟩
      | triple hquote hbegins =>
        obtain ⟨more, rfl⟩ := hbegins
        exact .inr ⟨_, _, more, rfl, .thrice hquote, rfl, rfl⟩
      | template htick =>
        subst htick
        exact .inr ⟨_, _, rest, rfl, .once rfl, rfl, rfl⟩

/-- On a line that ends outside of literals all literals are closed, and code has no delimiters. -/
theorem Outside.read (h : k.Outside language) (cs : List Char)
    (hend : (k.read language number [] cs).2.mode.kind ≠ .literal) :
    (∀ s ∈ (k.read language number [] cs).1, s.Clean language) ∧
    (k.read language number [] cs).2.Outside language := by
  induction hlength : cs.length using Nat.strongRecOn generalizing cs k with | ind n ih =>
  subst hlength
  cases cs with
  | nil => exact ⟨fun s hs => absurd hs List.not_mem_nil, h⟩
  | cons c cs =>
    rcases h.step number c cs with ⟨hclean, hnext⟩ | ⟨mode, delimiter, more, hmode, hdelimits, hcs,
      hstep⟩
    · rw [read_cons] at hend ⊢
      obtain ⟨hrest, hlast⟩ := ih cs.length (by simp) hnext cs hend rfl
      refine ⟨fun s hs => ?_, hlast⟩
      exact (List.mem_append.mp hs).elim (hclean s) (hrest s)
    · obtain ⟨marker, rfl⟩ : ∃ marker, delimiter = c :: marker := by
        cases hdelimits with
        | once => exact ⟨[], by rw [(List.cons.inj hcs).1]⟩
        | thrice => exact ⟨List.replicate 2 c, by rw [(List.cons.inj hcs).1]; rfl⟩
      obtain rfl : cs = marker ++ more := (List.cons.inj hcs).2
      rw [read_cons, hstep] at hend ⊢
      rw [show (c :: marker).length - 1 = marker.length from rfl, read_passing] at hend ⊢
      obtain ⟨interior, rest, rfl, hinterior, hread⟩ := read_literal hmode hdelimits more hend
      rw [hread] at hend ⊢
      obtain ⟨hrest, hlast⟩ := ih rest.length (by simp; omega) (outside_code language) rest hend rfl
      refine ⟨fun s hs => ?_, hlast⟩
      rcases List.mem_append.mp hs with hs | hs
      · exact h.cut s hs
      · rcases List.mem_cons.mp hs with rfl | hs
        · exact ⟨c :: marker, interior, hdelimits, hinterior.of_append, by simp⟩
        · exact hrest s hs

end Cursor

/-- No line ends inside of a literal, the first one being entered in `mode`. -/
def ClosesLiterals (language : Language) : Nat → Mode → List (List Char) → Prop
  | _, _, [] => True
  | number, mode, cs :: rest =>
    (({ mode } : Cursor).read language number [] cs).2.mode.kind ≠ .literal ∧
      ClosesLiterals language (number + 1) (scanFrom language number { mode } cs).2 rest

instance ClosesLiterals.decide (language : Language) :
    (number : Nat) → (mode : Mode) → (texts : List (List Char)) →
    Decidable (ClosesLiterals language number mode texts)
  | _, _, [] => inferInstanceAs (Decidable True)
  | number, mode, cs :: rest =>
    have := decide language (number + 1) (scanFrom language number { mode } cs).2 rest
    inferInstanceAs (Decidable (_ ∧ _))

/-- Lines that all end outside of literals leave none open, and their segments are clean. -/
theorem clean_scanLines {language : Language} {number : Nat} {mode : Mode}
    {texts : List (List Char)} (h : ClosesLiterals language number mode texts)
    (hmode : mode.kind ≠ .literal) {l : Line} (hl : l ∈ (scanLines language number mode texts).1) :
    l.literalOpen = false ∧ ∀ s ∈ l.segments, s.Clean language := by
  induction texts generalizing number mode with
  | nil => exact absurd hl List.not_mem_nil
  | cons cs rest ih =>
    obtain ⟨hend, hrest⟩ := h
    have hstart : ({ mode } : Cursor).Outside language :=
      ⟨hmode, fun _ => rfl, fun _ _ hc => absurd hc List.not_mem_nil⟩
    obtain ⟨hsegments, hlast⟩ := hstart.read cs hend
    have hnext : (scanFrom language number { mode } cs).2.kind ≠ .literal := by
      rw [scanFrom_eq_read]
      dsimp only
      cases hm : (({ mode } : Cursor).read language number [] cs).2.mode <;> rw [hm] at hend <;>
        first | exact absurd rfl hend | simp [Mode.nextLine, Mode.kind]
    rcases List.mem_cons.mp hl with rfl | hl
    · refine ⟨?_, fun s hs => ?_⟩
      · have hopen : (scanFrom language number { mode } cs).2.isOpenLiteral = false := by
          cases hm : (scanFrom language number { mode } cs).2 <;> rw [hm] at hnext <;>
            first | rfl | exact absurd rfl hnext
        exact hopen
      · have hs : s ∈ (scanFrom language number { mode } cs).1 := hs
        rw [scanFrom_eq_read] at hs
        exact (List.mem_append.mp hs).elim (hsegments s) (hlast.cut s)
    · exact ih hrest hnext hl

/-- Every literal of the text is closed on the line it begins on. -/
def LiteralsClose (language : Language) (cs : List Char) : Prop :=
  ClosesLiterals language 1 .code (physicalLines cs)

instance (language : Language) (cs : List Char) : Decidable (LiteralsClose language cs) :=
  inferInstanceAs (Decidable (ClosesLiterals ..))

theorem LiteralsClose.clean {language : Language} {cs : List Char} (h : LiteralsClose language cs)
    {l : Line} (hl : l ∈ (classify language cs).lines) :
    l.literalOpen = false ∧ ∀ s ∈ l.segments, s.Clean language :=
  clean_scanLines h (by simp [Mode.kind]) hl

end EndpointCensus
