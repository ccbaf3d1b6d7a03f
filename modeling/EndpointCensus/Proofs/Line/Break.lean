import EndpointCensus.Proofs.Line.Comment
import EndpointCensus.Proofs.Line.Partition

/-!
A line that is broken at a space. White space in code is looked at by no marker before it and opens
none itself. So where a line break and any indentation stand for the space, what was read before is
the same, and so is what comes after it, one line further down.
-/

namespace EndpointCensus

/-! ### Characters with their kind -/

/-- The characters of segments, each with the kind of the segment it stands in. -/
def marked (segments : List Segment) : List (Char × SegmentKind) :=
  segments.flatMap fun s => s.chars.map fun c => (c, s.kind)

@[simp] theorem marked_append (xs ys : List Segment) : marked (xs ++ ys) = marked xs ++ marked ys :=
  List.flatMap_append

@[simp] theorem marked_cut (kind : SegmentKind) (seen : List Char) :
    marked (cut kind seen) = seen.reverse.map fun c => (c, kind) := by
  cases seen <;> simp [marked, cut]

theorem map_fst_marked (segments : List Segment) :
    (marked segments).map Prod.fst = segments.flatMap Segment.chars := by
  simp [marked, List.map_flatMap, Function.comp_def]

/-- What has been seen of a segment, with the kind it will have. -/
def Cursor.marked (k : Cursor) : List (Char × SegmentKind) :=
  k.seen.reverse.map fun c => (c, k.mode.kind)

variable {language : Language} {number : Nat} {k : Cursor}

theorem Cursor.marked_push (k : Cursor) (c : Char) :
    ({ k with seen := c :: k.seen } : Cursor).marked = k.marked ++ [(c, k.mode.kind)] := by
  simp [Cursor.marked]

theorem Cursor.marked_take (k : Cursor) (c : Char) (left : Nat) (closing : Bool) :
    EndpointCensus.marked (k.take c left closing).1 ++ (k.take c left closing).2.marked =
      k.marked ++ [(c, k.mode.kind)] := by
  rw [← k.marked_push]
  unfold Cursor.take
  split
  · rw [marked_cut]
    exact List.append_nil _
  · rfl

theorem prefix_of_take {c : Char} {left : Nat} {closing : Bool} {segments : List Segment}
    (h : (k.take c left closing).2.marked <+: marked segments) :
    k.marked ++ [(c, k.mode.kind)] <+: marked ((k.take c left closing).1 ++ segments) := by
  rw [← k.marked_take c left closing, marked_append]
  exact (List.prefix_append_right_inj _).mpr h

/-- What has been seen gets the kind of the mode, whatever comes. -/
theorem seen_prefix_marked (language : Language) (number : Nat) (k : Cursor) (cs : List Char) :
    k.marked <+: marked (scanFrom language number k cs).1 := by
  induction cs generalizing k with
  | nil =>
    unfold scanFrom
    rw [marked_cut]
    exact List.prefix_rfl
  | cons c rest ih =>
    have htake (left : Nat) (closing : Bool) :
        k.marked <+:
          marked ((k.take c left closing).1 ++
            (scanFrom language number (k.take c left closing).2 rest).1) :=
      (List.prefix_append _ _).trans (prefix_of_take (ih _))
    unfold scanFrom Cursor.step
    split
    · exact htake _ _
    · split
      · exact htake _ _
      · exact htake _ _
      · exact htake _ _
      · dsimp only
        rw [marked_append, marked_cut]
        exact List.prefix_append _ _

/-- A character that opens nothing gets the kind of the mode it is read in. -/
theorem here_prefix_marked (k : Cursor) (c : Char) (rest : List Char)
    (h : ∀ mode size, lexeme language number c rest k.mode ≠ .opens mode size) :
    k.marked ++ [(c, k.mode.kind)] <+: marked (scanFrom language number k (c :: rest)).1 := by
  have htake (left : Nat) (closing : Bool) : k.marked ++ [(c, k.mode.kind)] <+:
      marked ((k.take c left closing).1 ++
        (scanFrom language number (k.take c left closing).2 rest).1) :=
    prefix_of_take (seen_prefix_marked language number _ rest)
  unfold scanFrom Cursor.step
  split
  · exact htake _ _
  · split
    · exact htake _ _
    · exact htake _ _
    · exact htake _ _
    · next mode size hlexeme => exact absurd hlexeme (h mode size)

/-- A character that opens a literal or a comment gets its kind. -/
theorem opens_prefix_marked (hpassing : k.passing = 0) {c : Char} {rest : List Char} {mode : Mode}
    {size : Nat} (h : lexeme language number c rest k.mode = .opens mode size) :
    k.marked ++ [(c, mode.kind)] <+: marked (scanFrom language number k (c :: rest)).1 := by
  unfold scanFrom Cursor.step
  rw [hpassing]
  dsimp only
  rw [h]
  dsimp only
  rw [marked_append, marked_cut]
  exact (List.prefix_append_right_inj _).mpr
    (seen_prefix_marked language number { mode, seen := [c], passing := size - 1 } rest)

/-! ### White space in code -/

theorem opening_cases (language : Language) (number : Nat) (c : Char) (rest : List Char) :
    opening language number c rest = .plain ∨ ∃ mode size, opening language number c rest =
      .opens mode size := by
  unfold opening
  cases language <;> dsimp only <;> repeat' split
  all_goals first | exact .inl rfl | exact .inr ⟨_, _, rfl⟩

theorem scanFrom_plain {c : Char} {rest : List Char} (h : opening language number c rest = .plain)
    (seen : List Char) : scanFrom language number { mode := .code, seen } (c :: rest) =
      scanFrom language number { mode := .code, seen := c :: seen } rest := by
  have hstep : ({ mode := .code, seen } : Cursor).step language number c rest =
      ([], { mode := .code, seen := c :: seen }) := by
    unfold Cursor.step
    dsimp only
    rw [show lexeme language number c rest .code = opening language number c rest from rfl, h]
    rfl
  rw [scanFrom, hstep]
  rfl

theorem scanFrom_opens {c : Char} {rest : List Char} {mode : Mode} {size : Nat}
    (h : opening language number c rest = .opens mode size) (seen : List Char) :
    scanFrom language number { mode := .code, seen } (c :: rest) =
      let opened := scanFrom language number { mode, seen := [c], passing := size - 1 } rest
      (cut .code seen ++ opened.1, opened.2) := by
  have hstep : ({ mode := .code, seen } : Cursor).step language number c rest =
      (cut .code seen, { mode, seen := [c], passing := size - 1 }) := by
    unfold Cursor.step
    dsimp only
    rw [show lexeme language number c rest .code = opening language number c rest from rfl, h]
    rfl
  rw [scanFrom, hstep]

/-- White space opens nothing. -/
theorem opening_of_isBlank {c : Char} (hc : Text.isBlank c = true) (rest : List Char) :
    opening language number c rest = .plain := by
  have hne (d : Char) (hd : Text.isBlank d = false) : (c == d) = false := by
    rw [beq_eq_false_iff_ne]
    rintro rfl
    rw [hc] at hd
    contradiction
  unfold opening
  simp only [isQuote, hne '#' rfl, hne '/' rfl, hne '\x27' rfl, hne '\x22' rfl, hne backtick rfl,
    Bool.false_and, Bool.or_self, Bool.false_eq_true, ↓reduceIte]
  cases language <;> rfl

theorem scanFrom_blank (seen : List Char) {cs : List Char} (hcs : ∀ c ∈ cs, Text.isBlank c = true)
    (rest : List Char) : scanFrom language number { mode := .code, seen } (cs ++ rest) =
      scanFrom language number { mode := .code, seen := cs.reverse ++ seen } rest := by
  induction cs generalizing seen with
  | nil => rfl
  | cons c cs ih =>
    rw [List.cons_append, scanFrom_plain (opening_of_isBlank (hcs c List.mem_cons_self) _),
      ih _ fun d hd => hcs d (List.mem_cons_of_mem c hd)]
    simp

/-! ### A space ahead -/

section Ahead

variable (rest more : List Char)

theorem head?_space {d : Char} (hd : d ≠ ' ') :
    ((rest ++ ' ' :: more).head? == some d) = (rest.head? == some d) := by
  cases rest with
  | nil => simpa using Ne.symm hd
  | cons c rest => rfl

theorem isPrefixOf_space {q : Char} (hq : isQuote q = true) :
    [q, q].isPrefixOf (rest ++ ' ' :: more) = [q, q].isPrefixOf rest := by
  have hne : (q == ' ') = false := by
    rw [beq_eq_false_iff_ne]
    rintro rfl
    contradiction
  match rest with
  | [] => simp [List.isPrefixOf, hne]
  | [c] => simp [List.isPrefixOf, hne]
  | c :: d :: cs => simp [List.isPrefixOf]

theorem opening_space (language : Language) (number : Nat) (c : Char) :
    opening language number c (rest ++ ' ' :: more) = opening language number c rest := by
  unfold opening
  rw [head?_space rest more (by decide), head?_space rest more (by decide)]
  cases language with
  | script => rfl
  | python =>
    by_cases hquote : isQuote c = true
    · simp only [isPrefixOf_space rest more hquote]
    · simp only [hquote, Bool.false_eq_true, ↓reduceIte]

/-- No marker is told by a space behind it. -/
theorem step_space (hk : k.Sound) (c : Char) :
    k.step language number c (rest ++ ' ' :: more) = k.step language number c rest := by
  have hlexeme : lexeme language number c (rest ++ ' ' :: more) k.mode =
      lexeme language number c rest k.mode := by
    cases hmode : k.mode with
    | code => exact opening_space rest more language number c
    | triple q since =>
      unfold lexeme
      simp only [isPrefixOf_space rest more (hk.quotes q since hmode)]
    | block since =>
      unfold lexeme
      rw [head?_space rest more (by decide)]
    | _ => rfl
  unfold Cursor.step
  rw [hlexeme]

end Ahead

theorem read_space (hk : k.Sound) (more cs : List Char) :
    k.read language number (' ' :: more) cs = k.read language number [] cs := by
  induction cs generalizing k with
  | nil => rfl
  | cons c cs ih =>
    unfold Cursor.read
    rw [step_space cs more hk c, List.append_nil]
    dsimp only
    rw [ih (hk.step c cs)]

theorem chars_read (k : Cursor) (ahead cs : List Char) :
    (k.read language number ahead cs).1.flatMap Segment.chars ++
      (k.read language number ahead cs).2.seen.reverse = k.seen.reverse ++ cs := by
  induction cs generalizing k with
  | nil => exact (List.append_nil _).symm
  | cons c cs ih =>
    have hstep := k.chars_step language number c (cs ++ ahead)
    unfold Cursor.read
    dsimp only
    rw [List.flatMap_append, List.append_assoc, ih, ← List.append_assoc, hstep, List.append_assoc]
    rfl

theorem read_concat (k : Cursor) (ahead cs : List Char) (c : Char) :
    k.read language number ahead (cs ++ [c]) =
      let first := k.read language number (c :: ahead) cs
      let last := first.2.step language number c ahead
      (first.1 ++ last.1, last.2) := by
  induction cs generalizing k with
  | nil => simp [Cursor.read]
  | cons d cs ih => simp [Cursor.read, ih]

theorem Mode.kind_ne_code {m : Mode} (h : m ≠ .code) : m.kind ≠ .code := by
  cases m <;> first | contradiction | exact fun hkind => by contradiction

/-- A character with nothing seen behind it completes a segment that is no code. -/
theorem step_of_seen_nil (hk : k.Sound) {c : Char} {rest : List Char}
    (h : (k.step language number c rest).2.seen = []) :
    ∃ s : Segment, (k.step language number c rest).1 = [s] ∧ s.kind ≠ .code := by
  have htake {left : Nat} {closing : Bool} (hmode : k.mode ≠ .code)
      (hseen : (k.take c left closing).2.seen = []) :
      ∃ s : Segment, (k.take c left closing).1 = [s] ∧ s.kind ≠ .code := by
    unfold Cursor.take at hseen ⊢
    split at hseen
    · next hlast =>
      rw [if_pos hlast]
      exact ⟨⟨k.mode.kind, (c :: k.seen).reverse⟩, rfl, Mode.kind_ne_code hmode⟩
    · contradiction
  unfold Cursor.step at h ⊢
  cases hpassing : k.passing with
  | succ left =>
    rw [hpassing] at h
    refine htake (fun hmode => ?_) h
    rw [hk.passing hmode] at hpassing
    contradiction
  | zero =>
    rw [hpassing] at h
    dsimp only at h ⊢
    cases hlexeme : lexeme language number c rest k.mode with
    | plain =>
      rw [hlexeme] at h
      contradiction
    | escape =>
      rw [hlexeme] at h
      contradiction
    | closes size =>
      rw [hlexeme] at h
      exact htake (ne_code_of_lexeme hlexeme (by simp) (by simp)) h
    | opens mode size =>
      rw [hlexeme] at h
      contradiction

/-! ### Code goes on -/

/-- Between markers nothing is left of a marker. -/
theorem scanFrom_of_passing (hpassing : k.passing = 0) (cs : List Char) :
    scanFrom language number k cs = scanFrom language number
      { mode := k.mode, seen := k.seen } cs := by
  cases cs with
  | nil => rfl
  | cons c rest =>
    unfold scanFrom Cursor.step Cursor.take
    rw [hpassing]

/-- What was seen of the code before goes into the same segment as the code that comes next. -/
theorem scanFrom_code (language : Language) (number : Nat) (cs : List Char) :
    ∃ (code : List Char) (back : List Segment) (mode : Mode), ∀ seen,
      scanFrom language number { mode := .code, seen } cs =
        (cut .code (code.reverse ++ seen) ++ back, mode) := by
  induction cs with
  | nil => exact ⟨[], [], .code, fun seen => by simp [scanFrom, Mode.kind, Mode.nextLine]⟩
  | cons c rest ih =>
    rcases opening_cases language number c rest with hplain | ⟨mode, size, hopens⟩
    · obtain ⟨code, back, mode, hrest⟩ := ih
      refine ⟨c :: code, back, mode, fun seen => ?_⟩
      rw [scanFrom_plain hplain, hrest]
      simp
    · exact ⟨[], _, _, scanFrom_opens hopens⟩

theorem exists_of_marked_prefix {c : Char} {kind : SegmentKind} {segments : List Segment}
    (hne : ∀ s ∈ segments, s.chars ≠ []) (h : [(c, kind)] <+: marked segments) :
    ∃ s rest cs, segments = s :: rest ∧ s.kind = kind ∧ s.chars = c :: cs := by
  cases segments with
  | nil => simp [marked] at h
  | cons s rest =>
    cases hcs : s.chars with
    | nil => exact absurd hcs (hne s List.mem_cons_self)
    | cons d cs =>
      obtain ⟨more, hmore⟩ := h
      simp only [marked, List.flatMap_cons, hcs, List.map_cons, List.cons_append, List.cons.injEq,
        Prod.mk.injEq] at hmore
      obtain ⟨⟨rfl, rfl⟩, -⟩ := hmore
      exact ⟨s, rest, cs, rfl, rfl, hcs⟩

/-- Behind code comes more code, or a literal that begins there. -/
theorem scanFrom_code_cons {c : Char} {rest : List Char}
    (h : ∀ mode size, opening language number c rest = .opens mode size → mode.kind = .literal) :
    ∃ (code : List Char) (back : List Segment) (mode : Mode),
      (∀ seen, scanFrom language number { mode := .code, seen } (c :: rest) =
        (cut .code (code.reverse ++ seen) ++ back, mode)) ∧
      ((∃ more, code = c :: more) ∨
        code = [] ∧ ∃ s more cs, back = s :: more ∧ s.kind = .literal ∧ s.chars = c :: cs) := by
  rcases opening_cases language number c rest with hplain | ⟨mode, size, hopens⟩
  · obtain ⟨code, back, mode, hrest⟩ := scanFrom_code language number rest
    refine ⟨c :: code, back, mode, fun seen => ?_, .inl ⟨code, rfl⟩⟩
    rw [scanFrom_plain hplain, hrest]
    simp
  · refine ⟨[], _, _, scanFrom_opens hopens, .inr ⟨rfl, ?_⟩⟩
    have hmarked :=
      seen_prefix_marked language number { mode, seen := [c], passing := size - 1 } rest
    rw [← h mode size hopens]
    exact exists_of_marked_prefix (fun s hs => ne_nil_of_mem_scanFrom hs) hmarked

/-! ### The line and its parts -/

/-- A line with a space in its code, between characters `a` and `b`, and the two lines that stand
for it when it is broken there. -/
structure Line.Broken (l upper lower : Line) (a b : Char) (front : List Segment)
    (before lead behind : List Char) (back : List Segment) : Prop where
  whole : l.segments = front ++ ⟨.code, before ++ ' ' :: behind⟩ :: back
  first : upper.segments = front ++ cut .code before.reverse
  second : lower.segments = cut .code (lead ++ behind).reverse ++ back
  number : upper.number = l.number ∧ lower.number = l.number + 1
  literalOpen : upper.literalOpen = false ∧ lower.literalOpen = l.literalOpen
  indent : indentWidth upper.text = indentWidth l.text ∧ indentWidth lower.text = indentWidth l.text
  read : ∀ x, x = l ∨ x = upper ∨ x = lower → x.tag ≠ .comment ∧ x.hasContent = true
  lead : ∀ c ∈ lead, Text.isBlank c = true
  visible : Text.isBlank a = false ∧ Text.isBlank b = false
  /-- Code ends before the space, or a literal does. -/
  before : (∃ cs, before = cs ++ [a]) ∨
    before = [] ∧ ∃ segments s cs, front = segments ++ [s] ∧ s.kind = .literal ∧ s.chars = cs ++ [a]
  /-- Code begins behind the space, or a literal does. -/
  behind : (∃ cs, behind = b :: cs) ∨
    behind = [] ∧ ∃ s segments cs, back = s :: segments ∧ s.kind = .literal ∧ s.chars = b :: cs
  closes : l.literalOpen = true → back.any (·.kind == .literal) = true

section Parts

variable {mode : Mode} {left right lead : List Char} {b : Char}

/-- The scan up to a space that is code is in code. -/
theorem mode_of_marked_space {rest : List Char}
    (h : (marked (scanFrom language number k (' ' :: rest)).1)[k.seen.length]? =
      some (' ', .code)) : k.mode = .code := by
  by_cases hmode : k.mode = .code
  · exact hmode
  · obtain ⟨more, hmore⟩ := @here_prefix_marked language number k ' ' rest
      fun m size hlexeme => hmode (eq_code_of_lexeme hlexeme)
    rw [← hmore] at h
    simp [Cursor.marked] at h
    exact absurd h (Mode.kind_ne_code hmode)

theorem kind_of_opening {c : Char} {rest : List Char} {m : Mode} {size : Nat}
    (h : opening language number c rest = .opens m size) (hne : m.kind ≠ .comment) :
    m.kind = .literal := by
  cases opens_of_opening h with
  | remark => contradiction
  | block => contradiction
  | _ => rfl

/-- What is read up to the space, and behind it. -/
theorem scanFrom_parts (hmode : ({ mode } : Cursor).Sound)
    (hspace : (marked (scanFrom language number { mode }
      (left ++ ' ' :: b :: right)).1)[left.length]? = some (' ', .code))
    (hbehind : ∀ kind,
      (marked (scanFrom language number { mode } (left ++ ' ' :: b :: right)).1)[left.length + 1]? =
        some (b, kind) → kind ≠ .comment) :
    ∃ (front : List Segment) (seen : List Char) (closing : Bool) (code : List Char)
      (back : List Segment) (mode' : Mode), ({ mode } : Cursor).read language number [] left =
      (front, { mode := .code, seen, closing }) ∧
      (∀ seen, scanFrom language number { mode := .code, seen } (b :: right) =
        (cut .code (code.reverse ++ seen) ++ back, mode')) ∧
      scanFrom language number { mode } (left ++ ' ' :: b :: right) =
        (front ++ ⟨.code, seen.reverse ++ ' ' :: code⟩ :: back, mode') ∧
      ((∃ more, code = b :: more) ∨
        code = [] ∧ ∃ s more cs, back = s :: more ∧ s.kind = .literal ∧ s.chars = b :: cs) := by
  have hsound := @Cursor.Sound.read language number _ hmode [] left
  have hchars := @chars_read language number { mode } [] left
  have hscan := scanFrom_append language number { mode } left (' ' :: b :: right)
  rw [read_space hmode] at hscan
  rw [hscan] at hspace hbehind ⊢
  generalize ({ mode } : Cursor).read language number [] left = reached
    at hsound hchars hspace hbehind ⊢
  obtain ⟨front, k⟩ := reached
  dsimp only at hsound hchars hspace hbehind ⊢
  have hlength : left.length = (marked front).length + k.seen.length := by
    have h := congrArg List.length hchars
    rw [← map_fst_marked] at h
    simpa using h.symm
  rw [marked_append, hlength, List.getElem?_append_right (by omega), Nat.add_sub_cancel_left]
    at hspace
  have hcode := mode_of_marked_space hspace
  have hpassing := hsound.passing hcode
  have hsecond : scanFrom language number k (' ' :: b :: right) =
      scanFrom language number { mode := .code, seen := ' ' :: k.seen } (b :: right) := by
    rw [scanFrom_of_passing hpassing, hcode, scanFrom_plain (opening_of_isBlank rfl _)]
  rw [hsecond] at hbehind ⊢
  obtain ⟨code, back, mode', hglue, hhead⟩ := @scanFrom_code_cons language number b right
    fun m size hopens => by
      obtain ⟨more, hmore⟩ :=
        opens_prefix_marked (k := { mode := .code, seen := ' ' :: k.seen }) rfl hopens
      refine kind_of_opening hopens (hbehind m.kind ?_)
      have hindex : (marked front).length + k.seen.length + 1 - (marked front).length =
          k.seen.length + 1 := by omega
      rw [marked_append, ← hmore, hlength, List.getElem?_append_right (by omega), hindex]
      simp [Cursor.marked]
  refine ⟨front, k.seen, k.closing, code, back, mode', ?_, hglue, ?_, hhead⟩
  · obtain ⟨m, seen, passing, closing⟩ := k
    obtain rfl : m = .code := hcode
    obtain rfl : passing = 0 := hpassing
    rfl
  · rw [hglue]
    have hcut : cut .code (code.reverse ++ ' ' :: k.seen) =
        [⟨.code, k.seen.reverse ++ ' ' :: code⟩] := by
      simp [cut]
    rw [hcut]
    rfl

/-- Before the space stands code, or a literal that is complete. -/
theorem before_space (hmode : ({ mode } : Cursor).Sound) {a : Char} {front : List Segment}
    {seen : List Char} {closing : Bool}
    (hread : ({ mode } : Cursor).read language number [] (left ++ [a]) =
      (front, { mode := .code, seen, closing }))
    {more : List (Char × SegmentKind)}
    (hbefore : ∀ kind, (marked front ++ more)[left.length]? = some (a, kind) → kind ≠ .comment) :
    (∃ cs, seen.reverse = cs ++ [a]) ∨ seen = [] ∧ ∃ cs s chars, front = cs ++ [s] ∧
    s.kind = .literal ∧ s.chars = chars ++ [a] := by
  have hchars := @chars_read language number { mode } [] (left ++ [a])
  rw [hread] at hchars
  cases seen with
  | cons c seen =>
    have hends : (front.flatMap Segment.chars ++ seen.reverse) ++ [c] = left ++ [a] := by
      rw [List.append_assoc, ← List.reverse_cons]
      exact hchars
    obtain rfl : c = a := by simpa using (List.append_inj' hends rfl).2
    exact .inl ⟨seen.reverse, List.reverse_cons⟩
  | nil =>
    right
    rw [read_concat] at hread
    have hsound := @Cursor.Sound.read language number _ hmode [a] left
    generalize ({ mode } : Cursor).read language number [a] left = reached at hread hsound
    obtain ⟨front', k⟩ := reached
    dsimp only at hread hsound
    obtain ⟨hfront, hk⟩ := Prod.mk.inj hread
    obtain ⟨s, hs, hkind⟩ := @step_of_seen_nil language number _ hsound a []
      (by rw [hk])
    have hne : s.chars ≠ [] :=
      Cursor.ne_nil_of_mem_step (by rw [hs]; exact List.mem_singleton_self s)
    rw [hs] at hfront
    subst hfront
    have hends : front'.flatMap Segment.chars ++ s.chars = left ++ [a] := by simpa using hchars
    obtain ⟨chars, d, hd⟩ := (List.eq_nil_or_concat s.chars).resolve_left hne
    rw [List.concat_eq_append] at hd
    rw [hd, ← List.append_assoc] at hends
    obtain ⟨hleft, hlast⟩ := List.append_inj' hends rfl
    obtain rfl : d = a := by simpa using hlast
    refine ⟨rfl, front', s, chars, rfl, ?_, hd⟩
    have hlength : left.length = (marked front').length + chars.length := by
      rw [← hleft, List.length_append, ← map_fst_marked, List.length_map]
    have hmarked : marked [s] = (chars.map fun c => (c, s.kind)) ++ [(d, s.kind)] := by
      simp [marked, hd]
    have hcomment : s.kind ≠ .comment := by
      apply hbefore
      rw [marked_append, hmarked, hlength]
      simp
    cases hs : s.kind with
    | code => exact absurd hs hkind
    | comment => exact absurd hs hcomment
    | literal => rfl

/-- Only the white space at its start makes the indentation of a line. -/
theorem indentWidth_lead {d : Char} (hd : Text.isBlank d = false) (cs more : List Char) :
    indentWidth (cs.takeWhile Text.isBlank ++ d :: more) = indentWidth cs := by
  induction cs with
  | nil => simp [indentWidth, hd]
  | cons e cs ih =>
    cases he : Text.isBlank e with
    | true => rw [List.takeWhile_cons_of_pos he, List.cons_append, indentWidth, indentWidth, ih]
    | false => simp [indentWidth, he, hd]

theorem hasContent_of_mem {s : Segment} {c : Char} (hkind : s.kind ≠ .comment) (hc : c ∈ s.chars)
    (hblank : Text.isBlank c = false) : s.hasContent = true := by
  have hvisible : Text.allBlank s.chars = false := List.all_eq_false.mpr ⟨c, hc, by simp [hblank]⟩
  simp [Segment.hasContent, hkind, hvisible]

theorem kind_of_mem_cut {kind : SegmentKind} {seen : List Char} {s : Segment}
    (hs : s ∈ cut kind seen) : s.kind = kind := by
  cases seen with
  | nil => exact absurd hs List.not_mem_nil
  | cons c seen => exact congrArg Segment.kind (List.mem_singleton.mp hs)

theorem mem_cut {kind : SegmentKind} {seen : List Char} (h : seen ≠ []) :
    ⟨kind, seen.reverse⟩ ∈ cut kind seen := by
  cases seen with
  | nil => contradiction
  | cons c seen => exact List.mem_singleton_self _

/-- A line with content is no comment. -/
theorem read_ofSegments {mode' : Mode} {segments : List Segment}
    (h : ∃ s ∈ segments, s.hasContent = true) :
    (Line.ofSegments number mode mode' segments).tag ≠ .comment ∧
      (Line.ofSegments number mode mode' segments).hasContent = true := by
  have hany : segments.any Segment.hasContent = true := List.any_eq_true.mpr h
  refine ⟨?_, hany⟩
  unfold Line.ofSegments
  simp only [hany, Bool.not_true, Bool.false_and, Bool.false_eq_true, ↓reduceIte]
  split <;> simp

section Content

variable {front back : List Segment} {before code : List Char} {a : Char}

/-- The character before the space is content of the line. -/
theorem exists_content_whole (ha : Text.isBlank a = false)
    (h : (∃ cs, before = cs ++ [a]) ∨ before = [] ∧
      ∃ segments s cs, front = segments ++ [s] ∧ s.kind = .literal ∧ s.chars = cs ++ [a]) :
    ∃ s ∈ front ++ ⟨.code, before ++ ' ' :: code⟩ :: back, s.hasContent = true := by
  rcases h with ⟨cs, rfl⟩ | ⟨rfl, segments, s, cs, rfl, hkind, hchars⟩
  · exact ⟨_, List.mem_append_right _ List.mem_cons_self, hasContent_of_mem (by simp) (by simp) ha⟩
  · exact ⟨s, by simp, hasContent_of_mem (by simp [hkind]) (by simp [hchars]) ha⟩

/-- It is content of the upper line of the two as well. -/
theorem exists_content_upper (ha : Text.isBlank a = false)
    (h : (∃ cs, before = cs ++ [a]) ∨ before = [] ∧
      ∃ segments s cs, front = segments ++ [s] ∧ s.kind = .literal ∧ s.chars = cs ++ [a]) :
    ∃ s ∈ front ++ cut .code before.reverse, s.hasContent = true := by
  rcases h with ⟨cs, rfl⟩ | ⟨rfl, segments, s, cs, rfl, hkind, hchars⟩
  · have hcut : _ ∈ cut .code (cs ++ [a]).reverse := mem_cut (by simp)
    exact ⟨_, List.mem_append_right _ hcut, hasContent_of_mem (by simp) (by simp) ha⟩
  · exact ⟨s, by simp, hasContent_of_mem (by simp [hkind]) (by simp [hchars]) ha⟩

/-- The character behind the space is content of the lower line. -/
theorem exists_content_lower (hb : Text.isBlank b = false)
    (h : (∃ cs, code = b :: cs) ∨
      code = [] ∧ ∃ s segments cs, back = s :: segments ∧ s.kind = .literal ∧ s.chars = b :: cs) :
    ∃ s ∈ cut .code (lead ++ code).reverse ++ back, s.hasContent = true := by
  rcases h with ⟨cs, rfl⟩ | ⟨-, s, segments, cs, rfl, hkind, hchars⟩
  · have hcut : _ ∈ cut .code (lead ++ b :: cs).reverse := mem_cut (by simp)
    exact ⟨_, List.mem_append_left _ hcut, hasContent_of_mem (by simp) (by simp) hb⟩
  · exact ⟨s, by simp, hasContent_of_mem (by simp [hkind]) (by simp [hchars]) hb⟩

end Content

section Scanned

variable {code : List Char} {back : List Segment} {mode' : Mode}

/-- What is read behind the space is read at the start of a line as well. -/
theorem scanFrom_lead (hlead : ∀ c ∈ lead, Text.isBlank c = true)
    (h : ∀ seen, scanFrom language number { mode := .code, seen } (b :: right) =
      (cut .code (code.reverse ++ seen) ++ back, mode')) :
    scanFrom language (number + 1) { mode := .code } (lead ++ b :: right) =
      (cut .code (lead ++ code).reverse ++ back, mode'.below 1) := by
  have hbelow :=
    scanFrom_below 1 language number { mode := .code, seen := lead.reverse } (b :: right)
  rw [h] at hbelow
  rw [scanFrom_blank [] hlead, List.append_nil, List.reverse_append]
  exact hbelow

/-- A literal that stays open began behind the space. -/
theorem any_literal_of_isOpenLiteral
    (h : ∀ seen, scanFrom language number { mode := .code, seen } (b :: right) =
      (cut .code (code.reverse ++ seen) ++ back, mode'))
    (hopen : mode'.isOpenLiteral = true) : back.any (·.kind == .literal) = true := by
  obtain ⟨-, hliteral⟩ := scanFrom_delimited language number (k := { mode := .code })
    (fun hkind => by contradiction) (b :: right)
  rw [h] at hliteral
  obtain ⟨s, hs, hkind⟩ := hliteral hopen
  rcases List.mem_append.mp hs with hs | hs
  · rw [kind_of_mem_cut hs] at hkind
    contradiction
  · exact List.any_eq_true.mpr ⟨s, hs, beq_iff_eq.mpr hkind⟩

theorem text_ofSegments {n : Nat} {m m' : Mode} {cs : List Char} {scanned : List Segment × Mode}
    (h : scanFrom language n { mode } cs = scanned) :
    (Line.ofSegments n m m' scanned.1).text = cs := by
  rw [← h]
  exact chars_scanFrom language n { mode } cs

end Scanned

end Parts

/-- A line of text that is broken at a space in its code, between characters that are no comment. -/
structure BreakableAt (segments : List Segment) (left : List Char) (a b : Char) : Prop where
  space : (marked segments)[left.length + 1]? = some (' ', .code)
  before : ∀ kind, (marked segments)[left.length]? = some (a, kind) → kind ≠ .comment
  behind : ∀ kind, (marked segments)[left.length + 2]? = some (b, kind) → kind ≠ .comment
  visible : Text.isBlank a = false ∧ Text.isBlank b = false

section Parts

variable {mode : Mode} {left right : List Char} {a b : Char}

theorem exists_broken (hmode : ({ mode } : Cursor).Sound)
    (h : BreakableAt
      (scanFrom language number { mode } (left ++ [a] ++ ' ' :: b :: right)).1 left a b) :
    let lead := (left ++ [a]).takeWhile Text.isBlank
    let whole := scanFrom language number { mode } (left ++ [a] ++ ' ' :: b :: right)
    let upper := scanFrom language number { mode } (left ++ [a])
    let lower := scanFrom language (number + 1) { mode := .code } (lead ++ b :: right)
    upper.2 = .code ∧ lower.2 = whole.2.below 1 ∧
      marked upper.1 = (marked whole.1).take (left.length + 1) ∧
      ∃ front before behind back, (Line.ofSegments number mode whole.2 whole.1).Broken
        (Line.ofSegments number mode upper.2 upper.1)
        (Line.ofSegments (number + 1) .code lower.2 lower.1) a b front before
        lead behind back := by
  intro lead whole upper lower
  obtain ⟨ha, hb⟩ := h.visible
  have hlength : (left ++ [a]).length = left.length + 1 := by simp
  obtain ⟨front, seen, closing, code, back, mode', hread, hglue, hwhole, hbehind⟩ :=
    scanFrom_parts hmode (by rw [hlength]; exact h.space) (by rw [hlength]; exact h.behind)
  have hupper : upper = (front ++ cut .code seen, .code) := by
    rw [show upper = scanFrom language number { mode } (left ++ [a]) from rfl, scanFrom_eq_read,
      hread]
    rfl
  have hlead : ∀ c ∈ lead, Text.isBlank c = true :=
    fun c hc => List.all_eq_true.mp List.all_takeWhile c hc
  have hlower : lower = (cut .code (lead ++ code).reverse ++ back, mode'.below 1) :=
    scanFrom_lead hlead hglue
  have hmarked : marked whole.1 = marked front ++ (seen.reverse.map fun c => (c, .code)) ++
      ((' ', .code) :: (code.map fun c => (c, .code)) ++ marked back) := by
    rw [show whole.1 = _ from congrArg Prod.fst hwhole]
    simp [marked]
  have hbefore : (∃ cs, seen.reverse = cs ++ [a]) ∨ seen.reverse = [] ∧ ∃ segments s cs,
      front = segments ++ [s] ∧ s.kind = .literal ∧ s.chars = cs ++ [a] := by
    have hshown := h.before
    rw [show marked (scanFrom language number { mode } (left ++ [a] ++ ' ' :: b :: right)).1 =
      _ from hmarked, List.append_assoc] at hshown
    exact (before_space hmode hread hshown).imp_right (And.imp_left List.reverse_eq_nil_iff.mpr)
  have hplace : (marked front ++ seen.reverse.map fun c => (c, SegmentKind.code)).length =
      left.length + 1 := by
    have hchars := congrArg List.length (@chars_read language number { mode } [] (left ++ [a]))
    rw [hread, ← map_fst_marked] at hchars
    simpa using hchars
  have hindent : indentWidth (left ++ [a] ++ ' ' :: b :: right) = indentWidth (left ++ [a]) := by
    rw [List.append_assoc]
    exact indentWidth_append ha left (' ' :: b :: right)
  rw [show whole = _ from hwhole] at hmarked ⊢
  rw [hupper, hlower]
  refine ⟨rfl, rfl, ?_, front, seen.reverse, code, back, ?_⟩
  · rw [hmarked, List.take_append_of_le_length (Nat.le_of_eq hplace.symm), ← hplace,
      List.take_length, marked_append, marked_cut]
  · have hcontent := exists_content_upper ha hbefore
    rw [List.reverse_reverse] at hcontent
    constructor
    case whole | second => rfl
    case first => rw [List.reverse_reverse]; rfl
    case number => exact ⟨rfl, rfl⟩
    case literalOpen => exact ⟨rfl, mode'.isOpenLiteral_below 1⟩
    case indent =>
      rw [text_ofSegments hupper, text_ofSegments hlower, text_ofSegments hwhole, hindent]
      exact ⟨rfl, indentWidth_lead hb (left ++ [a]) right⟩
    case read =>
      rintro x (rfl | rfl | rfl)
      · exact read_ofSegments (exists_content_whole ha hbefore)
      · exact read_ofSegments hcontent
      · exact read_ofSegments (exists_content_lower hb hbehind)
    case lead => exact hlead
    case visible => exact ⟨ha, hb⟩
    case before => exact hbefore
    case behind => exact hbehind
    case closes => exact any_literal_of_isOpenLiteral hglue

end Parts

/-! ### The text and its lines -/

/-- A text with a space between characters `a` and `b`, `left` before them on their line
and `right` behind them. -/
def spacedText (above left : List Char) (a b : Char) (right below : List Char) : List Char :=
  above ++ (left ++ [a] ++ ' ' :: b :: right ++ below)

/-- The text with a line break for the space, and the white space that the line begins with. -/
def brokenText (above left : List Char) (a b : Char) (right below : List Char) : List Char :=
  above ++ (left ++ [a] ++ '\n' :: ((left ++ [a]).takeWhile Text.isBlank ++ b :: right ++ below))

section Text

variable {above left right below : List Char} {a b : Char}

theorem ne_break_of_visible {c d : Char} (hc : Text.isBlank c = false)
    (hd : Text.isBlank d = true) : c ≠ d := by
  rintro rfl
  rw [hc] at hd
  contradiction

theorem physicalLines_spacedText (habove : EndsLine above) (hleft : '\n' ∉ left)
    (hright : '\n' ∉ right) (hbelow : below = [] ∨ ∃ more, below = '\n' :: more)
    (ha : Text.isBlank a = false) (hb : Text.isBlank b = false) :
    physicalLines (spacedText above left a b right below) = physicalLines above ++
      (left ++ [a] ++ ' ' :: b :: lineEnding below right) :: physicalLines below.tail := by
  have hna : '\n' ≠ a := (ne_break_of_visible ha rfl).symm
  have hnb : '\n' ≠ b := (ne_break_of_visible hb rfl).symm
  have hreturn : b ≠ '\r' := ne_break_of_visible hb rfl
  have hline :=
    @physicalLines_line (left ++ [a] ++ [' ', b]) _ _ (by simp [hleft, hna, hnb]) hright hbelow
      (by simp) (by simpa using hreturn)
  rw [spacedText, physicalLines_append habove]
  simpa using congrArg (physicalLines above ++ ·) hline

theorem physicalLines_brokenText (habove : EndsLine above) (hleft : '\n' ∉ left)
    (hright : '\n' ∉ right) (hbelow : below = [] ∨ ∃ more, below = '\n' :: more)
    (ha : Text.isBlank a = false) (hb : Text.isBlank b = false) :
    physicalLines (brokenText above left a b right below) = physicalLines above ++
      (left ++ [a]) :: ((left ++ [a]).takeWhile Text.isBlank ++ b :: lineEnding below right) ::
        physicalLines below.tail := by
  have hna : '\n' ≠ a := (ne_break_of_visible ha rfl).symm
  have hnb : '\n' ≠ b := (ne_break_of_visible hb rfl).symm
  have hlead : '\n' ∉ (left ++ [a]).takeWhile Text.isBlank :=
    fun hmem => absurd ((List.takeWhile_prefix _).subset hmem) (by simp [hleft, hna])
  have hreturn : a ≠ '\r' ∧ b ≠ '\r' := ⟨ne_break_of_visible ha rfl, ne_break_of_visible hb rfl⟩
  have hupper : chomp (left ++ [a]) = left ++ [a] := if_neg (by simpa using hreturn.1)
  have hlower :=
    @physicalLines_line ((left ++ [a]).takeWhile Text.isBlank ++ [b]) _ _
      (by simp [hlead, hnb]) hright hbelow (by simp) (by simpa using hreturn.2)
  rw [brokenText, physicalLines_append habove]
  congr 1
  have hbreak := @linesFrom_line (left ++ [a]) (by simp [hleft, hna]) []
    ((left ++ [a]).takeWhile Text.isBlank ++ b :: right ++ below)
  rw [List.reverse_nil, List.nil_append, hupper] at hbreak
  rw [physicalLines, hbreak]
  simpa using hlower

end Text

/-- A text with a space that a line break may stand for: it is code on line `l`, between characters
that can be seen and are no comment. -/
structure Breakable (language : Language) (above left : List Char) (a b : Char)
    (right below : List Char) (l : Line) : Prop where
  starts : EndsLine above
  unbroken : '\n' ∉ left ∧ '\n' ∉ right
  ends : below = [] ∨ ∃ more, below = '\n' :: more
  line :
    (classify language (spacedText above left a b right below)).lines[(physicalLines above).length]? =
      some l
  place : BreakableAt l.segments left a b

/-- What is open at the end of a text was opened on one of its lines. -/
theorem le_of_unclosed_scanLines {language : Language} {number : Nat} {texts : List (List Char)}
    {u : Nat × Unclosed} (h : (scanLines language number .code texts).2.unclosed = some u) :
    number ≤ u.1 := by
  have hbelow := scanLines_below number language 0 .code texts
  rw [Nat.zero_add, show Mode.below number .code = .code from rfl] at hbelow
  rw [hbelow, Mode.unclosed_below, Option.map_eq_some_iff] at h
  obtain ⟨p, -, rfl⟩ := h
  exact Nat.le_add_left number p.1

/-- The lines of the text when the line is broken: what comes after it stands
one line further down. -/
theorem Breakable.exists_classify {language : Language} {above left : List Char} {a b : Char}
    {right below : List Char} {l : Line} (h : Breakable language above left a b right below l) :
    (classify language (brokenText above left a b right below)).unterminated =
        (classify language (spacedText above left a b right below)).unterminated.map
          (fun u => (u.1 + 1, u.2)) ∧
      (∀ u, (classify language (spacedText above left a b right below)).unterminated = some u →
        l.number ≤ u.1) ∧
      ∃ earlier later upper lower front before lead behind back,
      (classify language (spacedText above left a b right below)).lines = earlier ++ l :: later ∧
      earlier.length = (physicalLines above).length ∧
      (classify language (brokenText above left a b right below)).lines =
        earlier ++ upper :: lower :: later.map (Line.below 1) ∧
      marked upper.segments = (marked l.segments).take (left.length + 1) ∧
      l.Broken upper lower a b front before lead behind back := by
  obtain ⟨ha, hb⟩ := h.place.visible
  have hspaced := physicalLines_spacedText h.starts h.unbroken.1 h.unbroken.2 h.ends ha hb
  have hbroken := physicalLines_brokenText h.starts h.unbroken.1 h.unbroken.2 h.ends ha hb
  have hline := h.line
  have hplace := h.place
  generalize lineEnding below right = rest at hspaced hbroken
  generalize physicalLines below.tail = texts at hspaced hbroken
  generalize hn : (physicalLines above).length = n at hline ⊢
  have hmode : ({ mode := (scanLines language 1 .code (physicalLines above)).2 } : Cursor).Sound :=
    sound_scanLines language 1 (Cursor.sound_start fun _ _ hmode => by contradiction)
      (physicalLines above)
  have hearlier : (scanLines language 1 .code (physicalLines above)).1.length = n := by
    rw [length_scanLines, hn]
  simp only [classify, hspaced, hbroken, scanLines_append, hn, scanLines] at hline ⊢
  generalize scanLines language 1 .code (physicalLines above) = scanned at hline hmode hearlier ⊢
  obtain ⟨earlier, mode⟩ := scanned
  dsimp only at hline hmode hearlier ⊢
  rw [List.getElem?_append_right (Nat.le_of_eq hearlier), hearlier, Nat.sub_self,
    List.getElem?_cons_zero, Option.some.injEq] at hline
  subst hline
  obtain ⟨hupper, hlower, hmarked, front, before, behind, back, hparts⟩ :=
    exists_broken hmode hplace
  have hbelow := scanLines_below 1 language (1 + n + 1)
    (scanFrom language (1 + n) { mode } (left ++ [a] ++ ' ' :: b :: rest)).2 texts
  refine ⟨?_, fun u hu => ?_, earlier, _, _, _, front, before, _, behind, back, rfl, hearlier, ?_,
    hmarked, hparts⟩
  · rw [hupper, hlower, hbelow, Mode.unclosed_below]
  · have hlast : (scanLines language (1 + n + 1) .code
        (((left ++ [a]).takeWhile Text.isBlank ++ b :: rest) :: texts)).2.unclosed =
          some (u.1 + 1, u.2) := by
      rw [scanLines, hlower, hbelow]
      dsimp only
      rw [Mode.unclosed_below, hu]
      rfl
    exact Nat.le_of_succ_le_succ (le_of_unclosed_scanLines hlast)
  · rw [hupper, hlower, hbelow]

end EndpointCensus
