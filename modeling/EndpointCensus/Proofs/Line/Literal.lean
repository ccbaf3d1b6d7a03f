import EndpointCensus.Proofs.Line.Delimiter
import EndpointCensus.Proofs.Line.Position
import EndpointCensus.Statement.Basic

/-!
Whole literals. A literal is written between delimiters, or it is left open and ends with its line.
Triple-quoted literals and templates are cut into one segment a line: the first begins with the
delimiter, the last ends with it. So what a line has to say on literals is a matter of the delimiter
of the literal that is open where the line begins and of the one that is open where it ends.
-/

namespace EndpointCensus

/-! ### Literals -/

theorem isDelimiter_of_isQuote {q : Char} (h : isQuote q = true) : isDelimiter q = true := by
  rw [isDelimiter, h, Bool.true_or]

inductive IsLiteral : List Char → Prop
  | once {q : Char} {interior : List Char} (hq : isDelimiter q = true)
      (hlength : delimiterLength (q :: interior ++ [q]) = 1) : IsLiteral (q :: interior ++ [q])
  | thrice {q : Char} (interior : List Char) (hq : isQuote q = true) :
      IsLiteral (List.replicate 3 q ++ interior ++ List.replicate 3 q)
  /-- The literal ends with its line. -/
  | leftOpen {q : Char} {interior : List Char} (hq : isQuote q = true)
      (hlength : delimiterLength (q :: interior) = 1) : IsLiteral (q :: interior)

theorem IsLiteral.ne_nil {cs : List Char} (h : IsLiteral cs) : cs ≠ [] := by
  cases h <;> exact List.cons_ne_nil _ _

theorem IsLiteral.hasContent {cs : List Char} (h : IsLiteral cs) :
    Segment.hasContent ⟨.literal, cs⟩ = true := by
  refine Segment.IsDelimited.hasContent (fun _ => ?_) rfl
  cases h with
  | once hq => exact hq
  | thrice _ hq => exact isDelimiter_of_isQuote hq
  | leftOpen hq => exact isDelimiter_of_isQuote hq

theorem delimiterLength_of_head? {q : Char} {cs : List Char} (h : cs.head? ≠ some q) :
    delimiterLength (q :: cs) = 1 := by
  have hne (d : Char) : [d, d, d].isPrefixOf (q :: cs) = false := by
    rw [Bool.eq_false_iff, ne_eq, List.isPrefixOf_iff_prefix]
    rintro ⟨rest, hrest⟩
    obtain ⟨rfl, rfl⟩ := List.cons.inj hrest
    exact h rfl
  rw [delimiterLength, hne, hne]
  rfl

/-- What a single character opens and closes is no triple quote. -/
theorem delimiterLength_once {q : Char} {interior : List Char} (h : interior.head? ≠ some q) :
    delimiterLength (q :: interior ++ [q]) = 1 := by
  cases interior with
  | nil =>
    have hne (d : Char) : [d, d, d].isPrefixOf [q, q] = false := by simp [List.isPrefixOf]
    rw [List.cons_append, List.nil_append, delimiterLength, hne, hne]
    rfl
  | cons c cs => exact delimiterLength_of_head? h

theorem IsLiteral.of_quote {q : Char} {interior : List Char} (hq : isQuote q = true)
    (h : interior.head? ≠ some q) :
    IsLiteral (q :: interior ++ [q]) := .once (isDelimiter_of_isQuote hq) (delimiterLength_once h)

/-- A delimiter of literals that may go on over the end of a line. -/
inductive IsMarker : List Char → Prop
  | triple {q : Char} (hq : isQuote q = true) : IsMarker (List.replicate 3 q)
  | template : IsMarker [backtick]

namespace IsMarker

variable {marker : List Char}

theorem head?_any (h : IsMarker marker) : marker.head?.any isDelimiter = true := by
  cases h with
  | triple hq => exact isDelimiter_of_isQuote hq
  | template => rfl

/-- What stands between two markers is a literal. -/
theorem isLiteral (h : IsMarker marker) (interior : List Char) :
    IsLiteral (marker ++ interior ++ marker) := by
  cases h with
  | triple hq => exact .thrice interior hq
  | template =>
    have hlength : delimiterLength (backtick :: interior ++ [backtick]) = 1 := rfl
    exact .once rfl hlength

end IsMarker

/-- The delimiter of the literal that is open in the mode across lines. -/
def Mode.carried : Mode → Option (List Char)
  | triple q _ => some (List.replicate 3 q)
  | template _ => some [backtick]
  | _ => none

theorem Mode.isSome_carried (m : Mode) : m.carried.isSome = m.isOpenLiteral := by cases m <;> rfl

theorem Mode.carried_nextLine (m : Mode) : m.nextLine.carried = m.carried := by cases m <;> rfl

theorem Mode.carried_of_kind {m : Mode} (h : m.kind ≠ .literal) : m.carried = none := by
  cases m <;> first | rfl | exact absurd rfl h

/-! ### Segments -/

/-- The part of a literal on one line, `entered` being open as the line begins: it
begins here or goes on. -/
def Runs (entered : Option (List Char)) (marker cs : List Char) : Prop :=
  entered = some marker ∨ entered = none ∧ marker <+: cs

/-- The part of a literal on the line that it ends on. -/
def Ends (entered : Option (List Char)) (cs : List Char) : Prop :=
  entered = none ∧ IsLiteral cs ∨ ∃ marker, entered = some marker ∧ marker <:+ cs

theorem Runs.append {entered : Option (List Char)} {marker cs : List Char}
    (h : Runs entered marker cs) (more : List Char) : Runs entered marker (cs ++ more) := by
  rcases h with h | ⟨h, hbegins⟩
  · exact .inl h
  · exact .inr ⟨h, hbegins.trans (List.prefix_append cs more)⟩

theorem Runs.ends {entered : Option (List Char)} {marker cs : List Char}
    (h : Runs entered marker cs) (hmarker : IsMarker marker) : Ends entered (cs ++ marker) := by
  rcases h with h | ⟨h, interior, rfl⟩
  · exact .inr ⟨marker, h, List.suffix_append cs marker⟩
  · exact .inl ⟨h, hmarker.isLiteral interior⟩

/-- The segments of a line that is entered with a literal of delimiter `entered` open and left with
one of delimiter `left`. -/
inductive Segments : Option (List Char) → List Segment → Option (List Char) → Prop
  | nil (entered : Option (List Char)) : Segments entered [] entered
  | skip {s : Segment} {rest : List Segment} {left : Option (List Char)} (hkind : s.kind ≠ .literal)
      (hrest : Segments none rest left) : Segments none (s :: rest) left
  | ends {entered : Option (List Char)} {cs : List Char} {rest : List Segment}
      {left : Option (List Char)} (hends : Ends entered cs) (hrest : Segments none rest left) :
      Segments entered (⟨.literal, cs⟩ :: rest) left
  | runs {entered : Option (List Char)} {marker cs : List Char} (hmarker : IsMarker marker)
      (hruns : Runs entered marker cs) : Segments entered [⟨.literal, cs⟩] (some marker)

/-- A line that leaves a literal open has begun it, unless it was entered in it. -/
theorem Segments.exists_literal {entered left : Option (List Char)} {segments : List Segment}
    (h : Segments entered segments left) (hentered : entered = none) (hleft : left.isSome = true) :
    ∃ s ∈ segments, s.kind = .literal ∧ s.hasContent = true := by
  induction h with
  | nil =>
    rw [hentered] at hleft
    contradiction
  | skip _ _ ih =>
    obtain ⟨s, hs, hliteral⟩ := ih rfl hleft
    exact ⟨s, List.mem_cons_of_mem _ hs, hliteral⟩
  | ends hends =>
    rcases hends with ⟨-, hcs⟩ | ⟨marker, hmarker, -⟩
    · exact ⟨_, List.mem_cons_self, rfl, hcs.hasContent⟩
    · rw [hentered] at hmarker
      contradiction
  | runs hmarker hruns =>
    refine ⟨_, List.mem_cons_self, rfl, Segment.IsDelimited.hasContent (fun _ => ?_) rfl⟩
    rcases hruns with hsome | ⟨-, rest, rfl⟩
    · rw [hentered] at hsome
      contradiction
    · have hhead := hmarker.head?_any
      cases hmarker <;> exact hhead

theorem Runs.eq_of_nil {entered : Option (List Char)} {marker : List Char}
    (h : Runs entered marker []) (hmarker : IsMarker marker) : entered = some marker := by
  rcases h with h | ⟨-, hbegins⟩
  · exact h
  · rw [List.prefix_nil.mp hbegins] at hmarker
    exact absurd hmarker.head?_any (by simp)

theorem cut_of_ne_nil {kind : SegmentKind} {seen : List Char} (h : seen ≠ []) :
    cut kind seen = [⟨kind, seen.reverse⟩] := by
  rw [cut, List.isEmpty_eq_false_iff.mpr h]
  rfl

/-- Segments after which a line goes on with `next` open. -/
def Completes (entered : Option (List Char)) (segments : List Segment) (next : Option (List Char)) :
    Prop :=
  ∀ rest left, Segments next rest left → Segments entered (segments ++ rest) left

theorem completes_cut {kind : SegmentKind} (h : kind ≠ .literal) (seen : List Char) :
    Completes none (cut kind seen) none := by
  intro rest left hrest
  unfold cut
  split
  · exact hrest
  · exact .skip h hrest

/-! ### Cursors -/

namespace Cursor

/-- The current segment with the characters still to pass over. -/
def span (k : Cursor) (cs : List Char) : List Char := k.seen.reverse ++ cs.take k.passing

/-- What the scan knows of the current segment, with `cs` ahead, on a line that was entered, or went
on after the segment before, with `entered` open. -/
structure Holds (entered : Option (List Char)) (k : Cursor) (cs : List Char) : Prop where
  outside : k.mode.kind ≠ .literal → entered = none
  code : k.mode = .code → k.passing = 0
  closing : k.mode.kind = .literal → k.closing = true → k.passing ≤ cs.length ∧
    Ends entered (k.span cs)
  quoted : ∀ q, k.mode = .quoted q → entered = none ∧ isQuote q = true ∧
    (k.closing = false → ∃ interior, k.span cs = q :: interior ∧ interior.head? ≠ some q)
  carried : ∀ marker, k.mode.carried = some marker → IsMarker marker ∧
    (k.closing = false → Runs entered marker (k.span cs))

variable {language : Language} {number : Nat} {entered : Option (List Char)} {k : Cursor} {c : Char}
  {rest : List Char}

/-- The cursor does not stand behind a closing marker. -/
def Waits (k : Cursor) : Prop := k.closing = true → 0 < k.passing

theorem Holds.take {left : Nat} {closing : Bool}
    (h : ({ k with seen := c :: k.seen, passing := left, closing } : Cursor).Holds entered rest) :
    ∃ next, Completes entered (k.take c left closing).1 next ∧
      (k.take c left closing).2.Holds next rest ∧ (k.take c left closing).2.Waits := by
  unfold Cursor.take
  split
  · next hdone =>
    rw [Bool.and_eq_true, beq_iff_eq] at hdone
    obtain ⟨rfl, rfl⟩ := hdone
    refine ⟨none, ?_, ⟨fun _ => rfl, fun _ => rfl, fun _ hc => ?_, fun q hc => ?_, fun m hc => ?_⟩,
      fun hc => ?_⟩
    · by_cases hkind : k.mode.kind = .literal
      · intro tail left htail
        have hends := (h.closing hkind rfl).2
        rw [Cursor.span, List.take_zero, List.append_nil] at hends
        rw [hkind]
        exact .ends hends htail
      · rw [h.outside hkind]
        exact completes_cut hkind (c :: k.seen)
    · contradiction
    · contradiction
    · contradiction
    · contradiction
  · next hdone =>
    refine ⟨entered, fun _ _ htail => htail, h, fun hclosing => ?_⟩
    rw [Bool.and_eq_true, beq_iff_eq] at hdone
    exact Nat.pos_of_ne_zero fun hleft => hdone ⟨hleft, hclosing⟩

theorem span_take {left : Nat} (h : k.passing = left + 1) (c : Char) (rest : List Char)
    (closing : Bool) :
    ({ k with seen := c :: k.seen, passing := left, closing } : Cursor).span rest =
      k.span (c :: rest) := by
  simp [Cursor.span, h]

theorem Holds.pass (h : k.Holds entered (c :: rest)) {left : Nat}
    (hpassing : k.passing = left + 1) :
    ({ k with seen := c :: k.seen, passing := left } : Cursor).Holds entered rest := by
  have hspan := span_take hpassing c rest k.closing
  refine ⟨h.outside, fun hcode => ?_, fun hkind hclosing => ?_, fun q hq => ?_,
    fun marker hmarker => ?_⟩
  · rw [h.code hcode] at hpassing
    contradiction
  · obtain ⟨hlength, hends⟩ := h.closing hkind hclosing
    rw [hpassing, List.length_cons] at hlength
    exact ⟨Nat.le_of_succ_le_succ hlength, hspan ▸ hends⟩
  · obtain ⟨hentered, hquote, hinterior⟩ := h.quoted q hq
    exact ⟨hentered, hquote, fun hclosing => hspan ▸ hinterior hclosing⟩
  · obtain ⟨hm, hruns⟩ := h.carried marker hmarker
    exact ⟨hm, fun hclosing => hspan ▸ hruns hclosing⟩

theorem Waits.closing (hwaits : k.Waits) (hpassing : k.passing = 0) : k.closing = false := by
  rw [Bool.eq_false_iff]
  intro hclosing
  exact absurd hpassing (Nat.pos_iff_ne_zero.mp (hwaits hclosing))

theorem span_push (hpassing : k.passing = 0) (c : Char) (rest : List Char) (left : Nat)
    (closing : Bool) :
    ({ k with seen := c :: k.seen, passing := left, closing } : Cursor).span rest =
      k.span (c :: rest) ++ c :: rest.take left := by
  simp [Cursor.span, hpassing]

/-- A character that does not close the literal at hand. -/
theorem Holds.push (h : k.Holds entered (c :: rest)) (hpassing : k.passing = 0) (hwaits : k.Waits)
    {left : Nat} (hcode : k.mode = .code → left = 0) (hquoted : k.mode ≠ .quoted c) :
    ({ k with seen := c :: k.seen, passing := left, closing := false } : Cursor).Holds entered
      rest := by
  have hclosing := hwaits.closing hpassing
  have hspan := span_push hpassing c rest left false
  refine ⟨h.outside, hcode, fun _ hc => by contradiction, fun q hq => ?_, fun marker hmarker => ?_⟩
  · obtain ⟨hentered, hquote, hinterior⟩ := h.quoted q hq
    obtain ⟨interior, hchars, hhead⟩ := hinterior hclosing
    refine ⟨hentered, hquote, fun _ => ⟨interior ++ c :: rest.take left, by rw [hspan, hchars]; rfl,
      ?_⟩⟩
    cases interior with
    | nil =>
      intro hc
      obtain rfl : c = q := Option.some.inj hc
      exact hquoted hq
    | cons d ds => exact hhead
  · obtain ⟨hm, hruns⟩ := h.carried marker hmarker
    exact ⟨hm, fun _ => hspan ▸ (hruns hclosing).append _⟩

/-- The first character of a closing marker. -/
theorem Holds.close (h : k.Holds entered (c :: rest)) (hpassing : k.passing = 0) (hwaits : k.Waits)
    {size : Nat} (hlexeme : lexeme language number c rest k.mode = .closes size) :
    ({ k with seen := c :: k.seen, passing := size - 1, closing := true } : Cursor).Holds entered
      rest := by
  have hclosing := hwaits.closing hpassing
  have hspan := span_push hpassing c rest (size - 1) true
  refine ⟨h.outside, fun hmode => ?_, fun hkind _ => ?_, fun q hq => ?_, fun marker hmarker => ?_⟩
  · exact absurd hmode (ne_code_of_lexeme hlexeme (by simp) (by simp))
  · rw [hspan]
    cases hmode : k.mode with
    | quoted q =>
      obtain ⟨hentered, hquote, hinterior⟩ := h.quoted q hmode
      obtain ⟨interior, hchars, hhead⟩ := hinterior hclosing
      rw [hmode, lexeme] at hlexeme
      split at hlexeme
      · contradiction
      · split at hlexeme
        · next hc =>
          obtain rfl : c = q := beq_iff_eq.mp hc
          cases hlexeme
          exact ⟨Nat.zero_le _, .inl ⟨hentered, hchars ▸ .of_quote hquote hhead⟩⟩
        · contradiction
    | triple q since =>
      obtain ⟨hm, hruns⟩ := h.carried (List.replicate 3 q) (by rw [hmode]; rfl)
      rw [hmode, lexeme] at hlexeme
      split at hlexeme
      · contradiction
      · split at hlexeme
        · next hc =>
          rw [Bool.and_eq_true, beq_iff_eq, List.isPrefixOf_iff_prefix] at hc
          obtain ⟨rfl, more, rfl⟩ := hc
          cases hlexeme
          exact ⟨by simp, (hruns hclosing).ends hm⟩
        · contradiction
    | template since =>
      obtain ⟨hm, hruns⟩ := h.carried [backtick] (by rw [hmode]; rfl)
      rw [hmode, lexeme] at hlexeme
      split at hlexeme
      · contradiction
      · split at hlexeme
        · next hc =>
          obtain rfl : c = backtick := beq_iff_eq.mp hc
          cases hlexeme
          exact ⟨Nat.zero_le _, (hruns hclosing).ends hm⟩
        · contradiction
    | code | remark | block => rw [show k.mode = _ from hmode] at hkind; contradiction
  · obtain ⟨hentered, hquote, -⟩ := h.quoted q hq
    exact ⟨hentered, hquote, fun hc => by contradiction⟩
  · exact ⟨(h.carried marker hmarker).1, fun hc => by contradiction⟩

/-- Behind the marker that opens it, a literal has nothing yet. -/
theorem holds_of_opening {mode : Mode} {size : Nat}
    (h : opening language number c rest = .opens mode size) :
    ({ mode, seen := [c], passing := size - 1 } : Cursor).Holds none rest := by
  have hsound : ({ mode, seen := [c], passing := size - 1 } : Cursor).Sound := sound_of_opening h
  have hcode := hsound.passing
  have hother (hkind : mode.kind ≠ .literal) : ({ mode, seen := [c], passing := size - 1 } :
      Cursor).Holds none rest := by
    refine ⟨fun _ => rfl, hcode, fun hliteral => absurd hliteral hkind, fun q hq => ?_,
      fun marker hmarker => ?_⟩
    · obtain rfl : mode = .quoted q := hq
      exact absurd rfl hkind
    · have hnone : mode.carried = none := Mode.carried_of_kind hkind
      rw [show mode.carried = some marker from hmarker] at hnone
      contradiction
  cases opens_of_opening h with
  | remark => exact hother (by decide)
  | block => exact hother fun hkind => by contradiction
  | quoted hquote =>
    refine ⟨fun _ => rfl, hcode, fun _ hc => by contradiction, fun q hq => ?_,
      fun _ hmarker => by contradiction⟩
    obtain rfl : c = q := Mode.quoted.inj hq
    exact ⟨rfl, hquote, fun _ => ⟨[], rfl, by simp⟩⟩
  | triple hquote hbegins =>
    obtain ⟨more, rfl⟩ := hbegins
    refine ⟨fun _ => rfl, hcode, fun _ hc => by contradiction, fun _ hq => by contradiction,
      fun marker hmarker => ?_⟩
    obtain rfl : List.replicate 3 c = marker := Option.some.inj hmarker
    exact ⟨.triple hquote, fun _ => .inr ⟨rfl, List.prefix_rfl⟩⟩
  | template htick =>
    subst htick
    refine ⟨fun _ => rfl, hcode, fun _ hc => by contradiction, fun _ hq => by contradiction,
      fun marker hmarker => ?_⟩
    obtain rfl : [backtick] = marker := Option.some.inj hmarker
    exact ⟨.template, fun _ => .inr ⟨rfl, List.prefix_rfl⟩⟩

theorem Holds.step (h : k.Holds entered (c :: rest)) (hwaits : k.Waits) (language : Language)
    (number : Nat) : ∃ next, Completes entered (k.step language number c rest).1 next ∧
      (k.step language number c rest).2.Holds next rest ∧
      (k.step language number c rest).2.Waits := by
  unfold Cursor.step
  split
  · next left hpassing => exact (h.pass hpassing).take
  · next hpassing =>
    split
    · next hlexeme =>
      refine (h.push hpassing hwaits (fun _ => rfl) fun hmode => ?_).take
      rw [hmode, lexeme, beq_self_eq_true] at hlexeme
      split at hlexeme <;> contradiction
    · next hlexeme =>
      refine (h.push hpassing hwaits (fun hmode => ?_) fun hmode => ?_).take
      · exact absurd hmode (ne_code_of_lexeme hlexeme (by simp) (by simp))
      · obtain ⟨-, hquote, -⟩ := h.quoted c hmode
        rw [hmode, lexeme, beq_self_eq_true] at hlexeme
        split at hlexeme
        · next hc =>
          rw [beq_iff_eq.mp hc] at hquote
          contradiction
        · contradiction
    · next size hlexeme => exact (h.close hpassing hwaits hlexeme).take
    · next mode size hlexeme =>
      have hcode : k.mode.kind ≠ .literal := by simp [eq_code_of_lexeme hlexeme, Mode.kind]
      rw [h.outside hcode]
      exact ⟨none, completes_cut hcode _, holds_of_opening (opening_of_lexeme hlexeme),
        fun hc => by contradiction⟩

end Cursor

/-- The segments of a line from a cursor on. -/
theorem segments_scanFrom (language : Language) (number : Nat) {entered : Option (List Char)}
    {k : Cursor} {cs : List Char} (h : k.Holds entered cs) (hwaits : k.Waits) :
    Segments entered (scanFrom language number k cs).1 (scanFrom language number k cs).2.carried := by
  induction cs generalizing k entered with
  | nil =>
    have hspan : k.span [] = k.seen.reverse := by rw [Cursor.span, List.take_nil, List.append_nil]
    unfold scanFrom
    dsimp only
    rw [Mode.carried_nextLine]
    by_cases hkind : k.mode.kind = .literal
    · have hclosing : k.closing = false := by
        rw [Bool.eq_false_iff]
        intro hc
        exact absurd (h.closing hkind hc).1 (Nat.not_le_of_lt (hwaits hc))
      rw [hkind]
      cases hcarried : k.mode.carried with
      | none =>
        obtain ⟨q, hmode⟩ : ∃ q, k.mode = .quoted q := by
          cases hmode : k.mode <;> rw [hmode] at hkind hcarried <;>
            first | exact ⟨_, rfl⟩ | contradiction
        obtain ⟨hentered, hquote, hinterior⟩ := h.quoted q hmode
        obtain ⟨interior, hchars, hhead⟩ := hinterior hclosing
        have hliteral : IsLiteral k.seen.reverse := by
          rw [← hspan, hchars]
          exact .leftOpen hquote (delimiterLength_of_head? hhead)
        rw [cut_of_ne_nil (mt List.reverse_eq_nil_iff.mpr hliteral.ne_nil)]
        exact .ends (.inl ⟨hentered, hliteral⟩) (.nil none)
      | some marker =>
        obtain ⟨hmarker, hruns⟩ := h.carried marker hcarried
        have hruns := hspan ▸ hruns hclosing
        by_cases hseen : k.seen = []
        · rw [hseen] at hruns ⊢
          rw [hruns.eq_of_nil hmarker]
          exact .nil _
        · rw [cut_of_ne_nil hseen]
          exact .runs hmarker hruns
    · rw [h.outside hkind, Mode.carried_of_kind hkind, ← List.append_nil (cut _ _)]
      exact completes_cut hkind k.seen [] none (.nil none)
  | cons c rest ih =>
    obtain ⟨next, hcompletes, hnext, hwaits'⟩ := h.step hwaits language number
    exact hcompletes _ _ (ih hnext hwaits')

/-! ### Lines -/

/-- A line that is entered with `entered` open and left with `left`. A line of comments
is outside of literals. -/
structure Line.Passes (entered : Option (List Char)) (l : Line) (left : Option (List Char)) :
    Prop where
  segments : Segments entered l.segments left
  literalOpen : l.literalOpen = left.isSome
  comment : l.tag = .comment → entered = none ∧ l.hasContent = false

/-- Lines one after the other, the first of them entered with `entered` open. -/
inductive Lines : Option (List Char) → List Line → Prop
  | nil (entered : Option (List Char)) : Lines entered []
  | cons {entered left : Option (List Char)} {l : Line} {rest : List Line}
      (hline : l.Passes entered left) (hrest : Lines left rest) : Lines entered (l :: rest)

theorem Lines.of_prefix {entered : Option (List Char)} {lines before : List Line}
    (h : Lines entered lines) (hbegins : before <+: lines) : Lines entered before := by
  induction h generalizing before with
  | nil =>
    rw [List.prefix_nil.mp hbegins]
    exact .nil _
  | cons hline _ ih =>
    rcases List.prefix_cons_iff.mp hbegins with rfl | ⟨rest, rfl, hrest⟩
    · exact .nil _
    · exact .cons hline (ih hrest)

theorem passes_scanFrom (language : Language) (number : Nat) {mode : Mode}
    (h : ({ mode } : Cursor).Sound) (hnext : mode.nextLine = mode) (cs : List Char) :
    let scanned := scanFrom language number { mode } cs
    (Line.ofSegments number mode scanned.2 scanned.1).Passes mode.carried scanned.2.carried := by
  intro scanned
  have hstart : ({ mode } : Cursor).Holds mode.carried cs := by
    refine ⟨Mode.carried_of_kind, fun _ => rfl, fun _ hc => by contradiction, fun q hq => ?_,
      fun marker hmarker => ?_⟩
    · obtain rfl : mode = .quoted q := hq
      contradiction
    · refine ⟨?_, fun _ => .inl hmarker⟩
      cases hmode : mode with
      | triple q since =>
        rw [hmode] at hmarker
        obtain rfl : List.replicate 3 q = marker := Option.some.inj hmarker
        exact .triple (h.quotes q since hmode)
      | template =>
        rw [hmode] at hmarker
        obtain rfl : [backtick] = marker := Option.some.inj hmarker
        exact .template
      | _ =>
        rw [hmode] at hmarker
        contradiction
  refine ⟨segments_scanFrom language number hstart fun hc => by contradiction,
    (Mode.isSome_carried _).symm, fun htag => ?_⟩
  unfold Line.ofSegments at htag
  dsimp only at htag
  split at htag
  · contradiction
  · next hclosed =>
    split at htag
    · next hcomment =>
      refine ⟨?_, (Bool.not_eq_true' _).mp (Bool.and_eq_true_iff.mp hcomment).1⟩
      rwa [← Mode.isSome_carried, Option.not_isSome_iff_eq_none] at hclosed
    · contradiction

/-- The lines of a text, entered in code. -/
theorem lines_scanLines (language : Language) (number : Nat) {mode : Mode}
    (h : ({ mode } : Cursor).Sound) (hnext : mode.nextLine = mode) (texts : List (List Char)) :
    Lines mode.carried (scanLines language number mode texts).1 := by
  induction texts generalizing number mode with
  | nil => exact .nil _
  | cons cs rest ih =>
    have hsound := sound_scanLines language number h [cs]
    exact .cons (passes_scanFrom language number h hnext cs)
      (ih (number + 1) hsound (nextLine_scanFrom language number { mode } cs))

end EndpointCensus
