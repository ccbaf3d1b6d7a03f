import EndpointCensus.Proofs.Line.Unterminated
import EndpointCensus.Proofs.Text.Octet

/-! Lines read byte by byte. Every marker is made of characters that take one byte, and no byte of a
longer character looks like one of them. So a scan of the bytes of a line, in which a backslash
passes over a single byte, completes the same segments and ends in the same mode: no segment begins
or ends within a character. -/

namespace EndpointCensus

open Text (octets IsNarrow IsWide)

def Segment.octets (s : Segment) : Segment := { s with chars := Text.octets s.chars }

/-- The cursor of the scan that reads bytes. -/
def Cursor.octets (k : Cursor) : Cursor := { k with seen := (Text.octets k.seen.reverse).reverse }

theorem map_octets_cut (kind : SegmentKind) (seen : List Char) :
    (cut kind seen).map Segment.octets = cut kind (octets seen.reverse).reverse := by
  by_cases hseen : seen = []
  · subst hseen
    rfl
  · have hoctets : octets seen.reverse ≠ [] := by simpa [Text.octets_eq_nil_iff] using hseen
    simp [cut, Segment.octets, hseen, hoctets]

/-! ### Markers -/

theorem isNarrow_of_isQuote {c : Char} (h : isQuote c = true) : IsNarrow c := by
  unfold isQuote at h
  rw [Bool.or_eq_true, beq_iff_eq, beq_iff_eq] at h
  rcases h with rfl | rfl <;> decide

def Mode.quote? : Mode → Option Char
  | quoted q | triple q _ => some q
  | _ => none

def Mode.HasQuote (m : Mode) : Prop := ∀ q, m.quote? = some q → isQuote q = true

variable {language : Language} {number : Nat} {m : Mode} {k : Cursor} {c : Char} {rest : List Char}

theorem hasQuote_of_opening {size : Nat} (h : opening language number c rest = .opens m size) :
    m.HasQuote := by
  intro q hq
  cases opens_of_opening h <;> cases hq <;> assumption

theorem Mode.HasQuote.step (h : k.mode.HasQuote) :
    (k.step language number c rest).2.mode.HasQuote := by
  rcases k.step_cases language number c rest with ⟨passing, closing, hstep⟩ | hcode | ⟨mode, size,
    hopening, hstep⟩
  · rwa [hstep]
  · rw [hcode]
    exact fun q hq => by contradiction
  · rw [hstep]
    exact hasQuote_of_opening hopening

theorem Mode.HasQuote.nextLine (h : m.HasQuote) : m.nextLine.HasQuote := by
  cases m <;> first | exact h | exact fun q hq => by contradiction

theorem Mode.HasQuote.scanFrom (h : k.mode.HasQuote) (cs : List Char) :
    (scanFrom language number k cs).2.HasQuote := by
  induction cs generalizing k with
  | nil => exact h.nextLine
  | cons c rest ih => exact ih h.step

theorem head?_beq_eq (cs : List Char) (x : Char) : (cs.head? == some x) = [x].isPrefixOf cs := by
  cases cs with
  | nil => rfl
  | cons c cs => simp [List.isPrefixOf, Bool.beq_comm]

/-- Nothing but characters of one byte makes a difference. -/
theorem lexeme_of_isWide (hm : m.HasQuote) (hc : IsWide c) :
    lexeme language number c rest m = .plain := by
  have hne (d : Char) (hd : IsNarrow d) : c ≠ d := (Text.ne_of_isNarrow hd hc).symm
  have hquote : isQuote c = false := by
    rw [Bool.eq_false_iff]
    exact fun h => Text.ne_of_isNarrow (isNarrow_of_isQuote h) hc rfl
  have hbackslash := hne '\\' (by decide)
  cases m with
  | code =>
    have hmarks : c ≠ '#' ∧ c ≠ '/' ∧ c ≠ backtick :=
      ⟨hne _ (by decide), hne _ (by decide), hne _ (by decide)⟩
    cases language <;> simp [lexeme, opening, hmarks, hquote]
  | remark => rfl
  | quoted q => simp [lexeme, hbackslash, hne q (isNarrow_of_isQuote (hm q rfl))]
  | triple q => simp [lexeme, hbackslash, hne q (isNarrow_of_isQuote (hm q rfl))]
  | template => simp [lexeme, hbackslash, hne backtick (by decide)]
  | block => simp [lexeme, hne '*' (by decide)]

/-- What comes next is looked at for characters of one byte only. -/
theorem lexeme_octets (hm : m.HasQuote) :
    lexeme language number c (octets rest) m = lexeme language number c rest m := by
  have hhead (x : Char) (hx : IsNarrow x) : ((octets rest).head? == some x) =
      (rest.head? == some x) := by
    rw [head?_beq_eq, head?_beq_eq]
    exact Text.isPrefixOf_octets (by simpa using hx) rest
  have hpair (q : Char) (hq : isQuote q = true) : [q, q].isPrefixOf (octets rest) =
      [q, q].isPrefixOf rest :=
    Text.isPrefixOf_octets (by simpa using isNarrow_of_isQuote hq) rest
  cases m with
  | code =>
    unfold lexeme opening
    by_cases hquote : isQuote c = true
    · rw [hhead '/' (by decide), hhead '*' (by decide), hpair c hquote]
    · rw [hhead '/' (by decide), hhead '*' (by decide)]
      simp [hquote]
  | triple q => simp [lexeme, hpair q (hm q rfl)]
  | block =>
    unfold lexeme
    rw [hhead '/' (by decide)]
  | _ => rfl

theorem isNarrow_of_mem_take {marker : List Char} (hmarker : ∀ x ∈ marker, IsNarrow x)
    (h : marker.isPrefixOf rest = true) : ∀ x ∈ rest.take marker.length, IsNarrow x := by
  obtain ⟨tail, rfl⟩ := List.isPrefixOf_iff_prefix.mp h
  rwa [List.take_left]

theorem isNarrow_of_opening {size : Nat} (h : opening language number c rest = .opens m size) :
    ∀ x ∈ rest.take (size - 1), IsNarrow x := by
  cases opens_of_opening h with
  | block hstar =>
    have hprefix : ['*'].isPrefixOf rest = true := by rw [← head?_beq_eq, hstar, beq_self_eq_true]
    exact isNarrow_of_mem_take (by simpa using (by decide : IsNarrow '*')) hprefix
  | triple hquote hbegins =>
    exact isNarrow_of_mem_take (by simpa using isNarrow_of_isQuote hquote)
      (List.isPrefixOf_iff_prefix.mpr hbegins)
  | _ => exact fun x hx => absurd hx List.not_mem_nil

theorem isNarrow_of_closes {size : Nat} (hm : m.HasQuote)
    (h : lexeme language number c rest m = .closes size) :
    ∀ x ∈ rest.take (size - 1), IsNarrow x := by
  have hcode : m ≠ .code := ne_code_of_lexeme h (by simp) (by simp)
  unfold lexeme at h
  cases m with
  | code => contradiction
  | triple q =>
    dsimp only at h
    repeat' split at h
    all_goals cases h
    next hclose =>
      have hquote : IsNarrow q := isNarrow_of_isQuote (hm q rfl)
      rw [Bool.and_eq_true] at hclose
      exact isNarrow_of_mem_take (by simpa using hquote) hclose.2
  | block =>
    dsimp only at h
    split at h
    all_goals cases h
    next hclose =>
      have hslash : IsNarrow '/' := by decide
      rw [Bool.and_eq_true, head?_beq_eq] at hclose
      exact isNarrow_of_mem_take (by simpa using hslash) hclose.2
  | _ =>
    dsimp only at h
    repeat' split at h
    all_goals cases h
    all_goals exact fun x hx => absurd hx List.not_mem_nil

/-! ### The scan -/

namespace Cursor

/-- What is passed over is a single character behind a backslash, or the rest of a marker. -/
def PassesMarker (k : Cursor) (cs : List Char) : Prop :=
  (k.passing = 1 ∧ k.closing = false) ∨ ∀ c ∈ cs.take k.passing, IsNarrow c

theorem passesMarker_of_passing {cs : List Char} (h : k.passing = 0) : k.PassesMarker cs := by
  right
  rw [h]
  exact fun c hc => absurd hc List.not_mem_nil

theorem PassesMarker.take {left : Nat} {closing : Bool}
    (h : ({ k with seen := c :: k.seen, passing := left, closing } : Cursor).PassesMarker rest) :
    (k.take c left closing).2.PassesMarker rest := by
  unfold Cursor.take
  split
  · exact passesMarker_of_passing rfl
  · exact h

theorem PassesMarker.step (hquote : k.mode.HasQuote) (h : k.PassesMarker (c :: rest)) :
    (k.step language number c rest).2.PassesMarker rest := by
  unfold Cursor.step
  split
  · next left hleft =>
    apply PassesMarker.take
    rcases h with ⟨hpassing, -⟩ | hnarrow
    · exact passesMarker_of_passing (show left = 0 by omega)
    · rw [hleft, List.take_succ_cons] at hnarrow
      exact .inr fun x hx => hnarrow x (List.mem_cons_of_mem c hx)
  · split
    · exact (passesMarker_of_passing rfl).take
    · exact PassesMarker.take (.inl ⟨rfl, rfl⟩)
    · next hcloses => exact PassesMarker.take (.inr (isNarrow_of_closes hquote hcloses))
    · next hopens => exact .inr (isNarrow_of_opening (opening_of_lexeme hopens))

theorem octets_take (hc : IsNarrow c) (k : Cursor) (left : Nat) (closing : Bool) :
    k.octets.take c left closing =
      ((k.take c left closing).1.map Segment.octets, (k.take c left closing).2.octets) := by
  have hseen : c :: k.octets.seen = (Text.octets (c :: k.seen).reverse).reverse := by
    simp [Cursor.octets, Text.octets_append, Text.octets_of_isNarrow hc]
  unfold Cursor.take
  rw [hseen]
  split
  · rw [map_octets_cut]
    rfl
  · rfl

/-- A character of one byte is read alike. -/
theorem octets_step (hquote : k.mode.HasQuote) (hc : IsNarrow c) :
    k.octets.step language number c (Text.octets rest) =
      ((k.step language number c rest).1.map Segment.octets,
        (k.step language number c rest).2.octets) := by
  have hlexeme : lexeme language number c (Text.octets rest) k.octets.mode =
      lexeme language number c rest k.mode :=
    lexeme_octets hquote
  unfold Cursor.step
  cases hpassing : k.passing with
  | succ left =>
    rw [show k.octets.passing = left + 1 from hpassing]
    exact octets_take hc k left k.closing
  | zero =>
    rw [show k.octets.passing = 0 from hpassing, hlexeme]
    cases lexeme language number c rest k.mode with
    | plain => exact octets_take hc k 0 false
    | escape => exact octets_take hc k 1 false
    | closes size => exact octets_take hc k (size - 1) true
    | opens mode size =>
      dsimp only
      rw [map_octets_cut]
      simp [Cursor.octets, Text.octets_of_isNarrow hc]

/-- A longer character, or one of its bytes, is taken into the segment at hand, where it may be what
a backslash passes over. -/
theorem step_of_isWide (hquote : k.mode.HasQuote)
    (hpassing : k.passing = 0 ∨ k.passing = 1 ∧ k.closing = false) (hc : IsWide c) :
    k.step language number c rest = ([], { mode := k.mode, seen := c :: k.seen }) := by
  unfold Cursor.step
  rcases hpassing with hpassing | ⟨hpassing, hclosing⟩
  · rw [hpassing, lexeme_of_isWide hquote hc]
    rfl
  · rw [hpassing, hclosing]
    rfl

theorem PassesMarker.passing_of_isWide (h : k.PassesMarker (c :: rest)) (hc : IsWide c) :
    k.passing = 0 ∨ k.passing = 1 ∧ k.closing = false := by
  rcases h with h | hnarrow
  · exact .inr h
  · left
    cases hpassing : k.passing with
    | zero => rfl
    | succ left =>
      rw [hpassing, List.take_succ_cons] at hnarrow
      exact absurd rfl (Text.ne_of_isNarrow (hnarrow c List.mem_cons_self) hc)

end Cursor

theorem scanFrom_of_isWide {xs : List Char} (hquote : k.mode.HasQuote)
    (hpassing : k.passing = 0 ∧ k.closing = false) (hxs : ∀ x ∈ xs, IsWide x) (cs : List Char) :
    scanFrom language number k (xs ++ cs) =
      scanFrom language number { mode := k.mode, seen := xs.reverse ++ k.seen } cs := by
  induction xs generalizing k with
  | nil =>
    obtain ⟨mode, seen, passing, closing⟩ := k
    obtain ⟨rfl, rfl⟩ := hpassing
    rfl
  | cons x xs ih =>
    have hstep :=
      @Cursor.step_of_isWide language number k x (xs ++ cs) hquote (.inl hpassing.1)
        (hxs x List.mem_cons_self)
    have hrest :=
      @ih { mode := k.mode, seen := x :: k.seen } hquote ⟨rfl, rfl⟩
        (fun y hy => hxs y (List.mem_cons_of_mem x hy))
    simp [scanFrom, hstep, hrest]

/-- The scan of the bytes of a line completes the same segments. -/
theorem scanFrom_octets {cs : List Char} (hquote : k.mode.HasQuote) (h : k.PassesMarker cs) :
    scanFrom language number k.octets (octets cs) =
      ((scanFrom language number k cs).1.map Segment.octets, (scanFrom language number k cs).2) := by
  induction cs generalizing k with
  | nil => simp [scanFrom, octets, Text.bytes, Cursor.octets, map_octets_cut]
  | cons c rest ih =>
    have htail := @ih (k.step language number c rest).2 hquote.step (h.step hquote)
    rcases Text.isNarrow_or_isWide c with hc | hc
    · rw [Text.octets_cons, Text.octets_of_isNarrow hc, List.singleton_append]
      simp [scanFrom, Cursor.octets_step hquote hc, htail]
    · -- The bytes of a longer character are read one by one, the character at once.
      obtain ⟨x, xs, hoctets, hx, hxs⟩ := Text.exists_octets_of_isWide hc
      have hpassing := h.passing_of_isWide hc
      have hfirst :=
        @Cursor.step_of_isWide language number k.octets x (xs ++ octets rest) hquote hpassing hx
      have hothers :=
        @scanFrom_of_isWide language number { mode := k.mode, seen := x :: k.octets.seen } xs hquote
          ⟨rfl, rfl⟩ hxs (octets rest)
      have hseen : xs.reverse ++ x :: k.octets.seen = (octets (c :: k.seen).reverse).reverse := by
        simp [Cursor.octets, Text.octets_append, hoctets]
      rw [Cursor.step_of_isWide hquote hpassing hc] at htail
      rw [Text.octets_cons, hoctets, List.cons_append]
      simp only [scanFrom, hfirst, Cursor.step_of_isWide hquote hpassing hc, List.nil_append]
      calc scanFrom language number { mode := k.mode, seen := x :: k.octets.seen } (xs ++ octets rest)
        _ = scanFrom language number
              { mode := k.mode, seen := (octets (c :: k.seen).reverse).reverse } (octets rest) := by
          rw [hothers, hseen]
        _ = _ := htail

/-! ### Ranges -/

/-- Ranges of consecutive segments that are counted in characters, as those of bytes are. -/
def octetSpansFrom : Nat → List Segment → List (SegmentKind × Nat × Nat)
  | _, [] => []
  | start, s :: rest =>
    (s.kind, start, start + s.chars.length) :: octetSpansFrom (start + s.chars.length) rest

theorem octetSpansFrom_octets (start : Nat) (segments : List Segment) :
    octetSpansFrom start (segments.map Segment.octets) = spansFrom start segments := by
  induction segments generalizing start with
  | nil => rfl
  | cons s rest ih => simp [octetSpansFrom, spansFrom, Segment.octets, Text.length_octets, ih]

/-- The byte ranges of all lines, and what is open behind them, are those that a
scan of the bytes finds. -/
theorem scanLines_octets {texts : List (List Char)} (hquote : m.HasQuote) :
    (scanLines language number m (texts.map octets)).1.map (fun l => octetSpansFrom 0 l.segments) =
        (scanLines language number m texts).1.map Line.spans ∧
      (scanLines language number m (texts.map octets)).2 =
        (scanLines language number m texts).2 := by
  induction texts generalizing number m with
  | nil => exact ⟨rfl, rfl⟩
  | cons cs rest ih =>
    have hscan :=
      @scanFrom_octets language number { mode := m } cs hquote (Cursor.passesMarker_of_passing rfl)
    rw [show ({ mode := m } : Cursor).octets = { mode := m } from rfl] at hscan
    obtain ⟨hlines, hmode⟩ :=
      @ih (number + 1) (scanFrom language number { mode := m } cs).2 (hquote.scanFrom cs)
    simp [scanLines, hscan, hlines, hmode, Line.ofSegments, Line.spans, octetSpansFrom_octets]

end EndpointCensus
