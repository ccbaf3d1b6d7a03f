import EndpointCensus.Line.Scan
import EndpointCensus.Proofs.Text.Word

/-! How literals begin. On a line that is entered outside of literals, every literal begins with its
delimiter, and a literal that goes on past the line has begun there. -/

namespace EndpointCensus

def isDelimiter (c : Char) : Bool := isQuote c || c == backtick

theorem isDelimiter_of_isNamePart {c : Char} (h : Text.isNamePart c = true) :
    isDelimiter c = false := by
  rw [Bool.eq_false_iff]
  intro hdelimiter
  simp only [isDelimiter, isQuote, Bool.or_eq_true, beq_iff_eq] at hdelimiter
  rcases hdelimiter with (rfl | rfl) | rfl <;> exact absurd h (by decide)

theorem isBlank_of_isDelimiter {c : Char} (h : isDelimiter c = true) : Text.isBlank c = false := by
  unfold isDelimiter isQuote at h
  simp only [Bool.or_eq_true, beq_iff_eq] at h
  rcases h with (rfl | rfl) | rfl <;> rfl

theorem isDelimiter_of_isBlank {c : Char} (h : Text.isBlank c = true) : isDelimiter c = false := by
  rw [Bool.eq_false_iff]
  intro hdelimiter
  rw [isBlank_of_isDelimiter hdelimiter] at h
  contradiction

/-- A literal that was opened where it begins. -/
def Segment.IsDelimited (s : Segment) : Prop :=
  s.kind = .literal → s.chars.head?.any isDelimiter = true

theorem Segment.IsDelimited.hasContent {s : Segment} (h : s.IsDelimited)
    (hkind : s.kind = .literal) : s.hasContent = true := by
  have hfirst := h hkind
  cases hcs : s.chars with
  | nil => simp [hcs] at hfirst
  | cons c cs =>
    rw [hcs] at hfirst
    simp [Segment.hasContent, hkind, Text.allBlank, hcs, isBlank_of_isDelimiter hfirst]

/-- The literal that a cursor stands in was opened on the line at hand. -/
def Cursor.IsDelimited (k : Cursor) : Prop :=
  k.mode.kind = .literal → k.seen.getLast?.any isDelimiter = true

variable {language : Language} {number : Nat}

/-- What character `c` opens with those behind it, and the size of the marker. -/
inductive Opens (number : Nat) (c : Char) (rest : List Char) : Mode → Nat → Prop where
  | remark : Opens number c rest .remark 1
  | block : rest.head? = some '*' → Opens number c rest (.block number) 2
  | quoted : isQuote c = true → Opens number c rest (.quoted c) 1
  | triple : isQuote c = true → [c, c] <+: rest → Opens number c rest (.triple c number) 3
  | template : c = backtick → Opens number c rest (.template number) 1

theorem opens_of_opening {c : Char} {rest : List Char} {mode : Mode} {size : Nat}
    (h : opening language number c rest = .opens mode size) : Opens number c rest mode size := by
  unfold opening at h
  cases language with
  | python =>
    dsimp only at h
    repeat' split at h
    all_goals cases h
    · exact .remark
    · next hquote hbegins => exact .triple hquote (List.isPrefixOf_iff_prefix.mp hbegins)
    · next hquote _ => exact .quoted hquote
  | script =>
    dsimp only at h
    repeat' split at h
    all_goals cases h
    · exact .remark
    · next hblock => exact .block (beq_iff_eq.mp (Bool.and_eq_true_iff.mp hblock).2)
    · next hquote => exact .quoted hquote
    · next htick => exact .template (beq_iff_eq.mp htick)

theorem isDelimiter_of_opening {c : Char} {rest : List Char} {mode : Mode} {size : Nat}
    (h : opening language number c rest = .opens mode size) (hkind : mode.kind = .literal) :
    isDelimiter c = true := by
  unfold isDelimiter
  cases opens_of_opening h with
  | remark => contradiction
  | block => contradiction
  | quoted hquote => rw [hquote, Bool.true_or]
  | triple hquote => rw [hquote, Bool.true_or]
  | template htick => rw [htick, beq_self_eq_true, Bool.or_true]

/-- Code has no markers that escape or close. -/
theorem ne_code_of_lexeme {c : Char} {rest : List Char} {m : Mode} {x : Lexeme}
    (h : lexeme language number c rest m = x) (hplain : x ≠ .plain)
    (hopens : ∀ mode size, x ≠ .opens mode size) : m ≠ .code := by
  rintro rfl
  unfold lexeme opening at h
  cases language <;> dsimp only at h <;> repeat' split at h
  all_goals first | exact hplain h.symm | exact hopens _ _ h.symm

/-- Only code opens anything. -/
theorem eq_code_of_lexeme {c : Char} {rest : List Char} {m mode : Mode} {size : Nat}
    (h : lexeme language number c rest m = .opens mode size) : m = .code := by
  cases m with
  | code => rfl
  | _ =>
    unfold lexeme at h
    dsimp only at h
    repeat' split at h
    all_goals contradiction

theorem opening_of_lexeme {c : Char} {rest : List Char} {m mode : Mode} {size : Nat}
    (h : lexeme language number c rest m = .opens mode size) :
    opening language number c rest = .opens mode size := by
  rwa [eq_code_of_lexeme h] at h

namespace Cursor

theorem IsDelimited.cut {k : Cursor} (h : k.IsDelimited) :
    ∀ s ∈ cut k.mode.kind k.seen, s.IsDelimited := by
  intro s hs hkind
  unfold EndpointCensus.cut at hs
  split at hs
  · exact absurd hs List.not_mem_nil
  · rw [List.mem_singleton.mp hs] at hkind ⊢
    rw [List.head?_reverse]
    exact h hkind

theorem IsDelimited.push {k : Cursor} (h : k.IsDelimited) (c : Char) :
    ({ k with seen := c :: k.seen } : Cursor).IsDelimited := by
  intro hkind
  have hlast := h hkind
  have hne : k.seen ≠ [] := by
    intro hnil
    simp [hnil] at hlast
  rwa [List.getLast?_cons_of_ne_nil hne]

theorem IsDelimited.take {k : Cursor} (h : k.IsDelimited) (c : Char) (left : Nat) (closing : Bool) :
    (∀ s ∈ (k.take c left closing).1, s.IsDelimited) ∧ (k.take c left closing).2.IsDelimited := by
  unfold Cursor.take
  split
  · exact ⟨(h.push c).cut, fun hkind => by contradiction⟩
  · exact ⟨fun s hs => absurd hs List.not_mem_nil, h.push c⟩

theorem IsDelimited.step {k : Cursor} (h : k.IsDelimited) (c : Char) (rest : List Char) :
    (∀ s ∈ (k.step language number c rest).1, s.IsDelimited) ∧
      (k.step language number c rest).2.IsDelimited := by
  unfold Cursor.step
  split
  · exact h.take c _ _
  · split
    · exact h.take c 0 false
    · exact h.take c 1 false
    · exact h.take c _ true
    · next mode size hlexeme =>
      refine ⟨h.cut, fun hkind => ?_⟩
      exact isDelimiter_of_opening (opening_of_lexeme hlexeme) hkind

end Cursor

/-- A literal that is still open at the end of a line has its last segment there. -/
theorem scanFrom_delimited (language : Language) (number : Nat) {k : Cursor} (h : k.IsDelimited)
    (cs : List Char) : (∀ s ∈ (scanFrom language number k cs).1, s.IsDelimited) ∧
      ((scanFrom language number k cs).2.isOpenLiteral = true →
        ∃ s ∈ (scanFrom language number k cs).1, s.kind = .literal) := by
  induction cs generalizing k with
  | nil =>
    refine ⟨h.cut, fun hopen => ?_⟩
    have hkind : k.mode.kind = .literal := by
      change k.mode.nextLine.isOpenLiteral = true at hopen
      cases hmode : k.mode <;> rw [hmode] at hopen <;> first | rfl | contradiction
    refine ⟨⟨k.mode.kind, k.seen.reverse⟩, ?_, hkind⟩
    have hlast := h hkind
    unfold scanFrom cut
    cases hseen : k.seen with
    | nil => simp [hseen] at hlast
    | cons c seen => exact List.mem_singleton_self _
  | cons c rest ih =>
    obtain ⟨hdone, hnext⟩ := h.step c rest
    obtain ⟨hrest, hopen⟩ := ih hnext
    unfold scanFrom
    refine ⟨fun s hs => (List.mem_append.mp hs).elim (hdone s) (hrest s), fun hmode => ?_⟩
    obtain ⟨s, hs, hkind⟩ := hopen hmode
    exact ⟨s, List.mem_append_right _ hs, hkind⟩

/-- A line that is entered outside of literals and has no content leaves none open. -/
theorem scanFrom_of_not_isOpenLiteral (language : Language) (number : Nat) {mode : Mode}
    (h : mode.isOpenLiteral = false) (hnext : mode.nextLine = mode) (cs : List Char) :
    (∀ s ∈ (scanFrom language number { mode } cs).1, s.IsDelimited) ∧
      ((scanFrom language number { mode } cs).1.any Segment.hasContent = false →
        (scanFrom language number { mode } cs).2.isOpenLiteral = false) := by
  have hstart : ({ mode } : Cursor).IsDelimited := by
    intro hkind
    cases mode <;> contradiction
  obtain ⟨hall, hopen⟩ := scanFrom_delimited language number hstart cs
  refine ⟨hall, fun hnone => ?_⟩
  rw [Bool.eq_false_iff]
  intro hmode
  obtain ⟨s, hs, hkind⟩ := hopen hmode
  exact List.any_eq_false.mp hnone s hs ((hall s hs).hasContent hkind)

end EndpointCensus
