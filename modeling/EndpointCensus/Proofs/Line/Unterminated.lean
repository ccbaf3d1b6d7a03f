import EndpointCensus.Proofs.Line.Delimiter
import EndpointCensus.Proofs.Line.Partition

/-! What is still open where a text ends. A mode that goes on over the ends of lines bears the
number of the line that opened it. Once it is left it cannot be entered again but on a later line,
so all lines between the one it bears and the one it is found on lie inside of it, and each of
them is a single segment. -/

namespace EndpointCensus

/-- The kind of the segments inside of what is open. -/
def Unclosed.kind : Unclosed → SegmentKind
  | literal => .literal
  | comment => .comment

variable {language : Language} {number : Nat} {m : Mode} {since : Nat} {what : Unclosed}

theorem Mode.kind_of_unclosed (h : m.unclosed = some (since, what)) : m.kind = what.kind := by
  cases m <;> cases h <;> rfl

/-- Between lines, the kind of a mode tells what is open. -/
theorem Mode.exists_unclosed_iff (h : m.nextLine = m) (what : Unclosed) :
    (∃ since, m.unclosed = some (since, what)) ↔ m.kind = what.kind := by
  cases m <;> cases what <;> simp_all [Mode.unclosed, Mode.kind, Mode.nextLine, Unclosed.kind]

/-- What is opened bears the number of the line. -/
theorem since_of_opening {c : Char} {rest : List Char} {size : Nat}
    (h : opening language number c rest = .opens m size) (hm : m.unclosed = some (since, what)) :
    since = number := by
  cases opens_of_opening h <;> cases hm <;> rfl

/-! ### Lines that end inside of something -/

/-- A character is read in the mode at hand, or it ends the mode, or it opens another one. -/
theorem Cursor.step_cases (language : Language) (number : Nat) (k : Cursor) (c : Char)
    (rest : List Char) : (∃ passing closing, k.step language number c rest =
        ([], { mode := k.mode, seen := c :: k.seen, passing, closing })) ∨
      (k.step language number c rest).2.mode = .code ∨
      ∃ mode size, opening language number c rest = .opens mode size ∧
        k.step language number c rest =
          (cut k.mode.kind k.seen, { mode, seen := [c], passing := size - 1 }) := by
  have htake (left : Nat) (closing : Bool) :
      (∃ passing closing', k.take c left closing =
          ([], { mode := k.mode, seen := c :: k.seen, passing, closing := closing' })) ∨
        (k.take c left closing).2.mode = .code := by
    unfold take
    split
    · exact .inr rfl
    · exact .inl ⟨left, closing, rfl⟩
  unfold step
  split
  · exact (htake _ _).imp id .inl
  · split
    · exact (htake _ _).imp id .inl
    · exact (htake _ _).imp id .inl
    · exact (htake _ _).imp id .inl
    · next mode size hlexeme => exact .inr (.inr ⟨mode, size, opening_of_lexeme hlexeme, rfl⟩)

/-- A line that ends in a mode which goes on was in it from the start, as a single segment, or has
opened it with its last segment. -/
theorem scanFrom_unclosed {k : Cursor} {cs : List Char} (hm : m.unclosed = some (since, what))
    (h : (scanFrom language number k cs).2 = m) :
    (k.mode = m ∧ (scanFrom language number k cs).1 = cut m.kind (cs.reverse ++ k.seen)) ∨
      ∃ segments c rest size, (scanFrom language number k cs).1 =
        segments ++ [⟨m.kind, c :: rest⟩] ∧ opening language number c rest = .opens m size := by
  induction cs generalizing k with
  | nil =>
    have hmode : k.mode = m := by
      change k.mode.nextLine = m at h
      cases hk : k.mode <;> rw [hk] at h <;> first | exact h | (rw [← h] at hm; contradiction)
    left
    exact ⟨hmode, by rw [← hmode]; rfl⟩
  | cons c rest ih =>
    rcases ih h with ⟨hmode, hsegments⟩ | ⟨segments, d, tail, size, hsegments, hopening⟩
    · rcases k.step_cases language number c rest with ⟨passing, closing, hstep⟩ | hcode | ⟨mode,
        size, hopening, hstep⟩
      · left
        rw [hstep] at hmode hsegments
        exact ⟨hmode, by simp [scanFrom, hstep, hsegments]⟩
      · rw [← hmode, hcode] at hm
        contradiction
      · right
        rw [hstep] at hmode hsegments
        obtain rfl : mode = m := hmode
        refine ⟨cut k.mode.kind k.seen, c, rest, size, ?_, hopening⟩
        simp [scanFrom, hstep, hsegments, cut]
    · right
      refine ⟨(k.step language number c rest).1 ++ segments, d, tail, size, ?_, hopening⟩
      rw [List.append_assoc, ← hsegments]
      rfl

/-! ### Texts that end inside of something -/

variable {texts : List (List Char)}

/-- Either the line before was left in the same mode, or this line has opened it. -/
theorem modeBehind_succ_cases {n : Nat} {cs : List Char} (hn : texts[n]? = some cs)
    (hm : m.unclosed = some (since, what)) (h : modeBehind language 1 .code texts (n + 1) = m) :
    (modeBehind language 1 .code texts n = m ∧
        (scanFrom language (1 + n) { mode := modeBehind language 1 .code texts n } cs).1 =
          cut m.kind cs.reverse) ∨
      since = 1 + n ∧ ∃ segments c rest size,
        (scanFrom language (1 + n) { mode := modeBehind language 1 .code texts n } cs).1 =
          segments ++ [⟨m.kind, c :: rest⟩] ∧ opening language (1 + n) c rest = .opens m size := by
  rw [modeBehind_succ hn] at h
  rcases scanFrom_unclosed hm h with ⟨hmode, hsegments⟩ | ⟨segments, c, rest, size, hsegments,
    hopening⟩
  · rw [List.append_nil] at hsegments
    exact .inl ⟨hmode, hsegments⟩
  · exact .inr ⟨since_of_opening hopening hm, segments, c, rest, size, hsegments, hopening⟩

/-- A mode that goes on was opened on a line that has been read. -/
theorem since_modeBehind {n : Nat} (hn : n ≤ texts.length)
    (h : (modeBehind language 1 .code texts n).unclosed = some (since, what)) :
    0 < since ∧ since ≤ n := by
  induction n with
  | zero => contradiction
  | succ n ih =>
    rcases modeBehind_succ_cases (List.getElem?_eq_getElem hn) h rfl with ⟨hmode, -⟩ | ⟨hsince, -⟩
    · rw [← hmode] at h
      have := ih (by omega) h
      omega
    · omega

/-- From the line that opened it on, the mode at the end is that behind every line. -/
theorem modeBehind_of_since_le {n last : Nat} (hlast : last ≤ texts.length)
    (hm : m.unclosed = some (since, what)) (h : modeBehind language 1 .code texts last = m)
    (hsince : since ≤ n) (hn : n ≤ last) : modeBehind language 1 .code texts n = m := by
  induction last with
  | zero => rwa [Nat.le_zero.mp hn]
  | succ last ih =>
    rcases Nat.lt_or_eq_of_le hn with hlt | rfl
    · rcases modeBehind_succ_cases (List.getElem?_eq_getElem hlast) hm h
        with ⟨hmode, -⟩ | ⟨hopened, -⟩
      · exact ih (by omega) hmode (by omega)
      · omega
    · exact h

end EndpointCensus
