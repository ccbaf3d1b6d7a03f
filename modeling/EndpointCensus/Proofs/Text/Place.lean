import EndpointCensus.Text.Blank

/-!
Places in a text. A place is a number of bytes, and a character is at the place that is the
width of what stands before it; what stands there is found again by seeking, slicing and reading
the bytes of the text.
-/

namespace EndpointCensus.Text

/-! ### Characters and their places -/

/-- A character begins at byte `n`, or the text ends there. -/
def IsBoundary (cs : List Char) (n : Nat) : Prop :=
  ∃ before after, cs = before ++ after ∧ width before = n

/-- The characters of a text and the bytes they begin at, the first one at `start`. -/
def located : Nat → List Char → List (Nat × Char)
  | _, [] => []
  | start, c :: cs => (start, c) :: located (start + c.utf8Size) cs

theorem located_append (start : Nat) (xs ys : List Char) :
    located start (xs ++ ys) = located start xs ++ located (start + width xs) ys := by
  induction xs generalizing start with
  | nil => rfl
  | cons c xs ih => simp [located, ih, Nat.add_assoc]

theorem map_snd_located (start : Nat) (cs : List Char) : (located start cs).map Prod.snd = cs := by
  induction cs generalizing start with
  | nil => rfl
  | cons c cs ih => simp [located, ih]

theorem bounds_of_mem_located {start : Nat} {cs : List Char} {p : Nat × Char}
    (h : p ∈ located start cs) : start ≤ p.1 ∧ p.1 < start + width cs := by
  induction cs generalizing start with
  | nil => exact absurd h List.not_mem_nil
  | cons c cs ih =>
    have hpos := c.utf8Size_pos
    rw [width_cons]
    rcases List.mem_cons.mp h with rfl | h
    · exact ⟨Nat.le_refl _, by dsimp only; omega⟩
    · have := ih h
      omega

theorem width_pos {cs : List Char} (h : cs ≠ []) : 0 < width cs := by
  cases cs with
  | nil => exact absurd rfl h
  | cons c cs => exact Nat.add_pos_left c.utf8Size_pos _

theorem charAt?_cons {c : Char} {n : Nat} (h : c.utf8Size ≤ n) (cs : List Char) :
    charAt? (c :: cs) n = charAt? cs (n - c.utf8Size) := by
  have hpos := c.utf8Size_pos
  obtain ⟨m, rfl⟩ : ∃ m, n = m + 1 := ⟨n - 1, by omega⟩
  exact if_neg (Nat.not_lt_of_le h)

theorem charAt?_append (xs : List Char) (c : Char) (ys : List Char) :
    charAt? (xs ++ c :: ys) (width xs) = some c := by
  induction xs with
  | nil => rfl
  | cons d xs ih =>
    rw [List.cons_append, width_cons, charAt?_cons (Nat.le_add_right _ _), Nat.add_sub_cancel_left,
      ih]

/-- What is found at a place stands there. -/
theorem eq_of_charAt? {cs : List Char} {n : Nat} {c : Char} (h : charAt? cs n = some c) :
    ∃ xs ys, cs = xs ++ c :: ys ∧ width xs = n := by
  induction cs generalizing n with
  | nil => contradiction
  | cons d cs ih =>
    cases n with
    | zero => exact ⟨[], cs, by rw [Option.some.inj h]; rfl, rfl⟩
    | succ n =>
      have hle : d.utf8Size ≤ n + 1 := by
        refine Decidable.byContradiction fun hlt => ?_
        have hnone : charAt? (d :: cs) (n + 1) = none := if_pos (Nat.lt_of_not_le hlt)
        rw [hnone] at h
        contradiction
      rw [charAt?_cons hle] at h
      obtain ⟨xs, ys, rfl, hwidth⟩ := ih h
      refine ⟨d :: xs, ys, rfl, ?_⟩
      rw [width_cons, hwidth]
      omega

theorem seek_append (start : Nat) (xs ys : List Char) :
    seek start (width xs) (xs ++ ys) = (start + width xs, ys) := by
  induction xs generalizing start with
  | nil => cases ys <;> rfl
  | cons c xs ih =>
    have hpos := c.utf8Size_pos
    obtain ⟨n, hn⟩ : ∃ n, c.utf8Size + width xs = n + 1 := ⟨c.utf8Size + width xs - 1, by omega⟩
    rw [width_cons, List.cons_append, hn, seek, ← hn, Nat.add_sub_cancel_left, ih, Nat.add_assoc]
    exact fun h => by contradiction

/-! ### Slices -/

/-- The characters of a range of bytes. -/
def slice (cs : List Char) (r : Nat × Nat) : List Char := takeBytes (r.2 - r.1) (dropBytes r.1 cs)

theorem dropBytes_append (xs ys : List Char) : dropBytes (width xs) (xs ++ ys) = ys := by
  induction xs with
  | nil => cases ys <;> rfl
  | cons c xs ih =>
    have hpos := c.utf8Size_pos
    obtain ⟨n, hn⟩ : ∃ n, c.utf8Size + width xs = n + 1 := ⟨c.utf8Size + width xs - 1, by omega⟩
    rw [width_cons, List.cons_append, hn, dropBytes, ← hn, Nat.add_sub_cancel_left, ih]
    exact fun h => by contradiction

theorem takeBytes_append (xs ys : List Char) : takeBytes (width xs) (xs ++ ys) = xs := by
  induction xs with
  | nil => cases ys <;> rfl
  | cons c xs ih =>
    have hpos := c.utf8Size_pos
    obtain ⟨n, hn⟩ : ∃ n, c.utf8Size + width xs = n + 1 := ⟨c.utf8Size + width xs - 1, by omega⟩
    rw [width_cons, List.cons_append, hn, takeBytes, ← hn, Nat.add_sub_cancel_left, ih]
    exact fun h => by contradiction

theorem slice_append (xs ys zs : List Char) :
    slice (xs ++ (ys ++ zs)) (width xs, width xs + width ys) = ys := by
  rw [slice, dropBytes_append, Nat.add_sub_cancel_left, takeBytes_append]

/-! ### Bytes -/

def bytes (cs : List Char) : List UInt8 := cs.flatMap String.utf8EncodeChar

@[simp] theorem length_bytes (cs : List Char) : (bytes cs).length = width cs := by
  induction cs with
  | nil => rfl
  | cons c cs ih =>
    rw [bytes, List.flatMap_cons, List.length_append, String.length_utf8EncodeChar, width_cons]
    exact congrArg (c.utf8Size + ·) ih

@[simp] theorem bytes_append (xs ys : List Char) : bytes (xs ++ ys) = bytes xs ++ bytes ys :=
  List.flatMap_append

end EndpointCensus.Text
