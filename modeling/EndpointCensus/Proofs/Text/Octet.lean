import EndpointCensus.Proofs.Text.Place

/-! Texts byte by byte. A character of ASCII is its own byte, and no byte of a longer
character looks like one. -/

namespace EndpointCensus.Text

/-- The bytes of a text, each as the character with its value. -/
def octets (cs : List Char) : List Char := (bytes cs).map fun b => Char.ofNat b.toNat

def IsNarrow (c : Char) : Prop := c.toNat < 128

instance (c : Char) : Decidable (IsNarrow c) := inferInstanceAs (Decidable (c.toNat < 128))

/-- A character of more than one byte, or a byte of such a character. -/
def IsWide (c : Char) : Prop := 128 ≤ c.toNat

theorem length_octets (cs : List Char) : (octets cs).length = width cs := by
  rw [octets, List.length_map, length_bytes]

theorem octets_append (xs ys : List Char) : octets (xs ++ ys) = octets xs ++ octets ys := by
  rw [octets, bytes_append, List.map_append]
  rfl

theorem octets_cons (c : Char) (cs : List Char) : octets (c :: cs) = octets [c] ++ octets cs :=
  octets_append [c] cs

theorem octets_eq_nil_iff {cs : List Char} : octets cs = [] ↔ cs = [] := by
  constructor
  · intro h
    have hwidth : width cs = 0 := by rw [← length_octets, h, List.length_nil]
    exact Decidable.byContradiction fun hne => Nat.ne_of_gt (width_pos hne) hwidth
  · rintro rfl
    rfl

theorem isWide_ofNat {n : Nat} (hlow : 128 ≤ n) (hhigh : n < 256) : IsWide (Char.ofNat n) := by
  have hall : ∀ n < 256, 128 ≤ n → 128 ≤ (Char.ofNat n).toNat := by decide +kernel
  exact hall n hhigh hlow

theorem octets_of_isNarrow {c : Char} (h : IsNarrow c) : octets [c] = [c] := by
  have hbyte : c.toNat % 256 = c.toNat := Nat.mod_eq_of_lt (Nat.lt_trans h (by omega))
  have hcode : c.val.toNat ≤ 127 := Nat.le_of_lt_succ h
  simp only [octets, bytes, List.flatMap_singleton, String.utf8EncodeChar, if_pos hcode,
    List.map_cons, List.map_nil]
  rw [UInt8.toNat_ofNat', show c.val.toNat = c.toNat from rfl, hbyte, Char.ofNat_toNat]

theorem isWide_of_mem_octets {c x : Char} (h : IsWide c) (hx : x ∈ octets [c]) : IsWide x := by
  have hcode : ¬c.val.toNat ≤ 127 := Nat.not_le_of_lt h
  obtain ⟨b, hb, rfl⟩ := List.mem_map.mp hx
  refine isWide_ofNat ?_ b.toNat_lt
  simp only [bytes, List.flatMap_singleton, String.utf8EncodeChar, if_neg hcode] at hb
  repeat' split at hb
  all_goals
    simp only [List.mem_cons, List.not_mem_nil, or_false] at hb
    rcases hb with rfl | rfl | rfl | rfl
  all_goals
    rw [UInt8.toNat_ofNat']
    omega

theorem exists_octets_of_isWide {c : Char} (h : IsWide c) :
    ∃ x xs, octets [c] = x :: xs ∧ IsWide x ∧ ∀ y ∈ xs, IsWide y := by
  cases hoctets : octets [c] with
  | nil => exact absurd (octets_eq_nil_iff.mp hoctets) (List.cons_ne_nil c [])
  | cons x xs =>
    refine ⟨x, xs, rfl, ?_, fun y hy => ?_⟩
    · exact isWide_of_mem_octets h (hoctets ▸ List.mem_cons_self)
    · exact isWide_of_mem_octets h (hoctets ▸ List.mem_cons_of_mem x hy)

theorem ne_of_isNarrow {c d : Char} (hc : IsNarrow c) (hd : IsWide d) : c ≠ d := by
  rintro rfl
  exact Nat.not_le_of_lt hc hd

theorem isNarrow_or_isWide (c : Char) : IsNarrow c ∨ IsWide c := Nat.lt_or_ge c.toNat 128

/-- A marker stands at the beginning of a text just when it stands at the beginning of its bytes. -/
theorem isPrefixOf_octets {marker : List Char} (h : ∀ c ∈ marker, IsNarrow c) (cs : List Char) :
    marker.isPrefixOf (octets cs) = marker.isPrefixOf cs := by
  induction marker generalizing cs with
  | nil => simp
  | cons m marker ih =>
    have hm := h m List.mem_cons_self
    cases cs with
    | nil => rfl
    | cons c cs =>
      rcases isNarrow_or_isWide c with hc | hc
      · rw [octets_cons, octets_of_isNarrow hc, List.singleton_append, List.isPrefixOf_cons_cons,
          List.isPrefixOf_cons_cons, ih (fun x hx => h x (List.mem_cons_of_mem m hx))]
      · obtain ⟨x, xs, hoctets, hx, -⟩ := exists_octets_of_isWide hc
        rw [octets_cons, hoctets, List.cons_append, List.isPrefixOf_cons_cons,
          List.isPrefixOf_cons_cons, beq_false_of_ne (ne_of_isNarrow hm hx),
          beq_false_of_ne (ne_of_isNarrow hm hc), Bool.false_and, Bool.false_and]

end EndpointCensus.Text
