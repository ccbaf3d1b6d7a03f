import EndpointCensus.Proofs.Text.Matching
import EndpointCensus.Proofs.Text.Octet

/-!
Nesting of brackets, byte by byte. An opener counts one and a closer takes one away. The bracket
that closes another one stands where the count from there on is zero again for the first time, so
pairs are nested or apart. A text is cut at the separators where a count that does not fall below
zero is zero; the parts are undivided, in order and lack nothing.
-/

namespace EndpointCensus.Text

/-! ### Counts -/

/-- What a byte adds to the number of open brackets. -/
def gain (b : UInt8) : Int := if isOpener (octet b) then 1 else if isCloser (octet b) then -1 else 0

/-- The openers among some bytes less the closers. -/
def excess : List UInt8 → Int
  | [] => 0
  | b :: bs => gain b + excess bs

/-- The brackets that are open behind some bytes; a closer without an opener counts for nothing. -/
def depth (bs : List UInt8) : Nat := bs.foldl (fun d b => (d + gain b).toNat) 0

@[simp] theorem excess_nil : excess [] = 0 := rfl

@[simp] theorem excess_cons (b : UInt8) (bs : List UInt8) : excess (b :: bs) = gain b + excess bs :=
  rfl

@[simp] theorem depth_nil : depth [] = 0 := rfl

@[simp] theorem depth_concat (bs : List UInt8) (b : UInt8) :
    depth (bs ++ [b]) = (depth bs + gain b).toNat := by
  simp [depth]

section Gain

variable {b : UInt8} {bs : List UInt8}

theorem gain_opener (h : isOpener (octet b) = true) : gain b = 1 := if_pos h

theorem gain_closer (h : isCloser (octet b) = true) : gain b = -1 := by
  simp [gain, isOpener_eq_false_of_isCloser h, h]

theorem gain_other (h : isBracket (octet b) = false) : gain b = 0 := by
  obtain ⟨hopener, hcloser⟩ := Bool.or_eq_false_iff.mp h
  simp [gain, hopener, hcloser]

theorem depth_opener (h : isOpener (octet b) = true) : depth (bs ++ [b]) = depth bs + 1 := by
  rw [depth_concat, gain_opener h]
  omega

theorem depth_closer (h : isCloser (octet b) = true) : depth (bs ++ [b]) = depth bs - 1 := by
  rw [depth_concat, gain_closer h]
  omega

theorem depth_other (h : isBracket (octet b) = false) : depth (bs ++ [b]) = depth bs := by
  rw [depth_concat, gain_other h, Int.add_zero, Int.toNat_natCast]

theorem neg_one_le_gain (b : UInt8) : -1 ≤ gain b := by
  unfold gain
  split
  · decide
  · split <;> decide

end Gain

/-! ### Bytes of a character -/

section Octet

variable {c : Char} {b : UInt8}

/-- A character of ASCII is its only byte. -/
theorem bytes_of_isNarrow (h : IsNarrow c) (cs : List Char) :
    ∃ b, bytes (c :: cs) = b :: bytes cs ∧ octet b = c := by
  have hbyte : (bytes [c]).map octet = [c] := octets_of_isNarrow h
  obtain ⟨b, bs, hb, hc, hbs⟩ := List.map_eq_cons_iff.mp hbyte
  rw [List.map_eq_nil_iff.mp hbs] at hb
  exact ⟨b, by rw [← List.singleton_append, bytes_append, hb]; rfl, hc⟩

theorem utf8Size_of_isNarrow (h : IsNarrow c) : c.utf8Size = 1 := by
  have hlength := length_bytes [c]
  obtain ⟨b, hb, -⟩ := bytes_of_isNarrow h []
  rw [hb] at hlength
  exact hlength.symm

theorem isWide_of_mem_bytes (h : IsWide c) (hb : b ∈ bytes [c]) : IsWide (octet b) :=
  isWide_of_mem_octets h (List.mem_map_of_mem hb)

theorem isNarrow_of_isBracket (h : isBracket c = true) : IsNarrow c := by
  unfold isBracket isOpener isCloser at h
  simp only [Bool.or_eq_true, beq_iff_eq] at h
  rcases h with ((rfl | rfl) | rfl) | (rfl | rfl) | rfl <;> decide

theorem isBracket_of_isWide (h : IsWide c) : isBracket c = false := by
  rw [Bool.eq_false_iff]
  intro hbracket
  exact ne_of_isNarrow (isNarrow_of_isBracket hbracket) h rfl

end Octet

/-! ### The bracket that closes another one -/

/-- The place of the first byte behind which a count is zero, the first byte being at `pos`. -/
def returnFrom (count : Int) (pos : Nat) : List UInt8 → Option Nat
  | [] => none
  | b :: bs => if count + gain b = 0 then some pos else returnFrom (count + gain b) (pos + 1) bs

section Return

variable {count outer : Int} {pos close : Nat} {bs us : List UInt8}

theorem returnFrom_cons_of_ne {b : UInt8} (h : count + gain b ≠ 0) :
    returnFrom count pos (b :: bs) = returnFrom (count + gain b) (pos + 1) bs := if_neg h

/-- Bytes without brackets are passed over. -/
theorem returnFrom_plain (hcount : 0 < count) (h : ∀ b ∈ us, isBracket (octet b) = false) :
    returnFrom count pos (us ++ bs) = returnFrom count (pos + us.length) bs := by
  induction us generalizing pos with
  | nil => rfl
  | cons b us ih =>
    obtain ⟨hb, hus⟩ := List.forall_mem_cons.mp h
    have hgain : count + gain b = count := by rw [gain_other hb, Int.add_zero]
    rw [List.cons_append, returnFrom_cons_of_ne (by omega), hgain, ih hus, List.length_cons]
    congr 1
    omega

/-- Looking for the closer at some depth is counting down from that depth. -/
theorem closingFrom_eq_returnFrom (pos d : Nat) (cs : List Char) :
    closingFrom pos (d + 1) cs = returnFrom (d + 1) pos (bytes cs) := by
  induction cs generalizing pos d with
  | nil => rfl
  | cons c cs ih =>
    cases hbracket : isBracket c with
    | true =>
      have hnarrow := isNarrow_of_isBracket hbracket
      have hsize := utf8Size_of_isNarrow hnarrow
      obtain ⟨b, hbytes, rfl⟩ := bytes_of_isNarrow hnarrow cs
      rw [hbytes]
      cases hopener : isOpener (octet b) with
      | true =>
        have hgain := gain_opener hopener
        rw [closingFrom_opener hopener, hsize, ih, returnFrom_cons_of_ne (by omega), hgain]
        rfl
      | false =>
        have hcloser : isCloser (octet b) = true := by simpa [isBracket, hopener] using hbracket
        have hgain := gain_closer hcloser
        rw [closingFrom_closer hcloser, hsize]
        cases d with
        | zero => simp [returnFrom, hgain]
        | succ d =>
          have hcount : ((d + 1 : Nat) : Int) + 1 + gain b = d + 1 := by omega
          rw [if_neg (Nat.succ_ne_zero d), ih, returnFrom_cons_of_ne (by omega), hcount]
    | false =>
      have hplain : ∀ b ∈ bytes [c], isBracket (octet b) = false := by
        intro b hb
        rcases isNarrow_or_isWide c with hnarrow | hwide
        · obtain ⟨b', hbytes, rfl⟩ := bytes_of_isNarrow hnarrow []
          rw [hbytes] at hb
          rwa [List.mem_singleton.mp hb]
        · exact isBracket_of_isWide (isWide_of_mem_bytes hwide hb)
      have hlength : (bytes [c]).length = c.utf8Size := length_bytes [c]
      rw [closingFrom_other hbracket, ih, ← List.singleton_append, bytes_append,
        returnFrom_plain (by omega) hplain, hlength]

theorem le_of_returnFrom (h : returnFrom count pos bs = some close) : pos ≤ close := by
  induction bs generalizing count pos with
  | nil => contradiction
  | cons b bs ih =>
    rw [returnFrom] at h
    split at h
    · exact Nat.le_of_eq (Option.some.inj h)
    · exact Nat.le_of_succ_le (ih h)

/-- A count that starts lower is zero sooner. -/
theorem returnFrom_sooner (houter : 0 < outer) (hcount : 0 < count)
    (h : returnFrom (outer + count) pos bs = some close) :
    ∃ stop, returnFrom count pos bs = some stop ∧ pos ≤ stop ∧ stop < close := by
  induction bs generalizing count pos with
  | nil => contradiction
  | cons b bs ih =>
    have hgain := neg_one_le_gain b
    rw [returnFrom_cons_of_ne (by omega)] at h
    have hnext := le_of_returnFrom h
    by_cases hzero : count + gain b = 0
    · exact ⟨pos, if_pos hzero, Nat.le_refl pos, hnext⟩
    · rw [Int.add_assoc] at h
      obtain ⟨stop, hstop, hle, hlt⟩ := ih (by omega) h
      exact ⟨stop, by rw [returnFrom_cons_of_ne hzero, hstop], by omega, hlt⟩

/-- Before a count is zero for the first time it is positive. -/
theorem returnFrom_append (hcount : 0 < count) (h : returnFrom count pos (us ++ bs) = some close)
    (hle : pos + us.length ≤ close) :
    0 < count + excess us ∧ returnFrom (count + excess us) (pos + us.length) bs = some close := by
  induction us generalizing count pos with
  | nil => simpa using ⟨hcount, h⟩
  | cons b us ih =>
    have hgain := neg_one_le_gain b
    rw [List.length_cons] at hle
    have hne : count + gain b ≠ 0 := by
      intro hzero
      rw [List.cons_append, returnFrom, if_pos hzero, Option.some.injEq] at h
      omega
    rw [List.cons_append, returnFrom_cons_of_ne hne] at h
    have hrest := ih (by omega) h (by omega)
    rwa [excess_cons, List.length_cons, ← Int.add_assoc, Nat.add_comm us.length, ← Nat.add_assoc]

/-- The first place is the one where the count is zero and was not before. -/
theorem returnFrom_eq_some_iff : returnFrom count pos bs = some close ↔
    ∃ n, n < bs.length ∧ close = pos + n ∧ count + excess (bs.take (n + 1)) = 0 ∧
      ∀ m < n, count + excess (bs.take (m + 1)) ≠ 0 := by
  induction bs generalizing count pos with
  | nil => simp [returnFrom]
  | cons b bs ih =>
    have htake (n : Nat) : count + excess ((b :: bs).take (n + 1)) =
        count + gain b + excess (bs.take n) := by
      rw [List.take_succ_cons, excess_cons, Int.add_assoc]
    by_cases hzero : count + gain b = 0
    · rw [returnFrom, if_pos hzero, Option.some.injEq]
      constructor
      · rintro rfl
        exact ⟨0, by simp, rfl, by simpa [htake] using hzero, by simp⟩
      · rintro ⟨n, -, rfl, -, hfirst⟩
        cases n with
        | zero => rfl
        | succ n => exact absurd (by simpa [htake] using hzero) (hfirst 0 n.succ_pos)
    · rw [returnFrom_cons_of_ne hzero, ih]
      constructor
      · rintro ⟨n, hn, rfl, hreturn, hfirst⟩
        refine ⟨n + 1, by simpa using hn, by omega, by rwa [htake], fun m hm => ?_⟩
        rw [htake]
        cases m with
        | zero => simpa using hzero
        | succ m => exact hfirst m (by omega)
      · rintro ⟨n, hn, rfl, hreturn, hfirst⟩
        rw [htake] at hreturn
        cases n with
        | zero => exact absurd (by simpa using hreturn) hzero
        | succ n =>
          refine ⟨n, by simpa using hn, by omega, hreturn, fun m hm => ?_⟩
          rw [← htake]
          exact hfirst (m + 1) (by omega)

end Return

/-- An opening bracket stands at byte `n`. -/
def OpensAt (cs : List Char) (n : Nat) : Prop := ∃ c ∈ charAt? cs n, isOpener c

/-- The count from `start` on is zero behind byte `close`, and it is not behind any byte before. -/
def IsFirstReturn (bs : List UInt8) (start close : Nat) : Prop :=
  start ≤ close ∧ close < bs.length ∧ excess (bs.extract start (close + 1)) = 0 ∧
    ∀ n, start ≤ n → n < close → excess (bs.extract start (n + 1)) ≠ 0

section Matching

variable {cs : List Char} {start inner close : Nat}

/-- Behind an opening bracket the count begins at one. -/
theorem OpensAt.findMatching_eq (h : OpensAt cs start) :
    ∃ b rest, (bytes cs).drop start = b :: rest ∧ gain b = 1 ∧
      findMatching cs start = returnFrom 1 (start + 1) rest := by
  obtain ⟨c, hc, hopener⟩ := h
  obtain ⟨xs, ys, rfl, rfl⟩ := eq_of_charAt? hc
  have hnarrow : IsNarrow c := isNarrow_of_isBracket (by simp [isBracket, hopener])
  obtain ⟨b, hbytes, rfl⟩ := bytes_of_isNarrow hnarrow ys
  refine ⟨b, bytes ys, ?_, gain_opener hopener, ?_⟩
  · rw [bytes_append, hbytes, List.drop_left' (length_bytes xs)]
  · rw [findMatching_append hopener, closingFrom_eq_returnFrom]
    rfl

theorem OpensAt.findMatching_eq_some_iff (h : OpensAt cs start) :
    findMatching cs start = some close ↔ IsFirstReturn (bytes cs) start close := by
  obtain ⟨b, rest, hdrop, hgain, hfind⟩ := h.findMatching_eq
  have hlength := congrArg List.length hdrop
  rw [List.length_drop, List.length_cons] at hlength
  have hfrom : findMatching cs start = returnFrom 0 start ((bytes cs).drop start) := by
    rw [hfind, hdrop, returnFrom_cons_of_ne (by omega), hgain]
    rfl
  rw [hfrom, returnFrom_eq_some_iff, IsFirstReturn, List.length_drop]
  constructor
  · rintro ⟨n, hn, rfl, hreturn, hfirst⟩
    refine ⟨by omega, by omega, ?_, fun m hle hlt => ?_⟩
    · rw [Int.zero_add] at hreturn
      rwa [List.extract_eq_take_drop, Nat.add_assoc, Nat.add_sub_cancel_left]
    · have hm := hfirst (m - start) (by omega)
      rwa [Int.zero_add, ← Nat.sub_add_comm hle] at hm
  · rintro ⟨hle, hlt, hreturn, hfirst⟩
    refine ⟨close - start, by omega, by omega, ?_, fun m hm => ?_⟩
    · rwa [Int.zero_add, ← Nat.sub_add_comm hle]
    · have hm' := hfirst (start + m) (by omega) (by omega)
      rwa [List.extract_eq_take_drop, Nat.add_assoc, Nat.add_sub_cancel_left,
        ← Int.zero_add (excess _)] at hm'

/-- A bracket that opens between two matching ones closes between them. -/
theorem OpensAt.findMatching_between (h : OpensAt cs start)
    (hmatch : findMatching cs start = some close) (hinner : OpensAt cs inner)
    (hstart : start < inner) (hclose : inner < close) :
    ∃ stop, findMatching cs inner = some stop ∧ inner < stop ∧ stop < close := by
  obtain ⟨b, rest, hdrop, -, hfind⟩ := h.findMatching_eq
  obtain ⟨b', rest', hdrop', hgain', hfind'⟩ := hinner.findMatching_eq
  have hbehind : rest.drop (inner - (start + 1)) = b' :: rest' := by
    have hrest : (bytes cs).drop (start + 1) = rest := by
      rw [← List.drop_drop, hdrop, List.drop_one, List.tail_cons]
    rw [← hrest, List.drop_drop, Nat.add_sub_cancel' hstart, hdrop']
  have hlength : (rest.take (inner - (start + 1))).length = inner - (start + 1) := by
    have hbound := congrArg List.length hbehind
    rw [List.length_drop, List.length_cons] at hbound
    rw [List.length_take]
    omega
  rw [hfind, ← List.take_append_drop (inner - (start + 1)) rest, hbehind] at hmatch
  obtain ⟨hpos, hcount⟩ := returnFrom_append Int.one_pos hmatch (by omega)
  rw [hlength, Nat.add_sub_cancel' hstart, returnFrom_cons_of_ne (by omega), hgain'] at hcount
  obtain ⟨stop, hstop, hle, hlt⟩ := returnFrom_sooner hpos Int.one_pos hcount
  exact ⟨stop, by rw [hfind', hstop], hle, hlt⟩

end Matching

/-! ### Parts between separators -/

section Extract

variable {bs : List UInt8} {first pos stop : Nat}

theorem extract_self (bs : List UInt8) (pos : Nat) : bs.extract pos pos = [] := by simp

theorem extract_append (hfirst : first ≤ pos) (hstop : pos ≤ stop) :
    bs.extract first pos ++ bs.extract pos stop = bs.extract first stop := by
  have hdrop : bs.drop pos = (bs.drop first).drop (pos - first) := by
    rw [List.drop_drop, Nat.add_sub_cancel' hfirst]
  have hlength : stop - first = pos - first + (stop - pos) := by omega
  rw [List.extract_eq_take_drop, List.extract_eq_take_drop, List.extract_eq_take_drop, hdrop,
    hlength, List.take_add]

theorem extract_cons (hpos : pos < bs.length) (hstop : pos < stop) :
    bs.extract pos stop = bs[pos] :: bs.extract (pos + 1) stop := by
  have hlength : stop - pos = stop - (pos + 1) + 1 := by omega
  rw [List.extract_eq_take_drop, List.drop_eq_getElem_cons hpos, hlength, List.take_succ_cons]

theorem extract_succ (hfirst : first ≤ pos) (hpos : pos < bs.length) :
    bs.extract first (pos + 1) = bs.extract first pos ++ [bs[pos]] := by
  rw [← extract_append hfirst (Nat.le_succ pos), extract_cons hpos (Nat.lt_succ_self pos),
    extract_self]

end Extract

/-- No separator of these bytes stands where the depth of their brackets is zero. -/
def IsUndivided (sep : UInt8) (bs : List UInt8) : Prop :=
  ∀ n, bs[n]? = some sep → depth (bs.take n) ≠ 0

theorem isUndivided_nil (sep : UInt8) : IsUndivided sep [] := fun _ h => by simp at h

theorem IsUndivided.concat {sep b : UInt8} {bs : List UInt8} (h : IsUndivided sep bs)
    (hb : b = sep → depth bs ≠ 0) : IsUndivided sep (bs ++ [b]) := by
  intro n hn
  rcases Nat.lt_trichotomy n bs.length with hlt | rfl | hgt
  · rw [List.getElem?_append_left hlt] at hn
    rw [List.take_append_of_le_length (Nat.le_of_lt hlt)]
    exact h n hn
  · rw [List.getElem?_concat_length, Option.some.injEq] at hn
    rw [List.take_left]
    exact hb hn
  · rw [List.getElem?_eq_none (by simp; omega)] at hn
    contradiction

/-- The ranges cut the bytes from `first` to `stop` at separators, and each of them is undivided. -/
inductive IsSplit (sep : UInt8) (bs : List UInt8) (stop : Nat) : Nat → List (Nat × Nat) → Prop
  | last {first : Nat} (hfirst : first ≤ stop) (hpart : IsUndivided sep (bs.extract first stop)) :
    IsSplit sep bs stop first [(first, stop)]
  | cons {first pos : Nat} {ranges : List (Nat × Nat)} (hfirst : first ≤ pos) (hpos : pos < stop)
    (hsep : bs[pos]? = some sep) (hpart : IsUndivided sep (bs.extract first pos))
    (hrest : IsSplit sep bs stop (pos + 1) ranges) :
    IsSplit sep bs stop first ((first, pos) :: ranges)

theorem isSplit_splitBytesFrom {sep : UInt8} (hsep : isBracket (octet sep) = false)
    {bs : List UInt8} {stop n first pos : Nat} (hn : stop = pos + n) (hfirst : first ≤ pos)
    (hstop : stop ≤ bs.length) (hpart : IsUndivided sep (bs.extract first pos)) :
    IsSplit sep bs stop first
      (splitBytesFrom sep stop first pos (depth (bs.extract first pos)) (bs.extract pos stop)) := by
  induction n generalizing first pos with
  | zero =>
    obtain rfl : stop = pos := hn
    rw [extract_self, splitBytesFrom]
    exact .last hfirst hpart
  | succ n ih =>
    have hpos : pos < bs.length := by omega
    -- The reading goes on in the same part unless the byte is a separator at depth zero.
    have hon (hb : bs[pos] = sep → depth (bs.extract first pos) ≠ 0) : IsSplit sep bs stop first
        (splitBytesFrom sep stop first (pos + 1) (depth (bs.extract first pos ++ [bs[pos]]))
          (bs.extract (pos + 1) stop)) := by
      have hgrown := hpart.concat hb
      rw [← extract_succ hfirst hpos] at hgrown ⊢
      exact ih (by omega) (by omega) hgrown
    have hbracket (hb : isBracket (octet bs[pos]) = true) (heq : bs[pos] = sep) :
        depth (bs.extract first pos) ≠ 0 := by
      rw [heq, hsep] at hb
      contradiction
    rw [extract_cons hpos (by omega), splitBytesFrom]
    split
    · next hopener =>
      have hnext := hon (hbracket (by simp [isBracket, hopener]))
      rwa [depth_opener hopener] at hnext
    · next hopener =>
      split
      · next hcloser =>
        have hnext := hon (hbracket (by simp [isBracket, hcloser]))
        rwa [depth_closer hcloser] at hnext
      · next hcloser =>
        split
        · next hcut =>
          obtain ⟨heq, hzero⟩ : bs[pos] = sep ∧ depth (bs.extract first pos) = 0 := by
            simpa using hcut
          have hnext := @ih (pos + 1) (pos + 1) (by omega) (Nat.le_refl _)
            (by rw [extract_self]; exact isUndivided_nil sep)
          rw [extract_self, depth_nil, ← hzero] at hnext
          exact .cons hfirst (by omega) (by rw [List.getElem?_eq_getElem hpos, heq]) hpart hnext
        · next hcut =>
          have hnext := hon fun heq hzero => hcut (by simp [heq, hzero])
          rwa [depth_other (by simp [isBracket, hopener, hcloser])] at hnext

/-- The ranges are the parts of the bytes from `start` to `stop`, in order: with the separator
between them they are these bytes again, and none of them can be divided. -/
structure Divides (sep : UInt8) (bs : List UInt8) (start stop : Nat) (ranges : List (Nat × Nat)) :
    Prop where
  bounds : ∀ r ∈ ranges, start ≤ r.1 ∧ r.1 ≤ r.2 ∧ r.2 ≤ stop
  ordered : ranges.Pairwise fun r r' => r.2 < r'.1
  rejoined : [sep].intercalate (ranges.map fun r => bs.extract r.1 r.2) = bs.extract start stop
  undivided : ∀ r ∈ ranges, IsUndivided sep (bs.extract r.1 r.2)

namespace IsSplit

variable {sep : UInt8} {bs : List UInt8} {stop first : Nat} {ranges : List (Nat × Nat)}

theorem ne_nil (h : IsSplit sep bs stop first ranges) : ranges ≠ [] := by
  cases h <;> exact List.cons_ne_nil _ _

theorem bounds (h : IsSplit sep bs stop first ranges) :
    ∀ r ∈ ranges, first ≤ r.1 ∧ r.1 ≤ r.2 ∧ r.2 ≤ stop := by
  induction h with
  | last hfirst => simpa using hfirst
  | cons hfirst hpos _ _ _ ih =>
    rw [List.forall_mem_cons]
    exact ⟨⟨Nat.le_refl _, hfirst, Nat.le_of_lt hpos⟩, fun r hr => by have := ih r hr; omega⟩

theorem ordered (h : IsSplit sep bs stop first ranges) :
    ranges.Pairwise fun r r' => r.2 < r'.1 := by
  induction h with
  | last => exact List.pairwise_singleton _ _
  | cons _ _ _ _ hrest ih => exact List.pairwise_cons.mpr ⟨fun r hr => (hrest.bounds r hr).1, ih⟩

theorem rejoined (h : IsSplit sep bs stop first ranges) :
    [sep].intercalate (ranges.map fun r => bs.extract r.1 r.2) = bs.extract first stop := by
  induction h with
  | last => simp
  | @cons first pos ranges hfirst hpos hsep _ hrest ih =>
    obtain ⟨hlt, rfl⟩ := List.getElem?_eq_some_iff.mp hsep
    rw [List.map_cons, List.intercalate_cons_of_ne_nil (by simpa using hrest.ne_nil), ih,
      List.append_assoc, List.singleton_append, ← extract_cons hlt hpos,
      extract_append hfirst (Nat.le_of_lt hpos)]

theorem undivided (h : IsSplit sep bs stop first ranges) :
    ∀ r ∈ ranges, IsUndivided sep (bs.extract r.1 r.2) := by
  induction h with
  | last _ hpart => simpa using hpart
  | cons _ _ _ hpart _ ih => exact List.forall_mem_cons.mpr ⟨hpart, ih⟩

end IsSplit

theorem divides_splitBytes {sep : UInt8} (hsep : isBracket (octet sep) = false) {bs : List UInt8}
    {start stop : Nat} (hstart : start ≤ stop) (hstop : stop ≤ bs.length) :
    Divides sep bs start stop (splitBytes sep bs start stop) := by
  have hsplit : IsSplit sep bs stop start (splitBytes sep bs start stop) := by
    have hfrom :=
      @isSplit_splitBytesFrom sep hsep bs stop (stop - start) start start (by omega)
        (Nat.le_refl start) hstop (by rw [extract_self]; exact isUndivided_nil sep)
    rwa [extract_self, depth_nil] at hfrom
  exact ⟨hsplit.bounds, hsplit.ordered, hsplit.rejoined, hsplit.undivided⟩

/-! ### Separators that are characters -/

section Character

variable {c : Char} {sep : UInt8} {stop first pos d : Nat} {us bs : List UInt8}

/-- Bytes that are neither brackets nor separators stay in the part. -/
theorem splitBytesFrom_plain (h : ∀ b ∈ us, isBracket (octet b) = false ∧ b ≠ sep) :
    splitBytesFrom sep stop first pos d (us ++ bs) =
      splitBytesFrom sep stop first (pos + us.length) d bs := by
  induction us generalizing pos with
  | nil => rfl
  | cons b us ih =>
    obtain ⟨⟨hbracket, hne⟩, hus⟩ := List.forall_mem_cons.mp h
    obtain ⟨hopener, hcloser⟩ := Bool.or_eq_false_iff.mp hbracket
    have hlength : pos + (b :: us).length = pos + 1 + us.length := by rw [List.length_cons]; omega
    rw [List.cons_append, splitBytesFrom, hlength, ← ih hus]
    simp [hopener, hcloser, hne]

theorem splitBytesFrom_take_plain (h : ∀ b ∈ us, isBracket (octet b) = false ∧ b ≠ sep) :
    splitBytesFrom sep stop first pos d ((us ++ bs).take (stop - pos)) =
      splitBytesFrom sep stop first (pos + us.length) d (bs.take (stop - (pos + us.length))) := by
  rw [List.take_append, splitBytesFrom_plain fun b hb => h b (List.mem_of_mem_take hb),
    List.length_take, Nat.sub_sub]
  -- The bytes may reach over the end of the range.
  by_cases hover : stop ≤ pos + us.length
  · rw [Nat.sub_eq_zero_of_le hover, List.take_zero, splitBytesFrom, splitBytesFrom]
  · rw [Nat.min_eq_right (by omega)]

theorem toNat_octet (b : UInt8) : (octet b).toNat = b.toNat := by
  have hvalid : b.toNat.isValidChar := Or.inl (Nat.lt_trans b.toNat_lt (by decide))
  rw [octet, Char.ofNat, dif_pos hvalid]
  rfl

theorem octet_eq_iff {b : UInt8} (hc : IsNarrow c) : octet b = c ↔ b = c.toUInt8 := by
  have hcode : c.toUInt8.toNat = c.toNat := by
    show c.toNat % 256 = c.toNat
    have : c.toNat < 128 := hc
    omega
  rw [← UInt8.toNat_inj, hcode, ← toNat_octet, Char.toNat_inj]

/-- A byte of a longer character is no bracket and no character of ASCII. -/
theorem plain_of_isWide {b : UInt8} (hc : IsNarrow c) (hb : IsWide (octet b)) :
    isBracket (octet b) = false ∧ b ≠ c.toUInt8 := by
  refine ⟨isBracket_of_isWide hb, fun heq => ?_⟩
  exact ne_of_isNarrow hc hb ((octet_eq_iff hc).mpr heq).symm

/-- For a character of ASCII reading the characters and reading the bytes is the same. -/
theorem splitFrom_eq_splitBytesFrom (hc : IsNarrow c) (cs : List Char) :
    splitFrom c stop first pos d cs = splitBytesFrom c.toUInt8 stop first pos d
      ((bytes cs).take (stop - pos)) := by
  induction cs generalizing first pos d with
  | nil => simp [splitFrom, bytes, splitBytesFrom]
  | cons x cs ih =>
    by_cases hstop : stop ≤ pos
    · rw [Nat.sub_eq_zero_of_le hstop, List.take_zero, splitBytesFrom, splitFrom]
      exact if_pos hstop
    · rw [splitFrom, if_neg hstop]
      simp only [ih]
      rcases isNarrow_or_isWide x with hx | hx
      · obtain ⟨b, hbytes, rfl⟩ := bytes_of_isNarrow hx cs
        have hlength : stop - pos = stop - (pos + 1) + 1 := by omega
        have hsep : (octet b == c) = (b == c.toUInt8) := by
          rw [Bool.eq_iff_iff, beq_iff_eq, beq_iff_eq, octet_eq_iff hc]
        rw [hbytes, hlength, List.take_succ_cons, splitBytesFrom, utf8Size_of_isNarrow hx, hsep]
      · obtain ⟨hopener, hcloser⟩ := Bool.or_eq_false_iff.mp (isBracket_of_isWide hx)
        have hne : (x == c) = false := beq_false_of_ne (ne_of_isNarrow hc hx).symm
        have hbytes : bytes (x :: cs) = bytes [x] ++ bytes cs := bytes_append [x] cs
        have hsize : (bytes [x]).length = x.utf8Size := length_bytes [x]
        rw [hbytes, splitBytesFrom_take_plain fun b hb => plain_of_isWide hc
          (isWide_of_mem_bytes hx hb), hsize]
        simp only [hopener, hcloser, hne, Bool.false_eq_true, if_false, Bool.false_and]

/-- What is sought out begins behind the rest of the character that the place is in. -/
theorem exists_drop_bytes {n : Nat} {cs : List Char} (h : n ≤ width cs) (start : Nat) :
    ∃ gap, (bytes cs).drop n = gap ++ bytes (seek start n cs).2 ∧
      (seek start n cs).1 = start + n + gap.length ∧ ∀ b ∈ gap, IsWide (octet b) := by
  induction cs generalizing n start with
  | nil =>
    obtain rfl : n = 0 := Nat.le_zero.mp h
    exact ⟨[], rfl, rfl, by simp⟩
  | cons c cs ih =>
    have hbytes : bytes (c :: cs) = bytes [c] ++ bytes cs := bytes_append [c] cs
    have hsize : (bytes [c]).length = c.utf8Size := length_bytes [c]
    cases n with
    | zero => exact ⟨[], rfl, rfl, by simp⟩
    | succ n =>
      have hseek : seek start (n + 1) (c :: cs) =
          seek (start + c.utf8Size) (n + 1 - c.utf8Size) cs := rfl
      rw [hseek, hbytes, List.drop_append, hsize]
      rw [width_cons] at h
      by_cases hle : c.utf8Size ≤ n + 1
      · obtain ⟨gap, hdrop, hpos, hgap⟩ := @ih (n + 1 - c.utf8Size) (by omega) (start + c.utf8Size)
        refine ⟨gap, ?_, by omega, hgap⟩
        rw [List.drop_eq_nil_of_le (by omega), List.nil_append, hdrop]
      · have hwide : IsWide c := by
          rcases isNarrow_or_isWide c with hnarrow | hwide
          · rw [utf8Size_of_isNarrow hnarrow] at hle
            omega
          · exact hwide
        have hwithin : n + 1 - c.utf8Size = 0 := by omega
        have hfound : seek (start + c.utf8Size) 0 cs = (start + c.utf8Size, cs) := by
          cases cs <;> rfl
        rw [hwithin, hfound]
        refine ⟨(bytes [c]).drop (n + 1), rfl, ?_, fun b hb =>
          isWide_of_mem_bytes hwide (List.mem_of_mem_drop hb)⟩
        rw [List.length_drop, hsize]
        omega

theorem splitTopLevel_eq_splitBytes (hc : IsNarrow c) {cs : List Char} {start : Nat}
    (hstart : start ≤ width cs) :
    splitTopLevel c cs start stop = splitBytes c.toUInt8 (bytes cs) start stop := by
  obtain ⟨gap, hdrop, hpos, hgap⟩ := exists_drop_bytes hstart 0
  rw [Nat.zero_add] at hpos
  rw [splitTopLevel, splitBytes, List.extract_eq_take_drop, hdrop,
    splitBytesFrom_take_plain fun b hb => plain_of_isWide hc (hgap b hb), ← hpos]
  exact splitFrom_eq_splitBytesFrom hc _

end Character

/-! ### Agreement -/

/-- The bracket that closes another one is where the count returns to zero, and what opens
between the two closes between them. The ranges between separators, which may be any bytes but
brackets, divide their text at the depth of its own brackets; a separator of ASCII divides
characters as it divides bytes. -/
theorem brackets_agree (cs : List Char) :
    (∀ start, OpensAt cs start → ∀ close,
      (findMatching cs start = some close ↔ IsFirstReturn (bytes cs) start close) ∧
      (findMatching cs start = some close → ∀ inner, OpensAt cs inner → start < inner →
        inner < close → ∃ stop, findMatching cs inner = some stop ∧ inner < stop ∧ stop < close)) ∧
    ∀ start stop, start ≤ stop → stop ≤ width cs →
      (∀ sep, isBracket (octet sep) = false →
        Divides sep (bytes cs) start stop (splitBytes sep (bytes cs) start stop)) ∧
      ∀ c, IsNarrow c → splitTopLevel c cs start stop =
        splitBytes c.toUInt8 (bytes cs) start stop := by
  refine ⟨fun start hstart close => ⟨hstart.findMatching_eq_some_iff, ?_⟩,
    fun start stop hle hstop => ⟨?_, ?_⟩⟩
  · intro hmatch inner hinner hlt hlt'
    exact hstart.findMatching_between hmatch hinner hlt hlt'
  · intro sep hsep
    exact divides_splitBytes hsep hle (by rwa [length_bytes])
  · intro c hc
    exact splitTopLevel_eq_splitBytes hc (Nat.le_trans hle hstop)

/-- A call with arguments in brackets of two kinds; a comma divides its argument list, and the last
byte of a longer character divides that character. -/
theorem brackets_agree_call :
    ∃ cs, cs = "f(a, (é), [b,c]), d".toList ∧ IsFirstReturn (bytes cs) 1 16 ∧
      (∃ stop, findMatching cs 11 = some stop ∧ 11 < stop ∧ stop < 16) ∧
      Divides 0x2C (bytes cs) 2 16 [(2, 3), (4, 9), (10, 16)] ∧
      Divides 0xA9 (bytes cs) 6 8 [(6, 7), (8, 8)] ∧
      splitTopLevel ',' cs 2 16 = [(2, 3), (4, 9), (10, 16)] := by
  let cs := "f(a, (é), [b,c]), d".toList
  have hopen : OpensAt cs 1 := ⟨'(', rfl, rfl⟩
  have hinner : OpensAt cs 11 := ⟨'[', rfl, rfl⟩
  have hclose : findMatching cs 1 = some 16 := by decide +kernel
  have hwidth : width cs = 20 := by decide +kernel
  have hcomma : splitBytes 0x2C (bytes cs) 2 16 = [(2, 3), (4, 9), (10, 16)] := by decide +kernel
  have hbyte : splitBytes 0xA9 (bytes cs) 6 8 = [(6, 7), (8, 8)] := by decide +kernel
  obtain ⟨hmatch, hsplit⟩ := brackets_agree cs
  obtain ⟨hreturn, hnested⟩ := hmatch 1 hopen 16
  obtain ⟨hdivides, hsame⟩ := hsplit 2 16 (by decide) (by omega)
  have hcut := hdivides 0x2C (by decide +kernel)
  have hcut' := (hsplit 6 8 (by decide) (by omega)).1 0xA9 (by decide +kernel)
  rw [hcomma] at hcut
  rw [hbyte] at hcut'
  refine ⟨cs, rfl, hreturn.mp hclose, hnested hclose 11 hinner (by decide) (by decide), hcut, hcut',
    ?_⟩
  exact (hsame ',' (by decide)).trans hcomma

end EndpointCensus.Text
