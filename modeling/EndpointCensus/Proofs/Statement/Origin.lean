import EndpointCensus.Proofs.Line.Partition
import EndpointCensus.Proofs.Statement.Tracing

/-!
The line of a byte. The entries of a statement ascend, so the search by halving ends at
the last line that was entered at the byte asked for or before it, and that is the line
the byte was copied from.
-/

namespace EndpointCensus

/-! ### Halving -/

/-- What the search ends with in the window of `size` entries from `base` on. -/
structure Halved (starts : Array (Nat × Nat)) (offset base size found : Nat) : Prop where
  window : base ≤ found ∧ found < base + size
  here : found = base ∨ ∃ e, starts[found]? = some e ∧ e.1 ≤ offset
  behind : ∀ j e, found < j → j < base + size → starts[j]? = some e → offset < e.1

theorem ascends {starts : Array (Nat × Nat)} (hstarts : starts.toList.Pairwise fun e f => e.1 ≤ f.1)
    {i j : Nat} (hij : i ≤ j) {e f : Nat × Nat} (he : starts[i]? = some e)
    (hf : starts[j]? = some f) : e.1 ≤ f.1 := by
  rcases Nat.lt_or_eq_of_le hij with hlt | rfl
  · rw [← Array.getElem?_toList, List.getElem?_eq_some_iff] at he hf
    obtain ⟨hi, rfl⟩ := he
    obtain ⟨hj, rfl⟩ := hf
    exact List.pairwise_iff_getElem.mp hstarts i j hi hj hlt
  · obtain rfl := Option.some.inj (he.symm.trans hf)
    exact Nat.le_refl _

theorem halved_halve {starts : Array (Nat × Nat)}
    (hstarts : starts.toList.Pairwise fun e f => e.1 ≤ f.1) (offset base size : Nat)
    (hsize : 0 < size) (hwindow : base + size ≤ starts.size) :
    Halved starts offset base size (Statement.halve starts offset base size) := by
  fun_induction Statement.halve starts offset base size with
  | case1 base size hsplit half base' ih =>
    have hhalf : 0 < half ∧ half < size ∧ half ≤ size - half := by omega
    have hstop : base + half + (size - half) = base + size := by omega
    obtain ⟨e, he⟩ : ∃ e, starts[base + half]? = some e :=
      ⟨starts[base + half], Array.getElem?_eq_getElem (by omega)⟩
    have hbase : base' = if e.1 ≤ offset then base + half else base := by
      simp only [base', he, dite_eq_ite]
    clear_value base' half
    by_cases hstart : e.1 ≤ offset
    · rw [if_pos hstart] at hbase
      rw [hbase] at ih ⊢
      obtain ⟨hwindow', hhere, hbehind⟩ := ih (by omega) (by omega)
      rw [hstop] at hwindow' hbehind
      refine ⟨⟨Nat.le_of_add_right_le hwindow'.1, hwindow'.2⟩, .inr ?_, hbehind⟩
      rcases hhere with hhere | hhere
      · rw [hhere]
        exact ⟨e, he, hstart⟩
      · exact hhere
    · rw [if_neg hstart] at hbase
      rw [hbase] at ih ⊢
      obtain ⟨hwindow', hhere, hbehind⟩ := ih (by omega) (by omega)
      refine ⟨⟨hwindow'.1, by omega⟩, hhere, fun j f hj hj' hf => ?_⟩
      by_cases hinside : j < base + (size - half)
      · exact hbehind j f hj hinside hf
      · -- the entries behind the middle one start no earlier than it
        have hle : e.1 ≤ f.1 := ascends hstarts (by omega) he hf
        omega
  | case2 base size hsplit =>
    refine ⟨⟨Nat.le_refl base, by omega⟩, .inl rfl, fun j e hj hj' _ => ?_⟩
    omega

/-! ### The line of a byte -/

/-- The entries at or before a byte are those up to the last one. -/
theorem takeWhile_eq_take {entries : List (Nat × Nat)}
    (hentries : entries.Pairwise fun e f => e.1 ≤ f.1) {offset i : Nat} {e : Nat × Nat}
    (he : entries[i]? = some e) (hle : e.1 ≤ offset)
    (hbehind : ∀ j f, i < j → entries[j]? = some f → offset < f.1) :
    entries.takeWhile (fun f => f.1 ≤ offset) = entries.take (i + 1) := by
  obtain ⟨hi, rfl⟩ := List.getElem?_eq_some_iff.mp he
  have hbefore : ∀ f ∈ entries.take (i + 1), decide (f.1 ≤ offset) = true := by
    intro f hf
    obtain ⟨j, hj, rfl⟩ := List.mem_take_iff_getElem.mp hf
    refine decide_eq_true (Nat.le_trans ?_ hle)
    rcases Nat.lt_or_ge j i with hlt | hge
    · exact List.pairwise_iff_getElem.mp hentries j i (by omega) hi hlt
    · obtain rfl : j = i := by omega
      exact Nat.le_refl _
  have hafter : (entries.drop (i + 1)).takeWhile (fun f => f.1 ≤ offset) = [] := by
    rw [List.takeWhile_eq_nil_iff]
    intro hlength
    rw [List.get_eq_getElem, List.getElem_drop, decide_eq_true_iff, Nat.not_le]
    exact hbehind (i + 1 + 0) _ (by omega) (List.getElem?_eq_getElem _)
  conv_lhs => rw [← List.take_append_drop (i + 1) entries]
  rw [List.takeWhile_append_of_pos hbefore, hafter, List.append_nil]

namespace Statement

variable {texts : Nat → List Char} {s : Statement}

/-- The line of the last entry at or before the byte. -/
theorem lineAt_eq (hstarts : s.lineStarts.toList.Pairwise fun e f => e.1 ≤ f.1) (offset : Nat) :
    s.lineAt offset =
      ((s.lineStarts.toList.takeWhile fun e => e.1 ≤ offset).getLast?.map Prod.snd).getD
        s.startLine := by
  by_cases hsize : s.lineStarts.size = 0
  · have hnone : s.lineStarts = #[] := Array.eq_empty_of_size_eq_zero hsize
    simp [lineAt, hnone]
  · have hhalved := halved_halve hstarts offset 0 s.lineStarts.size (by omega) (by omega)
    unfold lineAt
    generalize halve s.lineStarts offset 0 s.lineStarts.size = found at hhalved
    obtain ⟨⟨-, hfound⟩, hhere, hbehind⟩ := hhalved
    rw [Nat.zero_add] at hfound hbehind
    have hbehind' : ∀ j f, found < j → s.lineStarts.toList[j]? = some f → offset < f.1 := by
      intro j f hj hf
      rw [Array.getElem?_toList] at hf
      exact hbehind j f hj (Array.getElem?_eq_some_iff.mp hf).1 hf
    have he : s.lineStarts[found]? = some s.lineStarts[found] := Array.getElem?_eq_getElem hfound
    rw [he]
    by_cases hle : s.lineStarts[found].1 ≤ offset
    · have htake := takeWhile_eq_take hstarts (Array.getElem?_toList.trans he) hle hbehind'
      rw [htake, List.getLast?_take, if_neg (Nat.succ_ne_zero found), Nat.add_sub_cancel,
        Array.getElem?_toList, he]
      simp [hle]
    · have hnone : (s.lineStarts.toList.takeWhile fun e => e.1 ≤ offset) = [] := by
        rw [List.takeWhile_eq_nil_iff]
        intro hlength
        rcases hhere with rfl | ⟨e, he', hle'⟩
        · simpa using hle
        · obtain rfl := Option.some.inj (he'.symm.trans he)
          exact absurd hle' hle
      rw [hnone]
      simp [hle]

/-- The line of the byte at `offset` of cells, if the character was copied from one. -/
def originIn : List Cell → Nat → Option Nat
  | [], _ => none
  | c :: cells, offset =>
    if offset < c.char.utf8Size then c.line else originIn cells (offset - c.char.utf8Size)

/-- The line that the byte at `offset` was copied from. Past the end there is none. -/
def origin? (s : Statement) (offset : Nat) : Option Nat := originIn s.cells offset

theorem exists_of_originIn {cells : List Cell} {offset line : Nat}
    (h : originIn cells offset = some line) :
    ∃ before c after, cells = before ++ c :: after ∧ c.line = some line ∧
      cellWidth before ≤ offset ∧ offset < cellWidth (before ++ [c]) := by
  induction cells generalizing offset with
  | nil => contradiction
  | cons c cells ih =>
    have hcons (more : List Cell) : cellWidth (c :: more) = c.char.utf8Size + cellWidth more := rfl
    unfold originIn at h
    split at h
    · next hlt => exact ⟨[], c, cells, rfl, h, Nat.zero_le offset, by simpa [cellWidth] using hlt⟩
    · next hge =>
      obtain ⟨before, d, after, rfl, hline, hbefore, hafter⟩ := ih h
      refine ⟨c :: before, d, after, rfl, hline, ?_, ?_⟩
      · rw [hcons]
        omega
      · rw [List.cons_append, hcons]
        omega

namespace Traced

theorem starts (h : s.Traced texts) : s.lineStarts.toList.Pairwise fun e f => e.1 ≤ f.1 :=
  h.ascending.imp And.left

/-- A byte is on the line it was copied from. -/
theorem lineAt_eq_of_origin (h : s.Traced texts) {offset line : Nat}
    (ho : s.origin? offset = some line) : s.lineAt offset = line := by
  obtain ⟨before, c, after, hcells, hline, hbefore, hafter⟩ := exists_of_originIn ho
  rcases h.located before c after hcells with rfl | ⟨later, start, line', earlier, hline', hentries,
    hstart, hlater⟩
  · contradiction
  obtain rfl : line' = line := Option.some.inj (hline'.symm.trans hline)
  have hsplit : s.lineStarts.toList = earlier.reverse ++ (start, line') :: later.reverse := by
    rw [← List.reverse_reverse s.lineStarts.toList, hentries]
    simp
  have hhere : s.lineStarts.toList[earlier.length]? = some (start, line') := by simp [hsplit]
  have htake := takeWhile_eq_take h.starts hhere (Nat.le_trans hstart hbefore) fun j f hj hf => by
    have hmem : f ∈ later := by
      rw [hsplit, List.getElem?_append_right (by rw [List.length_reverse]; omega),
        List.length_reverse] at hf
      obtain ⟨k, hk⟩ : ∃ k, j - earlier.length = k + 1 := ⟨j - earlier.length - 1, by omega⟩
      rw [hk, List.getElem?_cons_succ] at hf
      exact List.mem_reverse.mp (List.mem_of_getElem? hf)
    exact Nat.lt_of_lt_of_le hafter (hlater f hmem)
  rw [lineAt_eq h.starts, htake, List.getLast?_take, if_neg (Nat.succ_ne_zero _),
    Nat.add_sub_cancel, hhere]
  rfl

/-- The line of a byte is one of the statement. -/
theorem lineAt_mem (h : s.Traced texts) (offset : Nat) :
    s.startLine ≤ s.lineAt offset ∧ s.lineAt offset ≤ s.endLine := by
  rw [lineAt_eq h.starts]
  cases hlast : (s.lineStarts.toList.takeWhile fun e => e.1 ≤ offset).getLast? with
  | none => exact ⟨Nat.le_refl _, h.span⟩
  | some e => exact h.lines e (List.takeWhile_subset _ (List.mem_of_getLast? hlast))

/-- Later bytes are on later lines. -/
theorem lineAt_mono (h : s.Traced texts) {offset offset' : Nat} (hle : offset ≤ offset') :
    s.lineAt offset ≤ s.lineAt offset' := by
  rw [lineAt_eq h.starts offset]
  cases hlast : (s.lineStarts.toList.takeWhile fun e => e.1 ≤ offset).getLast? with
  | none => exact (h.lineAt_mem offset').1
  | some e =>
    obtain ⟨front, hfront⟩ := List.getLast?_eq_some_iff.mp hlast
    have hboth : (s.lineStarts.toList.takeWhile fun e => e.1 ≤ offset) =
        (s.lineStarts.toList.takeWhile fun e => e.1 ≤ offset').takeWhile fun e => e.1 ≤ offset := by
      have hand : (fun e : Nat × Nat => decide (e.1 ≤ offset)) =
          fun e => decide (e.1 ≤ offset) && decide (e.1 ≤ offset') := by
        funext e
        by_cases he : e.1 ≤ offset
        · simp [he, Nat.le_trans he hle]
        · simp [he]
      rw [List.takeWhile_takeWhile]
      simpa using congrArg (List.takeWhile · s.lineStarts.toList) hand
    obtain ⟨more, hmore⟩ : (front ++ [e]) <+: s.lineStarts.toList.takeWhile fun e =>
        e.1 ≤ offset' := by
      rw [← hfront, hboth]
      exact List.takeWhile_prefix _
    have hascending := h.ascending.sublist (List.takeWhile_sublist fun e => decide (e.1 ≤ offset'))
    rw [← hmore] at hascending
    rw [lineAt_eq h.starts offset', ← hmore]
    cases hmost : more.getLast? with
    | none =>
      obtain rfl := List.getLast?_eq_none_iff.mp hmost
      simp
    | some f =>
      have hbehind :=
        (List.pairwise_append.mp hascending).2.2 e (by simp) f (List.mem_of_getLast? hmost)
      rw [List.getLast?_append, hmost]
      exact Nat.le_of_lt hbehind.2

end Traced

end Statement

/-! ### The lines of a text -/

/-- The physical line of a text by its number. -/
def sourceLine (cs : List Char) (number : Nat) : List Char :=
  (physicalLines cs)[number - 1]?.getD []

theorem text_eq_sourceLine {language : Language} {cs : List Char} {l : Line}
    (hl : l ∈ (classify language cs).lines) : l.text = sourceLine cs l.number := by
  obtain ⟨i, hi, rfl⟩ := List.mem_iff_getElem.mp hl
  have hnumbers : (classify language cs).lines.map Line.number =
      List.range' 1 (physicalLines cs).length :=
    map_number_scanLines language 1 .code (physicalLines cs)
  have htexts : (classify language cs).lines.map Line.text = physicalLines cs :=
    map_text_scanLines language 1 .code (physicalLines cs)
  have hnumber : (classify language cs).lines[i].number = 1 + i := by
    rw [← List.getElem_map Line.number (h := by simpa using hi)]
    simp only [hnumbers, List.getElem_range', Nat.one_mul]
  have htext : (physicalLines cs)[i]? = some (classify language cs).lines[i].text := by
    rw [← htexts, List.getElem?_map, List.getElem?_eq_getElem hi, Option.map_some]
  rw [sourceLine, hnumber, Nat.add_sub_cancel_left, htext, Option.getD_some]

theorem liveText_sublist (segments : List Segment) :
    (liveText segments).Sublist (segments.flatMap Segment.chars) := by
  induction segments with
  | nil => exact List.Sublist.refl _
  | cons s rest ih =>
    rw [liveText_cons, List.flatMap_cons]
    refine List.Sublist.append ?_ ih
    split
    · exact List.nil_sublist _
    · exact List.Sublist.refl _

/-- A statement tells the lines of its bytes: its characters are copied from physical lines, in
order, with nothing between them but the spaces at joins, and each is reported on its line. -/
structure Statement.TellsLines (cs : List Char) (s : Statement) : Prop where
  copied : ∀ number, (charsFrom number s.cells).Sublist (sourceLine cs number)
  joined : ∀ c ∈ s.cells, c.line = none → c = .joint
  lineAt : ∀ offset number, s.origin? offset = some number → s.lineAt offset = number
  within : ∀ offset, s.startLine ≤ s.lineAt offset ∧ s.lineAt offset ≤ s.endLine
  ascending : ∀ offset offset', offset ≤ offset' → s.lineAt offset ≤ s.lineAt offset'

/-- The line that a statement reports for a byte is the one the byte was copied from, in every text
where no line of code ends in two backslashes. -/
theorem tellsLines_of_mem_readStatements {language : Language} {cs : List Char}
    (h : ∀ l ∈ (classify language cs).readable, continuesTwice l.lastCode = false) {s : Statement}
    (hs : s ∈ (readStatements language cs).statements) : s.TellsLines cs := by
  have htraced : s.Traced (sourceLine cs) := by
    refine Statement.good_of_mem_readStatements
      (fun l hl n hn => Draft.keptOn_traced ?_ (h l hl) hn) (fun n d t hd ht => ?_) hs
    · rw [← text_eq_sourceLine ((classify language cs).prefix_lines.subset hl)]
      exact liveText_sublist l.segments
    · exact (hd.onLine (p := {}) (Nat.lt_succ_self n) (LinePart.consistent_of_seen rfl)).finish rfl
        (List.nil_sublist _) ht
  refine ⟨htraced.copied, fun c hc hline => ?_, fun _ _ => htraced.lineAt_eq_of_origin,
    htraced.lineAt_mem, fun _ _ => htraced.lineAt_mono⟩
  obtain ⟨before, after, hcells⟩ := List.append_of_mem hc
  rcases htraced.located before c after hcells with rfl | ⟨_, _, line, _, hline', -⟩
  · rfl
  · rw [hline] at hline'
    contradiction

/-- A literal over two lines, a blank line and continuations. -/
theorem tellsLines_of_mem_readStatements_continued :
    let cs := "a + \\\n\n'''b\nc''' + \\\n  d".toList
    ∃ s ∈ (readStatements .python cs).statements,
      s.TellsLines cs ∧ s.lineAt 4 = 3 ∧ s.lineAt 16 = 5 := by
  intro cs
  obtain ⟨s, hs, hlines⟩ : ∃ s ∈ (readStatements .python cs).statements, s.lineAt 4 = 3 ∧
      s.lineAt 16 = 5 := by
    decide +kernel
  exact ⟨s, hs, tellsLines_of_mem_readStatements (by decide +kernel) hs, hlines⟩

/-- Behind a line that ends in two backslashes a blank line takes the second one with it. The
entries are out of order then, and the byte of `b` is reported on the wrong line. -/
theorem lineAt_ne_origin :
    ∃ s ∈ (readStatements .python "a \\ \\\n \nb".toList).statements,
      s.text = "a b".toList ∧ s.origin? 2 = some 3 ∧ s.lineAt 2 = 1 := by
  decide +kernel

end EndpointCensus
