import EndpointCensus.Proofs.Statement.Alike
import EndpointCensus.Proofs.Statement.Seam

/-!
Spellings on one line and on two. A space in the code of a statement whose brackets are open may be
written as a line break with the indentation of the line: the statements are the same, and so is
what they show. Up to the space both texts are read alike. There the one draft takes the space, and
the other enters a line, which puts a space as well.
-/

namespace EndpointCensus

/-! ### Drafts at the break -/

namespace Draft

variable {d : Draft} {n : Nat}

/-- What every draft keeps up to line `n`: its number of bytes, and the line
that was entered last. -/
structure Tracked (n : Nat) (d : Draft) : Prop where
  measured : d.Measured
  endLine : ∀ line, d.lastLine = some line → d.endLine = line
  startLine : d.startLine ≤ n

namespace Tracked

theorem append (h : d.Tracked n) (cells : List Cell) : (d.append cells).Tracked n := by
  have hlines : (d.append cells).endLine = d.endLine ∧
      (d.append cells).startLine = d.startLine := by
    unfold Draft.append
    split <;> exact ⟨rfl, rfl⟩
  refine ⟨h.measured.append cells, fun line hline => ?_, by rw [hlines.2]; exact h.startLine⟩
  rw [lastLine_append] at hline
  rw [hlines.1]
  exact h.endLine line hline

theorem enterLine (h : d.Tracked n) (line : Nat) : (d.enterLine line).Tracked n := by
  unfold Draft.enterLine
  split
  · exact h
  · refine ⟨?_, fun m hm => Option.some.inj hm, ?_⟩
    · show (if d.width == 0 then d else d.trimCode.append [.joint]).Measured
      split
      · exact h.measured
      · exact h.measured.trimCode.append _
    · show (if d.width == 0 then d else d.trimCode.append [.joint]).startLine ≤ n
      have hkeeps : (d.trimCode.append [.joint]).startLine = d.startLine := by
        rw [(append_keeps _ _).1, startLine_trimCode]
      split
      · exact h.startLine
      · rw [hkeeps]
        exact h.startLine

theorem pushCode (h : d.Tracked n) (line : Nat) (chunk : List Char) :
    (d.pushCode line chunk).Tracked n :=
  (h.enterLine line).append _

theorem pushLiteral (h : d.Tracked n) (line : Nat) (chunk : List Char) (continues : Bool) :
    (d.pushLiteral line chunk continues).Tracked n := by
  have hopen {e : Draft} (he : e.Tracked n) :
      ({ e with openLiteral := some (e.openLiteral.getD []) } : Draft).Tracked n := by
    refine ⟨?_, he.endLine, he.startLine⟩
    have hcells : ({ e with openLiteral := some (e.openLiteral.getD []) } : Draft).cells =
        e.cells := by simp [Draft.cells]
    rw [Measured, hcells]
    exact he.measured
  have hclose {e : Draft} (he : e.Tracked n) : e.closeLiteral.Tracked n := by
    cases hopen : e.openLiteral with
    | none =>
      rw [show e.closeLiteral = e by rw [closeLiteral, hopen]]
      exact he
    | some literal =>
      have hcells : e.closeLiteral.cells = e.cells := by
        simp [closeLiteral, Draft.cells, Piece.cells, hopen]
      have hmeasured : e.closeLiteral.Measured := by
        rw [Measured, hcells, ← he.measured, closeLiteral, hopen]
      rw [closeLiteral, hopen] at hmeasured ⊢
      exact ⟨hmeasured, he.endLine, he.startLine⟩
  have hpushed := (hopen (h.enterLine line)).append (cellsOf line chunk)
  unfold Draft.pushLiteral
  dsimp only
  split
  · exact hpushed
  · exact hclose hpushed

end Tracked

theorem keptOn_tracked {l : Line} (hl : l.number ≤ n) :
    KeptOn l (fun _ => True) (Tracked n) (Tracked n) fun _ d => d.Tracked n := by
  constructor
  case skip => exact id
  case enter => exact fun h _ => h
  case start => exact fun _ => ⟨rfl, fun _ hline => by contradiction, hl⟩
  case openBracket => exact fun h _ _ => ⟨h.measured, h.endLine, h.startLine⟩
  case closeBracket => exact fun h _ _ => ⟨h.measured, h.endLine, h.startLine⟩
  case read => exact fun h _ _ => h
  case pushCode => exact fun h _ _ => h.pushCode l.number _
  case pushLiteral => exact fun h _ _ _ _ => h.pushLiteral l.number _ _
  case stay => exact fun h _ => h
  case resume =>
    intro d e h hclosed he
    rw [isOpen, Bool.or_eq_false_iff] at hclosed
    have hopen : d.openLiteral = none :=
      Option.isNone_iff_eq_none.mp (Option.isSome_eq_false_iff.mp hclosed.2)
    unfold withoutContinuation? at he
    split at he
    · contradiction
    · next c before hdrop =>
      split at he
      · obtain rfl := Option.some.inj he
        exact ⟨Measured.cut h.measured hopen hdrop, h.endLine, h.startLine⟩
      · contradiction
  case wait => exact fun h _ _ => h
  case finish => exact fun _ _ _ _ => trivial

/-- A draft on line `n` whose text ends in `a`, with nothing to trim. -/
structure Paused (n : Nat) (a : Char) (d : Draft) : Prop where
  lastLine : d.lastLine = some n
  trimmed : d.trimCode = d
  text : ∃ cs, d.text = cs ++ [a]

theorem trimCode_of_code {a : Char} (ha : Text.isBlank a = false) (d : Draft) (n : Nat)
    (cs : List Char) :
    (d.append (cellsOf n (cs ++ [a]))).trimCode = d.append (cellsOf n (cs ++ [a])) := by
  have hcells : (cellsOf n (cs ++ [a])).reverse = ⟨a, some n⟩ :: (cellsOf n cs).reverse := by
    simp [cellsOf]
  have hvisible : Cell.isBlank ⟨a, some n⟩ = false := ha
  cases hopen : d.openLiteral with
  | some literal =>
    rw [append_of_some hopen]
    rfl
  | none =>
    have hempty : cellWidth [] = 0 := rfl
    rw [append_of_none hopen, hcells, trimCode]
    dsimp only
    rw [hopen, List.cons_append, List.dropWhile_cons_of_neg (by simp [hvisible]),
      List.takeWhile_cons_of_neg (by simp [hvisible]), hempty, Nat.sub_zero]

theorem trimStart_concat {a : Char} (ha : Text.isBlank a = false) (cs : List Char) :
    ∃ more, Text.trimStart (cs ++ [a]) = more ++ [a] := by
  unfold Text.trimStart
  rw [List.dropWhile_append]
  split
  · exact ⟨[], by simp [ha]⟩
  · exact ⟨_, rfl⟩

theorem paused_pushCode {a : Char} (ha : Text.isBlank a = false) (d : Draft) (n : Nat)
    (cs : List Char) : (d.pushCode n (cs ++ [a])).Paused n a := by
  obtain ⟨more, hmore⟩ : ∃ more, (if d.lastLine == some n then cs ++ [a]
      else Text.trimStart (cs ++ [a])) = more ++ [a] := by
    split
    · exact ⟨cs, rfl⟩
    · exact trimStart_concat ha cs
  refine ⟨d.lastLine_pushCode n _, ?_, (d.enterLine n).text ++ more, ?_⟩
  · rw [pushCode, hmore]
    exact trimCode_of_code ha _ n more
  · rw [pushCode, hmore, text_append, map_char_cellsOf, List.append_assoc]

theorem text_pushLiteral (d : Draft) (n : Nat) (chunk : List Char) (continues : Bool) :
    (d.pushLiteral n chunk continues).text = (d.enterLine n).text ++ chunk := by
  have hopen (e : Draft) : ({ e with openLiteral := some (e.openLiteral.getD []) } : Draft).text =
      e.text := by
    simp [text, cells]
  unfold pushLiteral
  dsimp only
  split <;> simp [hopen]

theorem paused_pushLiteral (d : Draft) (n : Nat) (cs : List Char) (a : Char) :
    (d.pushLiteral n (cs ++ [a]) false).Paused n a := by
  refine ⟨?_, ?_, (d.enterLine n).text ++ cs, ?_⟩
  · rw [pushLiteral_false]
    exact d.lastLine_enterLine n
  · rw [pushLiteral_false]
    rfl
  · rw [text_pushLiteral, List.append_assoc]

/-- One draft takes the space and the other enters the next line. -/
theorem Paused.parted {a : Char} (h : d.Paused n a) (ht : d.Tracked n) :
    (d.append (cellsOf n [' '])).Parted (d.width + 1) n (d.enterLine (n + 1)) := by
  obtain ⟨cs, htext⟩ := h.text
  have hwidth : d.width ≠ 0 := by
    have hmeasure : d.width = Text.width d.text := ht.measured
    have hpositive := Char.utf8Size_pos a
    rw [htext, Text.width_append] at hmeasure
    simp only [Text.width_cons] at hmeasure
    omega
  obtain ⟨start, earlier, hentries⟩ : ∃ start earlier, d.lineStarts = (start, n) :: earlier := by
    obtain ⟨e, he, hn⟩ := Option.map_eq_some_iff.mp h.lastLine
    obtain ⟨earlier, hentries⟩ := List.head?_eq_some_iff.mp he
    exact ⟨e.1, earlier, by rw [hentries, ← hn]⟩
  have hentered : d.enterLine (n + 1) = { d.append [.joint] with
      lineStarts := (d.width + 1, n + 1) :: d.lineStarts
      endLine := n + 1 } := by
    have hjoint : (d.append [.joint]).width = d.width + 1 := width_append d [.joint]
    unfold enterLine
    rw [h.lastLine, if_neg (by simp), if_neg (by simpa using hwidth), h.trimmed]
    dsimp only
    rw [hjoint, lineStarts_append]
  have hsame : (d.append (cellsOf n [' '])).endLine = n ∧
      (d.append (cellsOf n [' '])).lineStarts = d.lineStarts := by
    refine ⟨?_, lineStarts_append d _⟩
    have hend := (ht.append (cellsOf n [' '])).endLine n
    rw [lastLine_append] at hend
    exact hend h.lastLine
  have hstarts : PartedEntries (d.width + 1) n d.lineStarts ((d.width + 1, n + 1) :: d.lineStarts) :=
    ⟨[], start, earlier, hentries, by rw [hentries]; rfl⟩
  rw [hentered]
  cases hopen : d.openLiteral with
  | none =>
    rw [append_of_none hopen] at hsame ⊢
    rw [append_of_none hopen]
    exact ⟨ht.startLine, rfl, by rw [hsame.1], rfl, rfl, rfl, rfl, rfl, rfl, rfl, hstarts⟩
  | some literal =>
    rw [append_of_some hopen] at hsame ⊢
    rw [append_of_some hopen]
    exact ⟨ht.startLine, rfl, by rw [hsame.1], rfl, rfl, rfl, rfl, rfl, rfl, rfl, hstarts⟩

/-- White space that a line begins with is no part of the statement. -/
theorem Paused.pushCode_blank {a : Char} (h : d.Paused n a) {ws : List Char}
    (hws : ∀ c ∈ ws, Text.isBlank c = true) (cs : List Char)
    (hcs : cs.head?.any Text.isBlank = false) :
    d.pushCode (n + 1) (ws ++ cs) = (d.enterLine (n + 1)).append (cellsOf (n + 1) cs) := by
  have hstart : Text.trimStart (ws ++ cs) = cs := Text.dropWhile_run hws hcs
  rw [pushCode, h.lastLine, if_neg (by simp), hstart]

/-- What a character of code does to the count of brackets. -/
def bracket (c : Char) (d : Draft) : Draft :=
  if Text.isOpener c then d.openBracket else if Text.isCloser c then d.closeBracket else d

theorem pushCode_bracket (c : Char) (d : Draft) (n : Nat) (chunk : List Char) :
    (d.bracket c).pushCode n chunk = (d.pushCode n chunk).bracket c := by
  unfold bracket
  split
  · exact d.pushCode_openBracket n chunk
  · split
    · exact d.pushCode_closeBracket n chunk
    · rfl

theorem Parted.bracket {offset : Nat} {d' : Draft} (h : d.Parted offset n d') (c : Char) :
    (d.bracket c).Parted offset n (d'.bracket c) := by
  unfold Draft.bracket
  split
  · exact h.openBracket
  · split
    · exact h.closeBracket
    · exact h

/-- A character behind the break is read. -/
theorem goesOn_bracket {lead : List Char} {b : Char} (htext : d.text = lead ++ [b])
    (hdepth : 1 ≤ d.depth) : (d.bracket b).GoesOn lead b [] := by
  unfold bracket
  split
  · exact ⟨[], htext, .inl (Nat.le_add_left 1 d.depth)⟩
  · split
    · next hcloser => exact ⟨[], htext, .inr ⟨b, by simp, hcloser⟩⟩
    · exact ⟨[], htext, .inl hdepth⟩

end Draft

/-! ### Lines at the break -/

namespace Assembly

variable {language : Language} {l : Line} {a : Assembly} {base : List Statement} {d : Draft}

theorem readCode_append (seen : List Char) (a : Assembly) (xs ys : List Char) :
    readCode language l seen a (xs ++ ys) =
      let first := readCode language l seen a xs
      readCode language l first.2 first.1 ys := by
  induction xs generalizing seen a with
  | nil => rfl
  | cons c xs ih =>
    rw [List.cons_append, readCode, readCode]
    split
    · exact ih _ _
    · split
      · exact ih _ _
      · split
        · exact ih _ _
        · exact ih _ _

theorem readCode_of_blank (seen : List Char) (a : Assembly) {cs : List Char}
    (hcs : ∀ c ∈ cs, Text.isBlank c = true) :
    readCode language l seen a cs = (a, cs.reverse ++ seen) := by
  induction cs generalizing seen with
  | nil => rfl
  | cons c cs ih =>
    obtain ⟨hopener, hcloser, hsemicolon⟩ := not_mark_of_isBlank (hcs c List.mem_cons_self)
    rw [readCode, hopener, hcloser, hsemicolon, if_neg Bool.false_ne_true,
      if_neg Bool.false_ne_true, Bool.false_and, if_neg Bool.false_ne_true, ih _ fun d hd =>
        hcs d (List.mem_cons_of_mem c hd)]
    simp

/-- Behind a character the code ends in it, unless it was a semicolon that ended the statement. -/
theorem readCode_concat (seen : List Char) (a : Assembly) (cs : List Char) (c : Char) :
    (∃ more, (readCode language l seen a (cs ++ [c])).2 = c :: more) ∨
      (readCode language l seen a (cs ++ [c])).1.current = none := by
  rw [readCode_append]
  dsimp only
  generalize readCode language l seen a cs = first
  rw [readCode]
  split
  · exact .inl ⟨first.2, rfl⟩
  · split
    · exact .inl ⟨first.2, rfl⟩
    · split
      · exact .inr (current_endStatement _)
      · exact .inl ⟨first.2, rfl⟩

theorem feedCode_of_isBlank {ws : List Char} (hws : ∀ c ∈ ws, Text.isBlank c = true) :
    (⟨base, some d, none⟩ : Assembly).feedCode language l ws [] ws =
      ⟨base, some (d.pushCode l.number ws), none⟩ := by
  have hread := @feedCode_append language l (⟨base, some d, none⟩ : Assembly) [] ws []
  rw [readCode_of_blank [] _ hws] at hread
  simp only [List.reverse_nil, List.nil_append, List.append_nil, List.reverse_reverse] at hread
  rw [hread, feedCode, pushCode_of_current (d := d) rfl]

/-- A draft is open that was changed. -/
theorem exists_modifyFor (a : Assembly) (language : Language) (l : Line) (chunk : List Char)
    (f : Draft → Draft) : ∃ e, (a.modifyFor language l chunk f).current = some (f e) := by
  unfold modifyFor
  split
  · exact ⟨_, rfl⟩
  · split <;> exact ⟨_, rfl⟩
  · exact ⟨_, rfl⟩

/-- Within brackets, code up to its first character that can be seen is appended at once. -/
theorem feedCode_visible (hdepth : 1 ≤ d.depth) {ws : List Char}
    (hws : ∀ c ∈ ws, Text.isBlank c = true) {b : Char} (hb : Text.isBlank b = false)
    (rest : List Char) :
    (⟨base, some d, none⟩ : Assembly).feedCode language l (ws ++ b :: rest) [] (ws ++ b :: rest) =
      (⟨base, some ((d.pushCode l.number (ws ++ [b])).bracket b), none⟩ : Assembly).feedCode
        language l rest [] rest := by
  have hread : readCode language l [] (⟨base, some d, none⟩ : Assembly) (ws ++ [b]) =
      (⟨base, some (d.bracket b), none⟩, b :: ws.reverse) := by
    have hzero : ((⟨base, some d, none⟩ : Assembly).depth == 0) = false :=
      beq_eq_false_iff_ne.mpr (by
      show d.depth ≠ 0
      omega)
    rw [readCode_append, readCode_of_blank [] _ hws, List.append_nil]
    dsimp only
    rw [readCode, hzero, Bool.and_false, if_neg Bool.false_ne_true]
    unfold Draft.bracket
    split
    · rfl
    · split <;> rfl
  have hfirst := @feedCode_append language l (⟨base, some d, none⟩ : Assembly) [] (ws ++ [b]) rest
  have hvisible : Text.allBlank (ws ++ [b]) = false := allBlank_of_mem hb (by simp)
  have hpush :=
    @feedCode_push language l ⟨base, some (d.bracket b), none⟩ (d.bracket b) rfl _ hvisible [] rest
  rw [pushCode_of_current (d := d.bracket b) rfl, Draft.pushCode_bracket] at hpush
  rw [hread] at hfirst
  simpa using hfirst.trans (by simpa using hpush)

/-- Code within brackets that ends in a character leaves a draft that rests on it. -/
theorem exists_paused_code (language : Language) (l : Line) {k : Balance}
    (hcounts : a.Counts k.depth) {c : Char} (hc : Text.isBlank c = false) {cs : List Char}
    (hdepth : 1 ≤ (k.read (cs ++ [c])).depth) :
    ∃ base d, d.Paused l.number c ∧ 1 ≤ d.depth ∧ ∀ more,
      a.feedCode language l (cs ++ [c] ++ more) [] (cs ++ [c] ++ more) =
        (⟨base, some d, none⟩ : Assembly).feedCode language l more [] more := by
  obtain ⟨base, e, he, hdeep⟩ :=
    (@Counts.readCode language l _ _ hcounts [] (cs ++ [c])).exists_current hdepth
  have hfeed := @feedCode_append language l a [] (cs ++ [c])
  have hends := @readCode_concat language l [] a cs c
  generalize readCode language l [] a (cs ++ [c]) = read at he hfeed hends
  obtain ⟨_, seen⟩ := read
  obtain rfl := he
  obtain ⟨more, rfl⟩ : ∃ more, seen = c :: more := hends.resolve_right (by simp)
  refine ⟨base, e.pushCode l.number (more.reverse ++ [c]), Draft.paused_pushCode hc e l.number _,
    ?_, fun rest => ?_⟩
  · rw [(e.counts_pushCode l.number _).1, hdeep]
    exact hdepth
  · have hvisible : Text.allBlank (c :: more).reverse = false := allBlank_of_mem hc (by simp)
    have hpush := @feedCode_push language l ⟨base, some e, none⟩ e rfl _ hvisible [] rest
    rw [pushCode_of_current (d := e) rfl] at hpush
    have hwhole := hfeed rest
    simp only [List.reverse_nil, List.nil_append, List.reverse_cons, List.reverse_append,
      List.reverse_reverse, List.singleton_append] at hwhole hpush
    rw [hwhole, hpush]

/-- So does a literal that is complete. -/
theorem exists_paused_literal {chunk cs : List Char} {c : Char} {n : Nat} (hn : 1 ≤ n)
    (hcounts :
      (a.modifyFor language l chunk (·.pushLiteral l.number (cs ++ [c]) false)).Counts n) :
    ∃ base d, d.Paused l.number c ∧ 1 ≤ d.depth ∧
      a.modifyFor language l chunk (·.pushLiteral l.number (cs ++ [c]) false) =
        ⟨base, some d, none⟩ := by
  obtain ⟨base, d, hd, hdeep⟩ := hcounts.exists_current hn
  obtain ⟨e, he⟩ :=
    exists_modifyFor a language l chunk (·.pushLiteral l.number (cs ++ [c]) false)
  rw [hd, Option.some.injEq] at he
  refine ⟨base, d, ?_, by omega, hd⟩
  rw [he]
  exact e.paused_pushLiteral l.number cs c

section Behind

variable {c b : Char} {cs lead rest : List Char}

/-- Code behind the break: the draft has taken the space, or has entered the next line. -/
theorem parted_code (language : Language) (base : List Statement) (hd : d.Paused l.number c)
    (ht : d.Tracked l.number) (hdepth : 1 ≤ d.depth) (htext : d.text = cs ++ [c])
    (hlead : ∀ c ∈ lead, Text.isBlank c = true) (hb : Text.isBlank b = false) (rest : List Char) :
    Parted (cs ++ [c, ' ']) b (d.width + 1) l.number base []
      ((⟨base, some d, none⟩ : Assembly).feedCode language l ([' '] ++ b :: rest) []
        ([' '] ++ b :: rest))
      ((⟨base, some d, none⟩ : Assembly).feedCode language (l.below 1) (lead ++ b :: rest) []
        (lead ++ b :: rest)) := by
  have hspace : d.pushCode l.number ([' '] ++ [b]) =
      (d.append (Draft.cellsOf l.number [' '])).append (Draft.cellsOf l.number [b]) := by
    rw [Draft.pushCode_of_lastLine hd.lastLine, Draft.append_append, Draft.cellsOf_append]
  have hpushed := ((hd.parted ht).append (Draft.cellsOf l.number [b])
    (Draft.cellsOf (l.number + 1) [b]) rfl).bracket b
  rw [← hspace, ← hd.pushCode_blank hlead [b] hb] at hpushed
  have hgoes : ((d.pushCode l.number ([' '] ++ [b])).bracket b).GoesOn (cs ++ [c, ' ']) b [] := by
    apply Draft.goesOn_bracket
    · rw [hspace, Draft.text_append, Draft.text_append, htext]
      simp [Draft.cellsOf]
    · rw [(d.counts_pushCode l.number _).1]
      exact hdepth
  have hstart : Parted (cs ++ [c, ' ']) b (d.width + 1) l.number base [] _ _ :=
    .current hpushed hgoes
  rw [feedCode_visible hdepth (List.forall_mem_singleton.mpr rfl) hb,
    feedCode_visible hdepth hlead hb]
  exact hstart.feedCode hb rest

/-- White space before a literal on the next line is no part of the statement. -/
theorem feedSegments_lead (language : Language) (base : List Statement) (hd : d.Paused l.number c)
    (hlead : ∀ c ∈ lead, Text.isBlank c = true) (chunk : List Char) (segments : List Segment) :
    (⟨base, some d, none⟩ : Assembly).feedSegments language (l.below 1)
        (cut .code lead.reverse ++ ⟨.literal, chunk⟩ :: segments) =
      (⟨base, some (d.enterLine (l.number + 1)), none⟩ : Assembly).feedSegments language (l.below 1)
        (⟨.literal, chunk⟩ :: segments) := by
  cases lead with
  | nil =>
    -- The literal enters the line itself.
    have hsame (continues : Bool) :
        (d.enterLine (l.number + 1)).pushLiteral (l.number + 1) chunk continues =
          d.pushLiteral (l.number + 1) chunk continues := by
      rw [Draft.pushLiteral, Draft.pushLiteral,
        Draft.enterLine_of_lastLine (d.lastLine_enterLine _)]
    exact congrArg (fun e => (⟨base, some e, none⟩ : Assembly).feedSegments language (l.below 1)
      segments) (hsame _).symm
  | cons e lead =>
    have hcut : cut .code (e :: lead).reverse = [⟨.code, e :: lead⟩] := by simp [cut]
    have hbreak := hd.pushCode_blank hlead [] rfl
    rw [show Draft.cellsOf (l.number + 1) [] = [] from rfl, Draft.append_nil, List.append_nil]
      at hbreak
    rw [hcut, List.singleton_append, feedSegments]
    dsimp only
    rw [feedCode_of_isBlank hlead]
    exact congrArg (fun e => (⟨base, some e, none⟩ : Assembly).feedSegments language (l.below 1)
      (⟨.literal, chunk⟩ :: segments)) hbreak

/-- A literal behind the break. -/
theorem parted_literal (language : Language) (base : List Statement) (hd : d.Paused l.number c)
    (ht : d.Tracked l.number) (hdepth : 1 ≤ d.depth) (htext : d.text = cs ++ [c])
    (hb : Text.isBlank b = false) (rest : List Char) (segments : List Segment) :
    Parted (cs ++ [c, ' ']) b (d.width + 1) l.number base []
      ((⟨base, some (d.append (Draft.cellsOf l.number [' '])), none⟩ : Assembly).feedSegments
        language l (⟨.literal, b :: rest⟩ :: segments))
      ((⟨base, some (d.enterLine (l.number + 1)), none⟩ : Assembly).feedSegments language
        (l.below 1) (⟨.literal, b :: rest⟩ :: segments)) := by
  have hlast : (d.append (Draft.cellsOf l.number [' '])).lastLine = some l.number := by
    rw [Draft.lastLine_append, hd.lastLine]
  have hgoes (continues : Bool) : ((d.append (Draft.cellsOf l.number [' '])).pushLiteral l.number
      (b :: rest) continues).GoesOn (cs ++ [c, ' ']) b [] := by
    refine ⟨rest, ?_, .inl ?_⟩
    · rw [Draft.text_pushLiteral, Draft.enterLine_of_lastLine hlast, Draft.text_append, htext]
      simp [Draft.cellsOf]
    · rw [((d.append _).counts_pushLiteral l.number _ continues).1, (d.counts_append _).1]
      exact hdepth
  have hpushed (continues : Bool) := (hd.parted ht).pushLiteral l.number (b :: rest) continues
  exact (Parted.current (hpushed _) (hgoes _)).feedSegments hb segments

end Behind

end Assembly

namespace Line.Broken

open Assembly

variable {language : Language} {l upper lower : Line} {a b : Char} {front back : List Segment}
  {before lead behind : List Char} {x : Assembly} {base : List Statement} {d : Draft}

theorem draft_upper (h : l.Broken upper lower a b front before lead behind back) :
    Draft.ofLine upper = .ofLine l := by
  unfold Draft.ofLine
  rw [h.number.1, h.indent.1]

theorem draft_lower (h : l.Broken upper lower a b front before lead behind back) :
    Draft.ofLine lower = .ofLine (l.below 1) := by
  have hnumber : lower.number = (l.below 1).number := h.number.2
  have hindent : indentWidth lower.text = indentWidth (l.below 1).text := h.indent.2
  unfold Draft.ofLine
  rw [hnumber, hindent]

theorem feedLine_read (h : l.Broken upper lower a b front before lead behind back) {y : Line}
    (hy : y = l ∨ y = upper ∨ y = lower) (x : Assembly) :
    x.feedLine language y = (x.feedSegments language y y.segments).endLine language := by
  obtain ⟨htag, hcontent⟩ := h.read y hy
  unfold Assembly.feedLine
  rw [hcontent, Bool.not_true, Bool.and_false, Bool.or_false, if_neg (by simpa using htag)]

/-- The upper line is read in parts, since no literal is open at its end. -/
theorem feedSegments_upper (h : l.Broken upper lower a b front before lead behind back)
    (x : Assembly) (xs ys : List Segment) : x.feedSegments language upper (xs ++ ys) =
      (x.feedSegments language upper xs).feedSegments language upper ys :=
  feedSegments_append rfl h.literalOpen.1 (fun hopen => by simp [h.literalOpen.1] at hopen) x

/-- Up to the break both texts are read alike, and a draft is open there. -/
theorem exists_paused (language : Language)
    (h : l.Broken upper lower a b front before lead behind back) {k : Balance}
    (hcounts : x.Counts k.depth) (hdepth : 1 ≤ (k.read (codeOf (marked upper.segments))).depth) :
    ∃ base d, d.Paused l.number a ∧ 1 ≤ d.depth ∧
      x.feedSegments language upper upper.segments = ⟨base, some d, none⟩ ∧
      x.feedSegments language l l.segments =
        ((⟨base, some d, none⟩ : Assembly).feedCode language l (' ' :: behind) []
          (' ' :: behind)).feedSegments language l back := by
  have hwhole : x.feedSegments language l l.segments =
      ((x.feedSegments language upper front).feedCode language l (before ++ ' ' :: behind) []
        (before ++ ' ' :: behind)).feedSegments language l back := by
    rw [h.whole, feedSegments_append h.draft_upper h.literalOpen.1
      fun hopen => by simp [h.closes hopen], feedSegments]
  rw [hwhole]
  rcases h.before with ⟨cs, rfl⟩ | ⟨rfl, segments, s, cs, hfront, hkind, hchars⟩
  · have hfirst : upper.segments = front ++ [⟨.code, cs ++ [a]⟩] := by
      rw [h.first]
      simp [cut]
    have hcode : codeOf (marked upper.segments) = codeOf (marked front) ++ (cs ++ [a]) := by
      rw [hfirst, marked_append, codeOf_append, codeOf_marked_cons]
      simp [codeOf, marked]
    rw [hcode, Balance.read_append] at hdepth
    obtain ⟨base, d, hd, hdeep, hfeed⟩ :=
      exists_paused_code language l (hcounts.feedSegments front) h.visible.1 hdepth
    refine ⟨base, d, hd, hdeep, ?_, by rw [hfeed]⟩
    have hupper := hfeed []
    rw [List.append_nil, feedCode, pushCode_of_current (d := d) rfl,
      Draft.pushCode_of_lastLine hd.lastLine, show Draft.cellsOf l.number [] = [] from rfl,
      Draft.append_nil] at hupper
    rw [hfirst, h.feedSegments_upper, feedSegments, feedSegments, feedCode_congr h.draft_upper]
    exact hupper
  · have hfirst : front = upper.segments := h.first.symm ▸ (List.append_nil front).symm
    have hlast : x.feedSegments language upper upper.segments =
        (x.feedSegments language upper segments).modifyFor language upper s.chars
          (·.pushLiteral upper.number (cs ++ [a]) false) := by
      rw [← hfirst, hfront, h.feedSegments_upper, feedSegments, hkind, h.literalOpen.1, ← hchars]
      rfl
    have hcounted : (x.feedSegments language upper upper.segments).Counts _ :=
      hcounts.feedSegments upper.segments
    rw [hlast] at hcounted
    obtain ⟨base, d, hd, hdeep, hread⟩ := exists_paused_literal hdepth hcounted
    rw [← hlast] at hread
    rw [h.number.1] at hd
    rw [hfirst, hread]
    exact ⟨base, d, hd, hdeep, rfl, rfl⟩

/-- Behind the break the draft has taken the space, or has entered the next line. -/
theorem parted (language : Language) (base : List Statement)
    (h : l.Broken upper lower a b front before lead behind back) (hd : d.Paused l.number a)
    (ht : d.Tracked l.number) (hdepth : 1 ≤ d.depth) {cs : List Char} (htext : d.text = cs ++ [a]) :
    Parted (cs ++ [a, ' ']) b (d.width + 1) l.number base []
      (((⟨base, some d, none⟩ : Assembly).feedCode language l (' ' :: behind) []
        (' ' :: behind)).feedSegments language l back)
      ((⟨base, some d, none⟩ : Assembly).feedSegments language lower lower.segments) := by
  have hb := h.visible.2
  rw [feedSegments_congr h.draft_lower h.literalOpen.2, h.second]
  rcases h.behind with ⟨rest, rfl⟩ | ⟨rfl, ⟨kind, chars⟩, segments, rest, rfl, hkind, hchars⟩
  · have hcut : cut .code (lead ++ b :: rest).reverse = [⟨.code, lead ++ b :: rest⟩] := by
      simp [cut]
    rw [hcut, List.singleton_append, feedSegments]
    exact (parted_code language base hd ht hdepth htext h.lead hb rest).feedSegments hb back
  · dsimp only at hkind hchars
    subst hkind hchars
    rw [feedCode_of_isBlank (List.forall_mem_singleton.mpr rfl),
      Draft.pushCode_of_lastLine hd.lastLine, List.append_nil,
      feedSegments_lead language base hd h.lead]
    exact parted_literal language base hd ht hdepth htext hb rest segments

end Line.Broken

/-! ### Texts -/

section Text

variable {language : Language} {above left right below : List Char} {a b : Char} {l : Line}

/-- The lines that statements are read from: where what begins on the line
closes, it is among them. -/
theorem Breakable.exists_readable (h : Breakable language above left a b right below l)
    (hcloses : ∀ u, (classify language (spacedText above left a b right below)).unterminated =
      some u → u.1 ≠ l.number) :
    ∃ earlier later upper lower front before lead behind back,
      (classify language (spacedText above left a b right below)).readable = earlier ++ l :: later ∧
      (classify language (brokenText above left a b right below)).readable =
        earlier ++ upper :: lower :: later.map (Line.below 1) ∧
      earlier = (classify language (spacedText above left a b right below)).lines.take
        (physicalLines above).length ∧
      (∀ x ∈ earlier, x.number ≤ l.number) ∧
      marked upper.segments = (marked l.segments).take (left.length + 1) ∧
      l.Broken upper lower a b front before lead behind back := by
  obtain ⟨hopen, hsince, earlier, later, upper, lower, front, before, lead, behind, back, hlines,
    hlength, hlines', hmarked, hbroken⟩ := h.exists_classify
  have hnumbers : (earlier ++ l :: later).Pairwise fun x y => x.number < y.number := by
    have hall : (classify language (spacedText above left a b right below)).lines.map Line.number =
        List.range' 1 _ :=
      map_number_scanLines language 1 .code _
    rw [← List.pairwise_map (f := Line.number) (R := (· < ·)), ← hlines, hall]
    exact List.pairwise_lt_range'
  have hupto : ∀ x ∈ earlier, x.number < l.number := fun x hx =>
    (List.pairwise_append.mp hnumbers).2.2 x hx l List.mem_cons_self
  have htake : earlier =
      (classify language (spacedText above left a b right below)).lines.take
        (physicalLines above).length := by
    rw [hlines, List.take_append_of_le_length (Nat.le_of_eq hlength.symm), ← hlength,
      List.take_length]
  cases hu : (classify language (spacedText above left a b right below)).unterminated with
  | none =>
    rw [hu, Option.map_none] at hopen
    refine ⟨earlier, later, upper, lower, front, before, lead, behind, back, ?_, ?_, htake,
      fun x hx => Nat.le_of_lt (hupto x hx), hmarked, hbroken⟩
    · rw [LineTable.readable, hu, hlines]
    · rw [LineTable.readable, hopen, hlines']
  | some u =>
    have hlt : l.number < u.1 := Nat.lt_of_le_of_ne (hsince u hu) (hcloses u hu).symm
    rw [hu, Option.map_some] at hopen
    refine ⟨earlier, later.takeWhile (fun x => x.number < u.1), upper, lower, front, before, lead,
      behind, back, ?_, ?_, htake, fun x hx => Nat.le_of_lt (hupto x hx), hmarked, hbroken⟩
    · have hearlier : ∀ x ∈ earlier, decide (x.number < u.1) = true := fun x hx =>
        decide_eq_true (Nat.lt_trans (hupto x hx) hlt)
      rw [LineTable.readable, hu, hlines]
      dsimp only
      rw [List.takeWhile_append_of_pos hearlier, List.takeWhile_cons, if_pos (decide_eq_true hlt)]
    · have hearlier : ∀ x ∈ earlier, decide (x.number < u.1 + 1) = true := fun x hx =>
        decide_eq_true (Nat.lt_succ_of_lt (Nat.lt_trans (hupto x hx) hlt))
      have hupper : decide (upper.number < u.1 + 1) = true := by
        rw [hbroken.number.1]
        exact decide_eq_true (Nat.lt_succ_of_lt hlt)
      have hlower : decide (lower.number < u.1 + 1) = true := by
        rw [hbroken.number.2]
        exact decide_eq_true (Nat.succ_lt_succ hlt)
      have hlater : (later.map (Line.below 1)).takeWhile (fun x => x.number < u.1 + 1) =
          (later.takeWhile fun x => x.number < u.1).map (Line.below 1) := by
        rw [List.takeWhile_map]
        congr 2
        funext x
        simp [Line.below]
      rw [LineTable.readable, hopen, hlines']
      dsimp only
      rw [List.takeWhile_append_of_pos hearlier, List.takeWhile_cons, if_pos hupper,
        List.takeWhile_cons, if_pos hlower, hlater]

/-- How many brackets of the code are open at a place: before `column` characters of line `l` and
behind the lines `earlier`. -/
def bracketDepth (earlier : List Line) (l : Line) (column : Nat) : Nat :=
  (({} : Balance).read
    (codeOf (marked (earlier.flatMap Line.segments) ++ (marked l.segments).take column))).depth

/-- The statements that two spellings give: they show the same, and the second one ends a line
further down. It entered one line more, at the place of the space between `a` and `b`. -/
structure Statement.SpelledAlike (a b : Char) (n : Nat) (s s' : Statement) : Prop where
  text : s'.text = s.text
  masked : s'.masked = s.masked
  literals : s'.literals = s.literals
  maxDepth : s'.maxDepth = s.maxDepth
  indent : s'.indent = s.indent
  lines : s'.startLine = s.startLine ∧ s'.endLine = s.endLine + 1
  place : ∃ before behind earlier start later, s.text = before ++ a :: ' ' :: b :: behind ∧
    s.lineStarts.toList = earlier ++ (start, n) :: later ∧
    s'.lineStarts.toList = earlier ++ (start, n) :: (Text.width (before ++ [a, ' ']), n + 1) ::
      later.map (fun e => (e.1, e.2 + 1)) ∧
    ((s'.lineStarts.toList.Pairwise fun e f => e.1 ≤ f.1) →
      ∀ o, s'.lineAt o = if o < Text.width (before ++ [a, ' ']) then s.lineAt o else s.lineAt o + 1)

theorem Statement.Parted.spelledAlike {s s' : Statement} {n : Nat} {before more : List Char}
    (h : s.Parted (Text.width (before ++ [a, ' '])) n s')
    (htext : s.text = before ++ [a, ' '] ++ b :: more) : s.SpelledAlike a b n s' := by
  refine ⟨h.text, h.masked, h.literals, h.maxDepth, h.indent, ⟨h.startLine, h.endLine⟩, ?_⟩
  obtain ⟨later, start, earlier, hentries, hentries'⟩ := h.lineStarts
  refine ⟨before, more, earlier.reverse, start, later.reverse, by simpa using htext, ?_, ?_,
    h.lineAt⟩
  · rw [List.reverse_eq_iff] at hentries
    simpa using hentries
  · rw [List.reverse_eq_iff] at hentries'
    simpa using hentries'

/-- What becomes of the statement that was broken: it never closes, or it is finished. -/
theorem Assembly.Parted.outcome {lead : List Char} {offset n : Nat} {base : List Statement}
    {seen : List Char} {x x' : Assembly} (h : Assembly.Parted lead b offset n base seen x x')
    (hpending : x.pending = none) :
    (∃ m, m ≤ n ∧ x.finished = base ∧ x'.finished = base ∧ x.current.map Draft.startLine = some m ∧
        x'.current.map Draft.startLine = some m) ∨
      ∃ s s' after, s.Parted offset n s' ∧ (∃ more, s.text = lead ++ b :: more) ∧
        x.finished = after ++ s :: base ∧
        x'.finished = after.map (Statement.below 1) ++ s' :: base ∧
        x'.current.map Draft.startLine = (x.current.map Draft.startLine).map (· + 1) := by
  cases h with
  | @current d d' hd hgoes =>
    exact .inl ⟨d.startLine, hd.begins, rfl, rfl, rfl, congrArg some hd.startLine⟩
  | pending hd hgoes => contradiction
  | @finished s s' y hs htext =>
    have hzero : y.finished.map (Statement.below 0) = y.finished := by
      rw [show Statement.below 0 = id from funext Statement.below_zero, List.map_id]
    refine .inr ⟨s, s', y.finished, hs, htext, ?_, rfl, ?_⟩
    · rw [Assembly.after, hzero]
    · simp only [Assembly.after, Option.map_map]
      rfl

/-- The lines of the break, behind lines that were read. -/
theorem Line.Broken.parted_feedLine (language : Language) {upper lower : Line}
    {front back : List Segment} {before lead behind : List Char}
    (h : l.Broken upper lower a b front before lead behind back) {x : Assembly} {k : Balance}
    (hcounts : x.Counts k.depth) (hdepth : 1 ≤ (k.read (codeOf (marked upper.segments))).depth)
    (htracked : x.Has (fun _ => True) (Draft.Tracked l.number) (Draft.Tracked l.number)) :
    ∃ before base, Assembly.Parted (before ++ [a, ' ']) b (Text.width (before ++ [a, ' '])) l.number
      base [] (x.feedLine language l) ((x.feedLine language upper).feedLine language lower) := by
  obtain ⟨base, d, hpaused, hdeep, hupper, hwhole⟩ := h.exists_paused language hcounts hdepth
  obtain ⟨cs, htext⟩ := hpaused.text
  have hkept := Draft.keptOn_tracked (l := upper) (n := l.number) (Nat.le_of_eq h.number.1)
  have hd : d.Tracked l.number := by
    have hstart : x.Has (fun _ => True) (Draft.Tracked l.number) (fun d => d.Tracked l.number) :=
      htracked
    have hfed := hkept.has_feedSegments language (r := {}) hstart rfl (fun _ hs => hs)
      (LinePart.live_segments {} upper.segments)
    rw [hupper] at hfed
    exact hfed.current d rfl
  have hoffset : d.width + 1 = Text.width (cs ++ [a, ' ']) := by
    have hmeasure : d.width = Text.width d.text := hd.measured
    have hspace : Text.width [' '] = 1 := rfl
    rw [hmeasure, htext, ← hspace, ← Text.width_append, List.append_assoc]
    rfl
  have hopen : d.isOpen = true := by
    have hne : d.depth ≠ 0 := by omega
    simp [Draft.isOpen, hne]
  have hstays : (⟨base, some d, none⟩ : Assembly).endLine language = ⟨base, some d, none⟩ := by
    unfold Assembly.endLine
    dsimp only
    rw [if_pos hopen]
  refine ⟨cs, base, ?_⟩
  rw [h.feedLine_read (.inl rfl), h.feedLine_read (.inr (.inl rfl)),
    h.feedLine_read (.inr (.inr rfl)), hupper, hstays, hwhole, ← hoffset]
  exact (h.parted language base hpaused hd hdeep htext).endLine h.visible.2

theorem Assembly.has_tracked {lines : List Line} {n : Nat} (hlines : ∀ x ∈ lines, x.number ≤ n) :
    (lines.foldl (Assembly.feedLine language) {}).Has (fun _ => True) (Draft.Tracked n)
      (Draft.Tracked n) := by
  have hstart : ({} : Assembly).Has (fun _ => True) (Draft.Tracked n) (Draft.Tracked n) :=
    ⟨fun _ _ => trivial, fun _ hd => by contradiction, fun _ hd => by contradiction⟩
  generalize ({} : Assembly) = x at hstart
  induction lines generalizing x with
  | nil => exact hstart
  | cons l lines ih =>
    have hline := (Draft.keptOn_tracked (hlines l List.mem_cons_self)).has_feedLine language hstart
    exact ih (fun y hy => hlines y (List.mem_cons_of_mem l hy)) _ hline

/-- A space inside brackets may be written as a line break with the indentation of its line. If the
statement it stands in is finished, that statement shows the same and ends one line further down,
and so do the statements behind it move; if it never closes there are no statements behind it. A
literal or a block comment that begins on the line has to close. -/
theorem readStatements_brokenText (h : Breakable language above left a b right below l)
    (hcloses : ∀ u, (classify language (spacedText above left a b right below)).unterminated =
      some u → u.1 ≠ l.number)
    (hdepth : 1 ≤ bracketDepth
      ((classify language (spacedText above left a b right below)).lines.take
        (physicalLines above).length) l (left.length + 1)) :
    let spaced := readStatements language (spacedText above left a b right below)
    let broken := readStatements language (brokenText above left a b right below)
    (classify language (brokenText above left a b right below)).unterminated =
        (classify language (spacedText above left a b right below)).unterminated.map
          (fun u => (u.1 + 1, u.2)) ∧
      ((broken.statements = spaced.statements ∧
          ∃ m, m ≤ l.number ∧ spaced.unclosed = some m ∧ broken.unclosed = some m) ∨
        ∃ before s s' after, spaced.statements = before ++ s :: after ∧
          broken.statements = before ++ s' :: after.map (Statement.below 1) ∧
          broken.unclosed = spaced.unclosed.map (· + 1) ∧ s.SpelledAlike a b l.number s') := by
  intro spaced broken
  obtain ⟨earlier, later, upper, lower, front, before, lead, behind, back, hlines, hlines', htake,
      hupto, hmarked, hbroken⟩ :=
    h.exists_readable hcloses
  have htags : ∀ x ∈ earlier, x.tag = .comment → x.hasContent = false := by
    intro x hx
    rw [htake] at hx
    exact hasContent_of_mem_scanLines (List.mem_of_mem_take hx)
  have hcounts := @Assembly.Counts.foldl_feedLine language {} {} earlier
    ⟨rfl, fun _ hd => by contradiction, fun hc => by contradiction⟩ htags
  rw [← htake, bracketDepth, codeOf_append, Balance.read_append, ← hmarked] at hdepth
  obtain ⟨place, base, hparted⟩ := hbroken.parted_feedLine language hcounts hdepth
    (Assembly.has_tracked hupto)
  have hfolded := (hparted.foldl_feedLine language h.place.visible.2 later).flushPending
    h.place.visible.2
  have houtcome := hfolded.outcome (Assembly.pending_flushPending _)
  have hspaced : spaced = (classify language (spacedText above left a b right below)).assemble
      language := rfl
  have hbreak : broken = (classify language (brokenText above left a b right below)).assemble
      language := rfl
  rw [LineTable.assemble_eq, hlines, List.foldl_append, List.foldl_cons] at hspaced
  rw [LineTable.assemble_eq, hlines', List.foldl_append, List.foldl_cons, List.foldl_cons] at hbreak
  refine ⟨h.exists_classify.1, ?_⟩
  rw [hspaced, hbreak]
  rcases houtcome with ⟨m, hm, hbase, hbase', hcurrent, hcurrent'⟩ | ⟨s, s', after, hs,
    ⟨more, htext⟩, hafter, hafter', hcurrent⟩
  · exact .inl ⟨congrArg List.reverse (hbase'.trans hbase.symm), m, hm, hcurrent, hcurrent'⟩
  · refine .inr ⟨base.reverse, s, s', after.reverse, ?_, ?_, hcurrent, hs.spelledAlike htext⟩
    · dsimp only
      rw [hafter]
      simp
    · dsimp only
      rw [hafter']
      simp

end Text

/-- A call with a literal behind the space, a statement on the same line and one further down. -/
theorem readStatements_brokenText_call :
    let above := "x\n".toList
    let left := "  f(a".toList
    let right := "b c'); y".toList
    let below := "\nz".toList
    let spaced := spacedText above left ',' '\x27' right below
    let broken := brokenText above left ',' '\x27' right below
    spaced = "x\n  f(a, 'b c'); y\nz".toList ∧ broken = "x\n  f(a,\n  'b c'); y\nz".toList ∧
      ∃ l, Breakable .python above left ',' '\x27' right below l ∧
        (∀ u, (classify .python spaced).unterminated = some u → u.1 ≠ l.number) ∧
        1 ≤ bracketDepth ((classify .python spaced).lines.take (physicalLines above).length) l
          (left.length + 1) ∧
        ∃ before s s' after, (readStatements .python spaced).statements = before ++ s :: after ∧
          (readStatements .python broken).statements =
            before ++ s' :: after.map (Statement.below 1) ∧
          s.SpelledAlike ',' '\x27' l.number s' := by
  intro above left right below spaced broken
  obtain ⟨l, hl, hspace, hbefore, hbehind, hdepth⟩ : ∃ l,
      (classify .python spaced).lines[(physicalLines above).length]? = some l ∧
      (marked l.segments)[left.length + 1]? = some (' ', .code) ∧
      (marked l.segments)[left.length]? = some (',', .code) ∧
      (marked l.segments)[left.length + 2]? = some ('\x27', .literal) ∧
      1 ≤ bracketDepth ((classify .python spaced).lines.take (physicalLines above).length) l
        (left.length + 1) :=
    ⟨_, rfl, by decide +kernel, by decide +kernel, by decide +kernel, by decide +kernel⟩
  have hplace : BreakableAt l.segments left ',' '\x27' := by
    refine ⟨hspace, fun kind hkind => ?_, fun kind hkind => ?_, by decide, by decide⟩
    · rw [hbefore, Option.some.injEq, Prod.mk.injEq] at hkind
      simp [← hkind.2]
    · rw [hbehind, Option.some.injEq, Prod.mk.injEq] at hkind
      simp [← hkind.2]
  have hbreakable : Breakable .python above left ',' '\x27' right below l :=
    ⟨.inr (by decide), by decide, .inr ⟨_, rfl⟩, hl, hplace⟩
  have hterminated : (classify .python spaced).unterminated = none := by decide +kernel
  have hcloses : ∀ u, (classify .python spaced).unterminated = some u → u.1 ≠ l.number := by
    rw [hterminated]
    exact fun u hu => nomatch hu
  have hclosed : (readStatements .python spaced).unclosed = none := by decide +kernel
  refine ⟨by decide +kernel, by decide +kernel, l, hbreakable, hcloses, hdepth, ?_⟩
  obtain ⟨-, hnever | ⟨before, s, s', after, hs, hs', -, halike⟩⟩ :=
    readStatements_brokenText hbreakable hcloses hdepth
  · obtain ⟨-, m, -, hm, -⟩ := hnever
    rw [hclosed] at hm
    cases hm
  · exact ⟨before, s, s', after, hs, hs', halike⟩

/-- Where a literal behind the space stays open to the end of the text, its line is not read, and
with the line a statement is missed that ends on the upper one of the two. -/
theorem readStatements_brokenText_unclosed :
    let left := "x = 1; f(".toList
    let spaced := spacedText [] left 'a' '\x22' "\x22\x22".toList []
    let broken := brokenText [] left 'a' '\x22' "\x22\x22".toList []
    spaced = "x = 1; f(a \x22\x22\x22".toList ∧ broken = "x = 1; f(a\n\x22\x22\x22".toList ∧
      ∃ l, (classify .python spaced).lines = [l] ∧
      (marked l.segments)[left.length]? = some ('a', .code) ∧
      (marked l.segments)[left.length + 1]? = some (' ', .code) ∧
      (marked l.segments)[left.length + 2]? = some ('\x22', .literal) ∧
      bracketDepth [] l (left.length + 1) = 1 ∧ (readStatements .python spaced).statements.length =
        0 ∧ (readStatements .python broken).statements.length = 1 :=
  ⟨by decide +kernel, by decide +kernel, _, rfl, by decide +kernel, by decide +kernel,
    by decide +kernel, by decide +kernel, by decide +kernel, by decide +kernel⟩

end EndpointCensus
