import EndpointCensus.Proofs.Statement.Concatenation

/-!
The lines of statements. A statement covers the lines from the one it starts on to the one it was
last appended to. The drafts of an assembly, finished, held back and open, stand in the order of the
lines that they cover: only the last one grows, to the line at hand, and a new one starts there.
-/

namespace EndpointCensus

/-! ### Lines covered -/

def Statement.extent (s : Statement) : Nat × Nat := (s.startLine, s.endLine)

def Draft.extent (d : Draft) : Nat × Nat := (d.startLine, d.endLine)

/-- Ranges one after the other up to line `n`, of which two may share a line. -/
structure InOrder (n : Nat) (extents : List (Nat × Nat)) : Prop where
  pairwise : extents.Pairwise fun e f => e.2 ≤ f.1
  bounds : ∀ e ∈ extents, e.1 ≤ e.2 ∧ e.2 ≤ n

namespace InOrder

variable {n m : Nat} {extents : List (Nat × Nat)}

theorem nil (n : Nat) : InOrder n [] := ⟨.nil, fun _ he => absurd he List.not_mem_nil⟩

theorem mono (h : InOrder n extents) (hnm : n ≤ m) : InOrder m extents :=
  ⟨h.pairwise, fun e he => ⟨(h.bounds e he).1, Nat.le_trans (h.bounds e he).2 hnm⟩⟩

theorem sublist (h : InOrder n extents) {fewer : List (Nat × Nat)}
    (hfewer : fewer.Sublist extents) :
    InOrder n fewer := ⟨h.pairwise.sublist hfewer, fun e he => h.bounds e (hfewer.mem he)⟩

/-- A range starts at the last line. -/
theorem concat (h : InOrder n extents) (hnm : n ≤ m) : InOrder m (extents ++ [(m, m)]) where
  pairwise := by
    refine List.pairwise_append.mpr ⟨h.pairwise, List.pairwise_singleton _ _, fun e he f hf => ?_⟩
    rw [List.mem_singleton.mp hf]
    exact Nat.le_trans (h.bounds e he).2 hnm
  bounds := by
    intro e he
    rcases List.mem_append.mp he with he | he
    · exact (h.mono hnm).bounds e he
    · rw [List.mem_singleton.mp he]
      exact ⟨Nat.le_refl m, Nat.le_refl m⟩

/-- The last range grows to the last line. -/
theorem grow {start stop : Nat} (h : InOrder n (extents ++ [(start, stop)])) (hnm : n ≤ m) :
    InOrder m (extents ++ [(start, m)]) := by
  obtain ⟨hpairwise, -, hcross⟩ := List.pairwise_append.mp h.pairwise
  refine ⟨List.pairwise_append.mpr ⟨hpairwise, List.pairwise_singleton _ _, fun e he f hf => ?_⟩,
    fun e he => ?_⟩
  · rw [List.mem_singleton.mp hf]
    exact hcross e he (start, stop) (List.mem_singleton_self _)
  · rcases List.mem_append.mp he with he | he
    · exact (h.mono hnm).bounds e (List.mem_append_left _ he)
    · obtain ⟨hstart, hstop⟩ :=
        h.bounds (start, stop) (List.mem_append_right _ (List.mem_singleton_self _))
      rw [List.mem_singleton.mp he]
      exact ⟨Nat.le_trans hstart (Nat.le_trans hstop hnm), Nat.le_refl m⟩

end InOrder

/-! ### Drafts -/

namespace Draft

/-- A change of drafts that moves the last line to `line` at most. -/
def ReachesTo (line : Nat) (f : Draft → Draft) : Prop :=
  ∀ d, (f d).extent = d.extent ∨ (f d).extent = (d.startLine, line)

@[simp] theorem extent_append (d : Draft) (cells : List Cell) :
    (d.append cells).extent = d.extent := by
  unfold append
  dsimp only
  split <;> rfl

@[simp] theorem extent_trimCode (d : Draft) : d.trimCode.extent = d.extent := by
  unfold trimCode
  split <;> rfl

theorem ReachesTo.inOrder {n m : Nat} {f : Draft → Draft} (hf : ReachesTo m f) (hnm : n ≤ m)
    {before : List (Nat × Nat)} {d : Draft} (h : InOrder n (before ++ [d.extent])) :
    InOrder m (before ++ [(f d).extent]) := by
  rcases hf d with hsame | hline
  · rw [hsame]
    exact h.mono hnm
  · rw [hline]
    exact h.grow hnm

theorem reachesTo_enterLine (line : Nat) : ReachesTo line (·.enterLine line) := by
  intro d
  have hjoined : (if d.width == 0 then d else d.trimCode.append [.joint]).extent = d.extent := by
    split
    · rfl
    · rw [extent_append, extent_trimCode]
  dsimp only
  unfold enterLine
  split
  · exact .inl rfl
  · exact .inr (congrArg (fun e : Nat × Nat => (e.1, line)) hjoined)

theorem reachesTo_pushCode (line : Nat) (chunk : List Char) :
    ReachesTo line (·.pushCode line chunk) := by
  intro d
  unfold pushCode
  rw [extent_append]
  exact reachesTo_enterLine line d

theorem reachesTo_pushLiteral (line : Nat) (chunk : List Char) (continues : Bool) :
    ReachesTo line (·.pushLiteral line chunk continues) := by
  intro d
  have hline := reachesTo_enterLine line d
  cases continues with
  | true => exact hline
  | false => exact hline

theorem extent_finish {d : Draft} {s : Statement} (h : d.finish = some s) :
    s.extent = d.extent := by
  unfold finish at h
  dsimp only at h
  split at h
  · contradiction
  · obtain rfl := Option.some.inj h
    exact d.extent_trimCode

theorem extent_withoutContinuation? {d e : Draft} (h : d.withoutContinuation? = some e) :
    e.extent = d.extent := by
  unfold withoutContinuation? at h
  split at h
  · contradiction
  · split at h
    · obtain rfl := Option.some.inj h
      rfl
    · contradiction

end Draft

/-! ### Assemblies -/

namespace Assembly

def extents (a : Assembly) : List (Nat × Nat) :=
  a.finished.reverse.map Statement.extent ++ a.pending.toList.map Draft.extent ++
    a.current.toList.map Draft.extent

variable {n : Nat} {a : Assembly} {language : Language}

theorem extents_emit (a : Assembly) (d : Draft) :
    (a.emit d).extents.Sublist (a.finished.reverse.map Statement.extent ++ d.extent ::
      (a.pending.toList.map Draft.extent ++ a.current.toList.map Draft.extent)) := by
  unfold emit extents
  split
  · next s hs => simp [Draft.extent_finish hs]
  · simp

theorem extents_flushPending (a : Assembly) : a.flushPending.extents.Sublist a.extents := by
  unfold flushPending
  split
  · next d hd =>
    have hemit := extents_emit { a with pending := none } d
    simpa [extents, hd] using hemit
  · exact List.Sublist.refl _

theorem inOrder_modifyFor (h : InOrder n a.extents) {l : Line} (hn : n ≤ l.number)
    (chunk : List Char) {f : Draft → Draft} (hf : Draft.ReachesTo l.number f) :
    InOrder l.number (a.modifyFor language l chunk f).extents := by
  have hnew {before : List (Nat × Nat)} (hbefore : InOrder n before) :
      InOrder l.number (before ++ [(f (.ofLine l)).extent]) := by
    have hextent : (f (.ofLine l)).extent = (l.number, l.number) := by
      rcases hf (.ofLine l) with hsame | hline
      · exact hsame
      · exact hline
    rw [hextent]
    exact hbefore.concat hn
  unfold modifyFor
  split
  · next _ d hd =>
    simp only [extents, hd] at h
    exact hf.inOrder hn h
  · next d hnone hd =>
    simp only [extents, hnone, hd, Option.toList_none, List.map_nil, List.append_nil] at h
    split
    · simp only [extents, Option.toList_none, List.map_nil, List.append_nil]
      exact hf.inOrder hn h
    · have hflushed : InOrder n a.flushPending.extents := by
        refine InOrder.sublist ?_ a.extents_flushPending
        simpa [extents, hnone, hd] using h
      simp only [extents, current_flushPending, hnone, Option.toList_none, List.map_nil,
        List.append_nil] at hflushed
      exact hnew hflushed
  · next hnone hd =>
    simp only [extents, hnone, hd, Option.toList_none, List.map_nil, List.append_nil] at h
    simp only [extents, hd, Option.toList_none, List.map_nil, List.append_nil]
    exact hnew h

theorem inOrder_modifyCurrent (h : InOrder n a.extents) {m : Nat} (hn : n ≤ m) {f : Draft → Draft}
    (hf : Draft.ReachesTo m f) : InOrder m (a.modifyCurrent f).extents := by
  unfold modifyCurrent
  cases hd : a.current with
  | none =>
    simp only [extents, hd] at h
    exact h.mono hn
  | some d =>
    simp only [extents, hd] at h
    exact hf.inOrder hn h

theorem inOrder_pushCode (h : InOrder n a.extents) {l : Line} (hn : n ≤ l.number)
    (chunk : List Char) : InOrder l.number (a.pushCode language l chunk).extents := by
  unfold pushCode
  split
  · exact inOrder_modifyCurrent h hn (Draft.reachesTo_pushCode l.number chunk)
  · exact inOrder_modifyFor h hn chunk (Draft.reachesTo_pushCode l.number chunk)

theorem extents_endStatement (a : Assembly) : a.endStatement.extents.Sublist a.extents := by
  unfold endStatement
  split
  · next d hd =>
    have hflushed := extents_flushPending { a with current := none }
    have hemit := extents_emit (Assembly.flushPending { a with current := none }) d
    simp only [extents, pending_flushPending, current_flushPending, Option.toList_none,
      List.map_nil, List.append_nil] at hflushed hemit ⊢
    rw [hd]
    exact hemit.trans (hflushed.append (List.Sublist.refl _))
  · exact List.Sublist.refl _

theorem inOrder_feedCode (h : InOrder n a.extents) {l : Line} (hn : n ≤ l.number)
    (chunk seen rest : List Char) :
    InOrder l.number (a.feedCode language l chunk seen rest).extents := by
  induction rest generalizing n a chunk seen with
  | nil => exact inOrder_pushCode h hn chunk
  | cons c rest ih =>
    unfold feedCode
    split
    · exact ih (inOrder_modifyFor (f := Draft.openBracket) h hn chunk fun _ => .inl rfl)
        (Nat.le_refl _) chunk (c :: seen)
    · split
      · exact ih (inOrder_modifyCurrent (f := Draft.closeBracket) h hn fun _ => .inl rfl)
          (Nat.le_refl _) chunk (c :: seen)
      · split
        · exact ih ((inOrder_pushCode h hn seen.reverse).sublist (extents_endStatement _))
            (Nat.le_refl _) rest []
        · exact ih h hn chunk (c :: seen)

theorem inOrder_feedSegments (h : InOrder n a.extents) {l : Line} (hn : n ≤ l.number)
    (segments : List Segment) : InOrder l.number (a.feedSegments language l segments).extents := by
  induction segments generalizing n a with
  | nil => exact h.mono hn
  | cons s rest ih =>
    unfold feedSegments
    cases s.kind with
    | comment => exact ih h hn
    | code => exact ih (inOrder_feedCode h hn s.chars [] s.chars) (Nat.le_refl _)
    | literal =>
      exact ih (inOrder_modifyFor h hn s.chars (Draft.reachesTo_pushLiteral _ _ _)) (Nat.le_refl _)

theorem extents_endLine {language : Language} (h : a.OnlyScriptsWait language) :
    (a.endLine language).extents.Sublist a.extents := by
  unfold endLine
  split
  · exact List.Sublist.refl _
  · next d hd =>
    split
    · exact List.Sublist.refl _
    · split
      · next e he =>
        simp only [extents, hd, Option.toList_some, List.map_cons,
          Draft.extent_withoutContinuation? he]
        exact List.Sublist.refl _
      · split
        · have hflushed := extents_flushPending { a with current := none }
          simp only [extents, pending_flushPending, current_flushPending, Option.toList_none,
            List.map_nil, List.append_nil] at hflushed ⊢
          rw [hd]
          exact hflushed.append (List.Sublist.refl _)
        · have hemit := extents_emit { a with current := none } d
          simpa [extents, hd, h rfl] using hemit

theorem inOrder_feedLine (h : InOrder n a.extents) (hwait : a.OnlyScriptsWait language) {l : Line}
    (hn : n ≤ l.number) : InOrder l.number (a.feedLine language l).extents := by
  unfold feedLine
  split
  · exact h.mono hn
  · exact (inOrder_feedSegments h hn l.segments).sublist
      (extents_endLine (hwait.feedSegments l l.segments))

/-- Lines that follow each other are covered in order. -/
theorem inOrder_foldl_feedLine (h : InOrder n a.extents) (hwait : a.OnlyScriptsWait language)
    {lines : List Line} {m : Nat} (hlines : lines.Pairwise fun l l' => l.number ≤ l'.number)
    (hbounds : ∀ l ∈ lines, n ≤ l.number ∧ l.number ≤ m) (hnm : n ≤ m) :
    InOrder m (lines.foldl (feedLine language) a).extents := by
  induction lines generalizing n a with
  | nil => exact h.mono hnm
  | cons l rest ih =>
    obtain ⟨hlower, hupper⟩ := hbounds l List.mem_cons_self
    obtain ⟨hfirst, hrest⟩ := List.pairwise_cons.mp hlines
    refine ih (inOrder_feedLine h hwait hlower) (hwait.feedLine l) hrest (fun l' hl' => ?_) hupper
    exact ⟨hfirst l' hl', (hbounds l' (List.mem_cons_of_mem l hl')).2⟩

end Assembly

/-! ### Texts -/

/-- The statements of a text cover lines in order, none of them below the last line that is read. -/
theorem inOrder_readStatements (language : Language) (cs : List Char) {m : Nat}
    (hm : ∀ l ∈ (classify language cs).readable, l.number ≤ m) :
    InOrder m ((readStatements language cs).statements.map Statement.extent) := by
  have hnumbers : (classify language cs).lines.Pairwise fun l l' => l.number ≤ l'.number := by
    rw [← List.pairwise_map (f := Line.number) (R := (· ≤ ·)), classify, map_number_scanLines]
    exact List.pairwise_le_range'
  have hstart : InOrder 0 ({} : Assembly).extents := .nil 0
  have hwait : ({} : Assembly).OnlyScriptsWait language := fun _ => rfl
  have hfold := Assembly.inOrder_foldl_feedLine hstart hwait
    (hnumbers.sublist (classify language cs).prefix_lines.sublist)
    (fun l hl => ⟨Nat.zero_le _, hm l hl⟩) (Nat.zero_le m)
  rw [readStatements, LineTable.assemble_eq]
  refine hfold.sublist (.trans ?_ (Assembly.extents_flushPending _))
  rw [Assembly.extents, List.append_assoc]
  exact List.sublist_append_left _ _

end EndpointCensus
