import EndpointCensus.Statement.Assembly

/-! Which statement an assembly holds back. Finishing statements leaves the open one
and the one held back as they are, flushing empties the second place, and in Python
that place is never taken. -/

namespace EndpointCensus.Assembly

variable {a : Assembly} {language : Language}

@[simp] theorem current_emit (a : Assembly) (d : Draft) : (a.emit d).current = a.current := by
  unfold emit
  split <;> rfl

@[simp] theorem pending_emit (a : Assembly) (d : Draft) : (a.emit d).pending = a.pending := by
  unfold emit
  split <;> rfl

@[simp] theorem current_flushPending (a : Assembly) : a.flushPending.current = a.current := by
  unfold flushPending
  split
  · exact current_emit _ _
  · rfl

@[simp] theorem pending_flushPending (a : Assembly) : a.flushPending.pending = none := by
  unfold flushPending
  split
  · exact pending_emit _ _
  · assumption

theorem flushPending_of_none (h : a.pending = none) : a.flushPending = a := by
  unfold flushPending
  rw [h]

/-- Only scripts hold statements back. -/
def OnlyScriptsWait (language : Language) (a : Assembly) : Prop :=
  language = .python → a.pending = none

theorem OnlyScriptsWait.modifyFor (h : a.OnlyScriptsWait language) (l : Line) (chunk : List Char)
    (f : Draft → Draft) : (a.modifyFor language l chunk f).OnlyScriptsWait language := by
  intro hpython
  unfold Assembly.modifyFor
  split
  · exact h hpython
  · split
    · rfl
    · exact pending_flushPending a
  · exact h hpython

theorem OnlyScriptsWait.pushCode (h : a.OnlyScriptsWait language) (l : Line) (chunk : List Char) :
    (a.pushCode language l chunk).OnlyScriptsWait language := by
  unfold Assembly.pushCode
  split
  · exact h
  · exact h.modifyFor l chunk _

theorem OnlyScriptsWait.endStatement (h : a.OnlyScriptsWait language) :
    a.endStatement.OnlyScriptsWait language := by
  unfold Assembly.endStatement
  split
  · intro _
    rw [pending_emit, pending_flushPending]
  · exact h

theorem OnlyScriptsWait.feedCode (h : a.OnlyScriptsWait language) (l : Line)
    (chunk seen rest : List Char) :
    (a.feedCode language l chunk seen rest).OnlyScriptsWait language := by
  induction rest generalizing a chunk seen with
  | nil => exact h.pushCode l chunk
  | cons c rest ih =>
    unfold Assembly.feedCode
    split
    · exact ih (h.modifyFor l chunk _) chunk (c :: seen)
    · split
      · exact ih (a := a.modifyCurrent .closeBracket) h chunk (c :: seen)
      · split
        · exact ih (h.pushCode l seen.reverse).endStatement rest []
        · exact ih h chunk (c :: seen)

theorem OnlyScriptsWait.feedSegments (h : a.OnlyScriptsWait language) (l : Line)
    (segments : List Segment) : (a.feedSegments language l segments).OnlyScriptsWait language := by
  induction segments generalizing a with
  | nil => exact h
  | cons s rest ih =>
    unfold Assembly.feedSegments
    cases s.kind with
    | comment => exact ih h
    | code => exact ih (h.feedCode l s.chars [] s.chars)
    | literal => exact ih (h.modifyFor l s.chars _)

theorem OnlyScriptsWait.endLine (h : a.OnlyScriptsWait language) :
    (a.endLine language).OnlyScriptsWait language := by
  unfold Assembly.endLine
  split
  · exact h
  · split
    · exact h
    · split
      · exact h
      · split
        · intro hpython
          contradiction
        · intro hpython
          rw [pending_emit]
          exact h hpython

theorem OnlyScriptsWait.feedLine (h : a.OnlyScriptsWait language) (l : Line) :
    (a.feedLine language l).OnlyScriptsWait language := by
  unfold Assembly.feedLine
  split
  · exact h
  · exact (h.feedSegments l l.segments).endLine

theorem OnlyScriptsWait.foldl_feedLine (h : a.OnlyScriptsWait language) (lines : List Line) :
    (lines.foldl (Assembly.feedLine language) a).OnlyScriptsWait language := by
  induction lines generalizing a with
  | nil => exact h
  | cons l rest ih => exact ih (h.feedLine l)

/-- Assembly starts with nothing held back. -/
theorem onlyScriptsWait_lines (language : Language) (lines : List Line) :
    (lines.foldl (feedLine language) {}).OnlyScriptsWait language :=
  OnlyScriptsWait.foldl_feedLine (fun _ => rfl) lines

end EndpointCensus.Assembly
