import EndpointCensus.Proofs.Statement.Quoted

/-! Two assemblies in lockstep. Assemblies in Python whose statements and drafts are alike stay so
over the same code and literals. A line may be indented otherwise for one of them when the
statements that start on it are free to. -/

namespace EndpointCensus

/-- The lines are the same to assembly, but for the indentation of a free one. -/
structure Line.Near (free : Nat → Prop) (l l' : Line) : Prop where
  number : l'.number = l.number
  literalOpen : l'.literalOpen = l.literalOpen
  indent : ¬free l.number → indentWidth l'.text = indentWidth l.text

theorem Line.Near.refl {free : Nat → Prop} (l : Line) : l.Near free l := ⟨rfl, rfl, fun _ => rfl⟩

theorem Line.Near.ofLine {free : Nat → Prop} {l l' : Line} (h : l.Near free l') :
    Draft.Alike free (.ofLine l) (.ofLine l') := by
  have hdraft : Draft.ofLine l' = (Draft.ofLine l).withIndent (indentWidth l'.text) := by
    unfold Draft.ofLine
    rw [h.number]
    rfl
  rw [hdraft]
  exact .indent h.indent

namespace Assembly

/-- Statements and drafts are alike, one by one, and nothing is held back. -/
structure Alike (free : Nat → Prop) (a a' : Assembly) : Prop where
  finished : List.Forall₂ (Statement.Alike free) a.finished a'.finished
  current : Option.Rel (Draft.Alike free) a.current a'.current
  pending : a.pending = none ∧ a'.pending = none

namespace Alike

variable {free : Nat → Prop} {a a' : Assembly} {l l' : Line}

theorem cases_current (h : Alike free a a') :
    (a.current = none ∧ a'.current = none) ∨
      ∃ d d', a.current = some d ∧ a'.current = some d' ∧ Draft.Alike free d d' := by
  have hcurrent := h.current
  generalize a.current = x at hcurrent
  generalize a'.current = x' at hcurrent
  cases hcurrent with
  | none => exact .inl ⟨rfl, rfl⟩
  | some hd => exact .inr ⟨_, _, rfl, rfl, hd⟩

theorem hold (h : Alike free a a') {d d' : Draft} (hd : Draft.Alike free d d') :
    Alike free { a with current := some d } { a' with current := some d' } :=
  ⟨h.finished, .some hd, h.pending⟩

theorem emit (h : Alike free a a') {d d' : Draft} (hd : Draft.Alike free d d') :
    Alike free (a.emit d) (a'.emit d') := by
  have hfinish := hd.finish
  unfold Assembly.emit
  generalize d.finish = x at hfinish
  generalize d'.finish = x' at hfinish
  cases hfinish with
  | none => exact h
  | some hs => exact ⟨.cons hs h.finished, h.current, h.pending⟩

theorem modifyFor (h : Alike free a a') (hl : l.Near free l') (chunk : List Char)
    {f : Draft → Draft} (hf : ∀ {d d'}, Draft.Alike free d d' → Draft.Alike free (f d) (f d')) :
    Alike free (a.modifyFor .python l chunk f) (a'.modifyFor .python l' chunk f) := by
  rw [modifyFor_of_pending h.pending.1, modifyFor_of_pending h.pending.2]
  refine h.hold (hf ?_)
  rcases h.cases_current with ⟨hnone, hnone'⟩ | ⟨d, d', hd, hd', halike⟩
  · rw [hnone, hnone']
    exact hl.ofLine
  · rw [hd, hd']
    exact halike

theorem modifyCurrent (h : Alike free a a') {f : Draft → Draft}
    (hf : ∀ {d d'}, Draft.Alike free d d' → Draft.Alike free (f d) (f d')) :
    Alike free (a.modifyCurrent f) (a'.modifyCurrent f) := by
  refine ⟨h.finished, ?_, h.pending⟩
  unfold Assembly.modifyCurrent
  dsimp only
  rcases h.cases_current with ⟨hnone, hnone'⟩ | ⟨d, d', hd, hd', halike⟩
  · rw [hnone, hnone']
    exact .none
  · rw [hd, hd']
    exact .some (hf halike)

theorem depth (h : Alike free a a') : a'.depth = a.depth := by
  unfold Assembly.depth
  rcases h.cases_current with ⟨hnone, hnone'⟩ | ⟨d, d', hd, hd', halike⟩
  · rw [hnone, hnone']
  · rw [hd, hd', Option.map_some, Option.map_some, halike.depth]

theorem pushCode (h : Alike free a a') (hl : l.Near free l') (chunk : List Char) :
    Alike free (a.pushCode .python l chunk) (a'.pushCode .python l' chunk) := by
  unfold Assembly.pushCode
  rw [hl.number]
  split
  · exact h.modifyCurrent fun hd => hd.pushCode l.number chunk
  · exact h.modifyFor hl chunk fun hd => hd.pushCode l.number chunk

theorem clear (h : Alike free a a') :
    Alike free { a with current := none } { a' with current := none } :=
  ⟨h.finished, .none, h.pending⟩

theorem endStatement (h : Alike free a a') : Alike free a.endStatement a'.endStatement := by
  unfold Assembly.endStatement
  rcases h.cases_current with ⟨hnone, hnone'⟩ | ⟨d, d', hd, hd', halike⟩
  · rw [hnone, hnone']
    exact h
  · rw [hd, hd']
    dsimp only
    rw [flushPending_of_none h.clear.pending.1, flushPending_of_none h.clear.pending.2]
    exact h.clear.emit halike

theorem feedCode (h : Alike free a a') (hl : l.Near free l') (chunk seen rest : List Char) :
    Alike free (a.feedCode .python l chunk seen rest) (a'.feedCode .python l' chunk seen rest) := by
  induction rest generalizing a a' chunk seen with
  | nil => exact h.pushCode hl chunk
  | cons c rest ih =>
    unfold Assembly.feedCode
    rw [h.depth]
    split
    · exact ih (h.modifyFor hl chunk .openBracket) chunk (c :: seen)
    · split
      · exact ih (h.modifyCurrent .closeBracket) chunk (c :: seen)
      · split
        · exact ih (h.pushCode hl seen.reverse).endStatement rest []
        · exact ih h chunk (c :: seen)

theorem feedSegments (h : Alike free a a') (hl : l.Near free l') (segments : List Segment) :
    Alike free (a.feedSegments .python l segments) (a'.feedSegments .python l' segments) := by
  induction segments generalizing a a' with
  | nil => exact h
  | cons s rest ih =>
    unfold Assembly.feedSegments
    rw [hl.number, hl.literalOpen]
    cases s.kind with
    | comment => exact ih h
    | code => exact ih (h.feedCode hl s.chars [] s.chars)
    | literal => exact ih (h.modifyFor hl s.chars fun hd => hd.pushLiteral l.number s.chars _)

theorem endLine (h : Alike free a a') : Alike free (a.endLine .python) (a'.endLine .python) := by
  unfold Assembly.endLine
  rcases h.cases_current with ⟨hnone, hnone'⟩ | ⟨d, d', hd, hd', halike⟩
  · rw [hnone, hnone']
    exact h
  · rw [hd, hd']
    dsimp only
    rw [halike.isOpen]
    split
    · exact h
    · have hrel := halike.withoutContinuation?
      generalize d.withoutContinuation? = x at hrel
      generalize d'.withoutContinuation? = x' at hrel
      cases hrel with
      | none => exact h.clear.emit halike
      | some he => exact h.hold he

theorem feedLine (h : Alike free a a') (l : Line) :
    Alike free (a.feedLine .python l) (a'.feedLine .python l) := by
  have hnone : a'.current.isNone = a.current.isNone := by
    rcases h.cases_current with ⟨hnone, hnone'⟩ | ⟨d, d', hd, hd', -⟩
    · rw [hnone, hnone']
    · rw [hd, hd']
      rfl
  unfold Assembly.feedLine
  rw [hnone]
  split
  · exact h
  · exact (h.feedSegments (.refl l) l.segments).endLine

theorem foldl_feedLine (h : Alike free a a') (lines : List Line) :
    Alike free (lines.foldl (Assembly.feedLine .python) a)
      (lines.foldl (Assembly.feedLine .python) a') := by
  induction lines generalizing a a' with
  | nil => exact h
  | cons l rest ih => exact ih (h.feedLine l)

end Alike

end Assembly

end EndpointCensus
