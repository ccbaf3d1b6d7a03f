import EndpointCensus.Proofs.Statement.Parted

/-!
Two assemblies behind a break. The statement that is broken is open in both, is held back in both,
or is finished; from then on the second assembly is the first one, one line further down. A step of
the first on a line and the same step of the second on the line below keep them so.
-/

namespace EndpointCensus

section Zero

variable {language : Language} {l : Line} (base : List Statement) (a : Assembly)

theorem Cell.below_zero : Cell.below 0 = id := by
  funext ⟨c, line⟩
  cases line <;> rfl

theorem Piece.below_zero : Piece.below 0 = id := by
  funext p
  cases p <;> simp [Piece.below, Cell.below_zero]

theorem Draft.below_zero (d : Draft) : d.below 0 = d := by
  cases d
  simp [Draft.below, Piece.below_zero, Cell.below_zero]

theorem Statement.below_zero (s : Statement) : s.below 0 = s := by
  cases s
  simp [Statement.below, Piece.below_zero]

theorem Line.below_zero (l : Line) : l.below 0 = l := rfl

end Zero

namespace Assembly

/-- The assemblies behind a break of the statement that goes on with `b` behind `lead`. The
statements of `base` were finished before it, and `seen` was read and not appended. -/
inductive Parted (lead : List Char) (b : Char) (offset n : Nat) (base : List Statement)
    (seen : List Char) : Assembly → Assembly → Prop where
  | current {d d' : Draft} (parted : d.Parted offset n d') (goesOn : d.GoesOn lead b seen) :
      Parted lead b offset n base seen ⟨base, some d, none⟩ ⟨base, some d', none⟩
  | pending {d d' : Draft} (parted : d.Parted offset n d') (goesOn : d.GoesOn lead b []) :
      Parted lead b offset n base seen ⟨base, none, some d⟩ ⟨base, none, some d'⟩
  | finished {s s' : Statement} (a : Assembly) (parted : s.Parted offset n s')
      (text : ∃ more, s.text = lead ++ b :: more) :
      Parted lead b offset n base seen (a.after 0 (s :: base)) (a.after 1 (s' :: base))

/-- What is done to a draft and to the one that is parted from it, while `seen` becomes `seen'`. -/
structure Moves (lead : List Char) (b : Char) (offset n : Nat) (seen seen' : List Char)
    (f g : Draft → Draft) : Prop where
  parted : ∀ {d d'}, d.Parted offset n d' → (f d).Parted offset n (g d')
  goesOn : ∀ {d}, d.GoesOn lead b seen → (f d).GoesOn lead b seen'
  below : ∀ d, (f d).below 1 = g (d.below 1)

variable {lead : List Char} {b : Char} {offset n : Nat} {base : List Statement}
  {seen seen' : List Char} {a a' : Assembly} {language : Language} {l : Line} {f g : Draft → Draft}

theorem moves_pushCode (hb : Text.isBlank b = false) (line : Nat) :
    Moves lead b offset n seen [] (·.pushCode line seen.reverse)
      (·.pushCode (line + 1) seen.reverse) :=
  ⟨fun h => h.pushCode line _, fun h => h.pushCode hb line, fun d => d.below_pushCode 1 line _⟩

theorem moves_pushLiteral (hb : Text.isBlank b = false) (line : Nat) (chunk : List Char)
    (continues : Bool) :
    Moves lead b offset n [] [] (·.pushLiteral line chunk continues)
      (·.pushLiteral (line + 1) chunk continues) :=
  ⟨fun h => h.pushLiteral line chunk continues, fun h => h.pushLiteral hb line chunk continues,
    fun d => d.below_pushLiteral 1 line chunk continues⟩

theorem moves_openBracket (c : Char) :
    Moves lead b offset n seen (c :: seen) .openBracket .openBracket :=
  ⟨fun h => h.openBracket, fun h => h.openBracket (c :: seen), fun _ => rfl⟩

theorem moves_closeBracket {c : Char} (hc : Text.isCloser c = true) :
    Moves lead b offset n seen (c :: seen) .closeBracket .closeBracket :=
  ⟨fun h => h.closeBracket, fun h => h.closeBracket hc, fun _ => rfl⟩

namespace Parted

theorem mono (h : Parted lead b offset n base seen a a') (hseen : seen ⊆ seen') :
    Parted lead b offset n base seen' a a' := by
  cases h with
  | current hd hlasts => exact .current hd (hlasts.mono hseen)
  | pending hd hlasts => exact .pending hd hlasts
  | finished a hs htext => exact .finished a hs htext

theorem depth (h : Parted lead b offset n base seen a a') : a'.depth = a.depth := by
  cases h with
  | current hd _ => exact hd.depth
  | pending => rfl
  | finished a _ _ => rw [depth_after, depth_after]

theorem isNone (h : Parted lead b offset n base seen a a') :
    a'.current.isNone = a.current.isNone := by
  cases h with
  | current | pending => rfl
  | finished a _ _ => simp [after]

/-- The statement is finished. -/
theorem emit (hb : Text.isBlank b = false) {d d' : Draft} (hd : d.Parted offset n d')
    (hlasts : d.GoesOn lead b []) :
    Parted lead b offset n base seen (Assembly.emit ⟨base, none, none⟩ d)
      (Assembly.emit ⟨base, none, none⟩ d') := by
  obtain ⟨s, s', hs, hs', hparted, htext⟩ := hlasts.exists_finish hb hd
  unfold Assembly.emit
  rw [hs, hs']
  exact .finished {} hparted htext

theorem flushPending (hb : Text.isBlank b = false) (h : Parted lead b offset n base seen a a') :
    Parted lead b offset n base seen a.flushPending a'.flushPending := by
  cases h with
  | current hd hlasts => exact .current hd hlasts
  | pending hd hlasts => exact emit hb hd hlasts
  | finished a hs htext =>
    rw [← after_flushPending, ← after_flushPending]
    exact .finished a.flushPending hs htext

theorem modifyCurrent (h : Parted lead b offset n base seen a a')
    (hf : Moves lead b offset n seen seen' f g) :
    Parted lead b offset n base seen' (a.modifyCurrent f) (a'.modifyCurrent g) := by
  cases h with
  | current hd hlasts => exact .current (hf.parted hd) (hf.goesOn hlasts)
  | pending hd hlasts => exact .pending hd hlasts
  | finished a hs htext =>
    rw [← after_modifyCurrent 0 _ a (f := f) fun d => by rw [Draft.below_zero, Draft.below_zero],
      ← after_modifyCurrent 1 _ a hf.below]
    exact .finished _ hs htext

theorem modifyFor (hb : Text.isBlank b = false) (h : Parted lead b offset n base seen a a')
    (chunk : List Char) (hf : Moves lead b offset n seen seen' f g) :
    Parted lead b offset n base seen' (a.modifyFor language l chunk f)
      (a'.modifyFor language (l.below 1) chunk g) := by
  cases h with
  | current hd hlasts => exact .current (hf.parted hd) (hf.goesOn hlasts)
  | pending hd hlasts =>
    unfold Assembly.modifyFor
    dsimp only
    split
    · exact .current (hf.parted hd) (hf.goesOn (hlasts.mono (List.nil_subset _)))
    · obtain ⟨s, s', hs, hs', hparted, htext⟩ := hlasts.exists_finish hb hd
      have hnew : g (.ofLine (l.below 1)) = (f (.ofLine l)).below 1 := (hf.below (.ofLine l)).symm
      unfold Assembly.flushPending Assembly.emit
      dsimp only
      rw [hs, hs', hnew]
      have hopen :=
        @Parted.finished lead b _ _ base seen' _ _ ⟨[], some (f (.ofLine l)), none⟩ hparted htext
      simpa [after, Draft.below_zero] using hopen
  | @finished s s' a hs htext =>
    have hzero := after_modifyFor 0 (s :: base) a language l chunk (f := f) (g := f) fun d => by
      rw [Draft.below_zero, Draft.below_zero]
    rw [Line.below_zero] at hzero
    rw [← after_modifyFor 1 _ a language l chunk hf.below, ← hzero]
    exact .finished _ hs htext

theorem pushCode (hb : Text.isBlank b = false) (h : Parted lead b offset n base seen a a') :
    Parted lead b offset n base [] (a.pushCode language l seen.reverse)
      (a'.pushCode language (l.below 1) seen.reverse) := by
  unfold Assembly.pushCode
  split
  · exact h.modifyCurrent (moves_pushCode hb l.number)
  · exact h.modifyFor hb _ (moves_pushCode hb l.number)

theorem endStatement (hb : Text.isBlank b = false) (h : Parted lead b offset n base [] a a') :
    Parted lead b offset n base seen a.endStatement a'.endStatement := by
  cases h with
  | current hd hlasts => exact emit hb hd hlasts
  | pending hd hlasts => exact .pending hd hlasts
  | finished a hs htext =>
    rw [← after_endStatement, ← after_endStatement]
    exact .finished _ hs htext

theorem feedCode (hb : Text.isBlank b = false) (h : Parted lead b offset n base seen a a')
    (rest : List Char) :
    Parted lead b offset n base [] (a.feedCode language l (seen.reverse ++ rest) seen rest)
      (a'.feedCode language (l.below 1) (seen.reverse ++ rest) seen rest) := by
  induction rest generalizing a a' seen with
  | nil =>
    rw [List.append_nil]
    exact h.pushCode hb
  | cons c rest ih =>
    have hread {x x' : Assembly} (hx : Parted lead b offset n base (c :: seen) x x') :
        Parted lead b offset n base [] (x.feedCode language l (seen.reverse ++ c :: rest)
          (c :: seen) rest) (x'.feedCode language (l.below 1) (seen.reverse ++ c :: rest)
            (c :: seen) rest) := by
      have hnext := ih hx
      rwa [List.reverse_cons, List.append_assoc, List.singleton_append] at hnext
    unfold Assembly.feedCode
    rw [h.depth]
    split
    · exact hread (h.modifyFor hb _ (moves_openBracket c))
    · split
      · next hcloser => exact hread (h.modifyCurrent (moves_closeBracket hcloser))
      · split
        · exact @ih [] _ _ ((h.pushCode hb).endStatement hb)
        · exact hread (h.mono (List.subset_cons_self c seen))

theorem feedSegments (hb : Text.isBlank b = false) (h : Parted lead b offset n base [] a a')
    (segments : List Segment) : Parted lead b offset n base [] (a.feedSegments language l segments)
      (a'.feedSegments language (l.below 1) segments) := by
  induction segments generalizing a a' with
  | nil => exact h
  | cons s rest ih =>
    unfold Assembly.feedSegments
    cases s.kind with
    | comment => exact ih h
    | code => exact ih (h.feedCode hb s.chars)
    | literal => exact ih (h.modifyFor hb s.chars (moves_pushLiteral hb l.number s.chars _))

theorem endLine (hb : Text.isBlank b = false) (h : Parted lead b offset n base [] a a') :
    Parted lead b offset n base [] (a.endLine language) (a'.endLine language) := by
  cases h with
  | @current d d' hd hlasts =>
    unfold Assembly.endLine
    dsimp only
    rw [hd.isOpen]
    split
    · exact .current hd hlasts
    · next hopen =>
      have hrel := hd.withoutContinuation?
      generalize hx : d.withoutContinuation? = x at hrel
      generalize d'.withoutContinuation? = x' at hrel
      cases hrel with
      | some he => exact .current he (hlasts.withoutContinuation? (Bool.eq_false_iff.mpr hopen) hx)
      | none =>
        cases language with
        | python => exact emit hb hd hlasts
        | script => exact .pending hd hlasts
  | pending hd hlasts => exact .pending hd hlasts
  | finished a hs htext =>
    rw [← after_endLine, ← after_endLine]
    exact .finished _ hs htext

theorem feedLine (hb : Text.isBlank b = false) (h : Parted lead b offset n base [] a a')
    (l : Line) :
    Parted lead b offset n base [] (a.feedLine language l) (a'.feedLine language (l.below 1)) := by
  have htag : (l.below 1).tag = l.tag := rfl
  have hcontent : (l.below 1).hasContent = l.hasContent := rfl
  unfold Assembly.feedLine
  rw [h.isNone, htag, hcontent]
  split
  · exact h
  · exact (h.feedSegments hb l.segments).endLine hb

/-- What comes behind the break gives the same statements, one line further down. -/
theorem foldl_feedLine (language : Language) (hb : Text.isBlank b = false)
    (h : Parted lead b offset n base [] a a') (lines : List Line) :
    Parted lead b offset n base [] (lines.foldl (Assembly.feedLine language) a)
      ((lines.map (Line.below 1)).foldl (Assembly.feedLine language) a') := by
  induction lines generalizing a a' with
  | nil => exact h
  | cons l lines ih => exact ih (h.feedLine hb l)

end Parted

end Assembly

end EndpointCensus
