import EndpointCensus.Proofs.Statement.Quoted
import EndpointCensus.Unit.Scope

/-!
Statements of Python that begin with a quote. Every idiom reads a name, a word or the mark of a
decorator at the start of a statement, and so do imports and declarations. A quote is none of these,
so such a statement imports nothing, declares nothing, opens no scope and registers nothing,
whatever follows the quote.
-/

namespace EndpointCensus

open Text

/-! ### Recognisers -/

theorem isQuote_cases {q : Char} (hq : isQuote q = true) : q = '\x27' ∨ q = '\x22' := by
  unfold isQuote at hq
  simpa using hq

theorem not_start_of_isQuote {q : Char} (hq : isQuote q = true) :
    isNameStart q = false ∧ isWordStart q = false ∧ isBlank q = false ∧ (q == '@') = false := by
  rcases isQuote_cases hq with rfl | rfl <;> decide

variable {q : Char} (hq : isQuote q = true) (cs : List Char)

include hq

theorem identifier?_quote : identifier? (q :: cs) = none := by
  simp [identifier?, not_start_of_isQuote hq]

theorem word?_quote : word? (q :: cs) = none := by
  simp [word?, not_start_of_isQuote hq]

theorem dottedName?_quote : dottedName? (q :: cs) = none := by
  simp [dottedName?, not_start_of_isQuote hq]

theorem after?_quote {word : String} (hword : word.toList.head?.any (!isQuote ·) = true) :
    after? word (q :: cs) = none := by
  unfold after? startsWith
  cases h : word.toList with
  | nil => simp [h] at hword
  | cons c rest =>
    have hne : (c == q) = false := by
      rw [beq_eq_false_iff_ne]
      rintro rfl
      simp [h, hq] at hword
    simp [List.isPrefixOf, hne]

theorem afterWord?_quote {words : List String}
    (hwords : ∀ w ∈ words, w.toList.head?.any (!isQuote ·) = true) :
    afterWord? words (q :: cs) = none := by
  unfold afterWord?
  rw [List.findSome?_eq_none_iff]
  intro w hw
  rw [after?_quote hq cs (hwords w hw)]
  rfl

theorem exists_trim_quote : ∃ rest, trim (q :: cs) = q :: rest := by
  have hblank := (not_start_of_isQuote hq).2.2.1
  have hstart : trimStart (q :: cs) = q :: cs := List.dropWhile_cons_of_neg (by simp [hblank])
  rw [trim, hstart, trimEnd, dropEndWhile, hblank, Bool.and_false, if_neg Bool.false_ne_true]
  exact ⟨_, rfl⟩

omit hq

/-! ### Declarations and imports -/

theorem Expr.masked_ofStatement (s : Statement) : (Expr.ofStatement s).masked = s.masked := rfl

namespace Statement.BeginsWithQuote

variable {s : Statement} (h : s.BeginsWithQuote)

include h

theorem exists_masked : ∃ q cs, s.masked = q :: cs ∧ isQuote q = true := by
  unfold BeginsWithQuote at h
  cases hmasked : s.masked with
  | nil => simp [hmasked] at h
  | cons q cs =>
    rw [hmasked] at h
    exact ⟨q, cs, rfl, h⟩

theorem isDecorator : (Expr.ofStatement s).isDecorator = false := by
  obtain ⟨q, cs, hmasked, hq⟩ := h.exists_masked
  have hne := (not_start_of_isQuote hq).2.2.2
  unfold Expr.isDecorator
  rw [Expr.masked_ofStatement, hmasked]
  simpa using hne

theorem defName? : s.defName? = none := by
  obtain ⟨q, cs, hmasked, hq⟩ := h.exists_masked
  unfold Statement.defName?
  dsimp only
  rw [Expr.masked_ofStatement, hmasked, afterWord?_quote hq cs (by decide),
    Option.getD_none, afterWord?_quote hq cs (by decide)]
  rfl

theorem className? : s.className? = none := by
  obtain ⟨q, cs, hmasked, hq⟩ := h.exists_masked
  unfold Statement.className?
  dsimp only
  rw [Expr.masked_ofStatement, hmasked, afterWord?_quote hq cs (by decide)]
  rfl

theorem scope? : s.scope? = none := by
  unfold Statement.scope?
  rw [h.defName?, h.className?]
  rfl

theorem scanPython (t : ImportTable) : t.scanPython s = (t, false) := by
  obtain ⟨q, cs, hmasked, hq⟩ := h.exists_masked
  obtain ⟨rest, htrim⟩ := exists_trim_quote hq cs
  have hfrom : ImportTable.fromImport? (q :: rest) = none := by
    unfold ImportTable.fromImport?
    rw [after?_quote hq rest (by decide)]
    rfl
  have himport : ImportTable.afterImport? (q :: rest) = none := by
    unfold ImportTable.afterImport?
    rw [afterWord?_quote hq rest (by decide)]
    rfl
  unfold ImportTable.scanPython
  rw [hmasked, htrim]
  dsimp only
  rw [hfrom, himport]

/-! ### Idioms -/

theorem assignment? : (Expr.ofStatement s).assignment? = none := by
  obtain ⟨q, cs, hmasked, hq⟩ := h.exists_masked
  have hparts : Assignment.parts? (q :: cs) = none := by
    unfold Assignment.parts?
    have hkeyword : afterWord? ["const", "let", "var"] (q :: cs) = none :=
      afterWord?_quote hq cs (by decide)
    rw [afterWord?_quote hq cs (by decide)]
    simp [hkeyword, identifier?_quote hq cs]
  unfold Expr.assignment?
  rw [Expr.masked_ofStatement, hmasked, hparts]
  rfl

theorem memberCall? (members : List String) :
    Decorator.memberCall? members (.ofStatement s) = none := by
  obtain ⟨q, cs, hmasked, hq⟩ := h.exists_masked
  have hrun : Decorator.memberRun? (q :: cs) = none := by
    simp [Decorator.memberRun?, not_start_of_isQuote hq]
  unfold Decorator.memberCall?
  rw [Expr.masked_ofStatement, hmasked, hrun]
  rfl

end Statement.BeginsWithQuote

section Idioms

variable {c : Context} (h : c.statement.BeginsWithQuote) (hpython : c.language = .python)

include h

theorem Decorator.match?_quoted : Decorator.match? c = none := by
  unfold Decorator.match? Context.expr
  dsimp only
  rw [h.isDecorator, if_neg Bool.false_ne_true]
  unfold Decorator.constructed? Decorator.included? Decorator.applied?
  rw [h.assignment?, h.memberCall?, h.memberCall?]
  rfl

theorem UrlTable.match?_quoted : UrlTable.match? c = none := by
  obtain ⟨q, cs, hmasked, hq⟩ := h.exists_masked
  have hassigned : UrlTable.assigned? (q :: cs) = none := by
    unfold UrlTable.assigned?
    rw [word?_quote hq cs]
    rfl
  unfold UrlTable.match? Context.expr
  dsimp only
  rw [Expr.masked_ofStatement, hmasked, hassigned]
  rfl

theorem Resource.match?_quoted : Resource.match? c = none := by
  unfold Resource.match? Context.expr
  cases c.owner? with
  | none =>
    dsimp only
    unfold Resource.constructed? Resource.registered?
    rw [h.assignment?, h.memberCall?]
    rfl
  | some owner =>
    dsimp only
    unfold Resource.member?
    rw [h.isDecorator, if_neg Bool.false_ne_true, h.defName?]
    rfl

theorem ClassView.match?_quoted : ClassView.match? c = none := by
  unfold ClassView.match?
  rw [h.className?, h.defName?]
  cases c.owner? <;> rfl

include hpython

theorem MemberCall.match?_quoted : MemberCall.match? c = none := by
  obtain ⟨q, cs, hmasked, hq⟩ := h.exists_masked
  have hcallee : MemberCall.callee? (q :: cs) = none := by
    unfold MemberCall.callee?
    rw [dottedName?_quote hq cs]
    rfl
  have halias : MemberCall.aliasCall? c (.ofStatement c.statement) = none := by
    unfold MemberCall.aliasCall?
    rw [Expr.masked_ofStatement, hmasked]
    dsimp only
    rw [identifier?_quote hq cs]
    rfl
  unfold MemberCall.match? Context.expr MemberCall.constructed? MemberCall.registered?
  dsimp only
  rw [h.assignment?, hpython, Expr.masked_ofStatement, hmasked,
    hcallee, halias]
  rfl

/-- No idiom reads anything. -/
theorem matches_quoted : c.matches = [] := by
  unfold Context.matches
  rw [List.filterMap_eq_nil_iff]
  intro i _
  have hmatch : i.match? c = none := by
    unfold Idiom.match?
    cases i with
    | decoratorCall =>
      dsimp only
      rw [hpython]
      dsimp only
      rw [Decorator.match?_quoted h]
      rfl
    | urlPattern =>
      dsimp only
      rw [UrlTable.match?_quoted h]
      rfl
    | resourceRegistration =>
      dsimp only
      rw [Resource.match?_quoted h]
      rfl
    | classMethods =>
      dsimp only
      rw [ClassView.match?_quoted h]
      rfl
    | callRegistration =>
      dsimp only
      rw [MemberCall.match?_quoted h hpython]
      rfl
  rw [hmatch]
  rfl

end Idioms

end EndpointCensus
