import EndpointCensus.Proofs.Unit.Front
import EndpointCensus.Proofs.Unit.Imports

/-! Scopes by indentation. The innermost scope that is open when a statement of Python is
looked at is the one that a walk back over the statements before it finds: a statement that is
indented less ends all that is indented as it is or more, and the first such statement that
opens a scope encloses. -/

namespace EndpointCensus

open Text

/-- The innermost scope around a statement of this indentation, by the statements before
it, the last one first. -/
def enclosing? (indent : Nat) : List Statement → Option Scope
  | [] => none
  | s :: earlier =>
    if s.indent < indent then s.scope?.or (enclosing? s.indent earlier)
      else enclosing? indent earlier

/-- Statements of the same indentation or more do not matter. -/
theorem enclosing?_append {indent : Nat} {inner : List Statement}
    (h : ∀ s ∈ inner, indent ≤ s.indent) (earlier : List Statement) :
    enclosing? indent (inner ++ earlier) = enclosing? indent earlier := by
  induction inner with
  | nil => rfl
  | cons s inner ih =>
    obtain ⟨hs, hinner⟩ := List.forall_mem_cons.mp h
    rw [List.cons_append, enclosing?, if_neg (Nat.not_lt.mpr hs), ih hinner]

namespace Reading

theorem closeScopes_cons (scope : Scope) (scopes : List Scope) (indent : Nat) :
    closeScopes (scope :: scopes) indent =
      if indent ≤ scope.indent then closeScopes scopes indent else scope :: scopes := by
  rw [closeScopes, List.dropWhile_cons]
  simp only [decide_eq_true_eq]
  rfl

theorem closeScopes_of_le {indent outer : Nat} (h : outer ≤ indent) (scopes : List Scope) :
    closeScopes (closeScopes scopes indent) outer = closeScopes scopes outer := by
  induction scopes with
  | nil => rfl
  | cons scope scopes ih =>
    rw [closeScopes_cons]
    split
    · next hclosed => rw [ih, closeScopes_cons, if_pos (h.trans hclosed)]
    · rfl

theorem closeScopes_of_lt {indent inner : Nat} (h : indent < inner) (scopes : List Scope) :
    closeScopes (closeScopes scopes indent) inner = closeScopes scopes indent := by
  induction scopes with
  | nil => rfl
  | cons scope scopes ih =>
    rw [closeScopes_cons]
    split
    · exact ih
    · next hopen => rw [closeScopes_cons, if_neg (by omega)]

end Reading

/-! ### Imports open no scope -/

namespace Statement

variable {s : Statement}

theorem exists_of_afterWord?_singleton {word : String} {cs rest : List Char}
    (h : afterWord? [word] cs = some rest) : ∃ more, cs = word.toList ++ more := by
  obtain ⟨w, hw, hrest⟩ := List.exists_of_findSome?_eq_some h
  obtain rfl := List.mem_singleton.mp hw
  obtain ⟨more, hmore, -⟩ := Option.bind_eq_some_iff.mp hrest
  exact ⟨more, after?_eq_some_iff.mp hmore⟩

/-- The heading of a function begins with the word `async` or `def`. -/
theorem head?_of_defName? {name : List Char} (h : s.defName? = some name) :
    ∃ c ∈ ['a', 'd'], s.masked.head? = some c := by
  have hmasked : (Expr.ofStatement s).masked = s.masked := rfl
  rw [defName?, hmasked] at h
  obtain ⟨start, hstart, -⟩ := Option.bind_eq_some_iff.mp h
  cases hasync : afterWord? ["async"] s.masked with
  | some rest =>
    obtain ⟨more, hmore⟩ := exists_of_afterWord?_singleton hasync
    exact ⟨'a', by decide, by rw [hmore]; rfl⟩
  | none =>
    rw [hasync, Option.getD_none] at hstart
    obtain ⟨more, hmore⟩ := exists_of_afterWord?_singleton hstart
    exact ⟨'d', by decide, by rw [hmore]; rfl⟩

/-- The heading of a class begins with the word `class`. -/
theorem head?_of_className? {name : List Char} (h : s.className? = some name) :
    s.masked.head? = some 'c' := by
  have hmasked : (Expr.ofStatement s).masked = s.masked := rfl
  rw [className?, hmasked] at h
  obtain ⟨start, hstart, -⟩ := Option.bind_eq_some_iff.mp h
  obtain ⟨more, hmore⟩ := exists_of_afterWord?_singleton hstart
  rw [hmore]
  rfl

/-- The heading of a scope begins with a word of its own. -/
theorem head?_of_scope? {scope : Scope} (h : s.scope? = some scope) :
    ∃ c ∈ ['a', 'd', 'c'], s.masked.head? = some c := by
  rw [scope?] at h
  cases hdef : s.defName? with
  | some name =>
    obtain ⟨c, hc, hhead⟩ := head?_of_defName? hdef
    exact ⟨c, List.mem_append_left ['c'] hc, hhead⟩
  | none =>
    rw [hdef] at h
    obtain ⟨name, hclass, -⟩ := Option.map_eq_some_iff.mp h
    exact ⟨'c', by decide, head?_of_className? hclass⟩

/-- An import begins with the word `from` or `import`. -/
theorem scanPython_of_head? {c : Char} (hhead : s.masked.head? = some c)
    (hblank : isBlank c = false) (hfrom : c ≠ 'f') (himport : c ≠ 'i') (t : ImportTable) :
    t.scanPython s = (t, false) := by
  obtain ⟨more, hmore⟩ := List.head?_eq_some_iff.mp hhead
  have hstart : trimStart (c :: more) = c :: more := List.dropWhile_cons_of_neg (by simp [hblank])
  obtain ⟨rest, htrim⟩ : ∃ rest, trim s.masked = c :: rest := by
    rw [hmore, trim, hstart, trimEnd, dropEndWhile, hblank, Bool.and_false, if_neg Bool.false_ne_true]
    exact ⟨_, rfl⟩
  have hnoFrom : ImportTable.fromImport? (c :: rest) = none := by
    rw [ImportTable.fromImport?]
    cases hafter : after? "from" (c :: rest) with
    | none => rfl
    | some behind => exact absurd (List.cons.inj (after?_eq_some_iff.mp hafter)).1 hfrom
  have hnoImport : ImportTable.afterImport? (c :: rest) = none := by
    rw [ImportTable.afterImport?, afterWord?, List.findSome?_singleton]
    cases hafter : after? "import" (c :: rest) with
    | none => rfl
    | some behind => exact absurd (List.cons.inj (after?_eq_some_iff.mp hafter)).1 himport
  rw [ImportTable.scanPython, htrim, hnoFrom, hnoImport]

theorem scope?_of_scanPython {t : ImportTable} (h : (t.scanPython s).2 = true) :
    s.scope? = none := by
  cases hscope : s.scope? with
  | none => rfl
  | some scope =>
    obtain ⟨c, hc, hhead⟩ := head?_of_scope? hscope
    simp only [List.mem_cons, List.not_mem_nil, or_false] at hc
    have hshown : isBlank c = false ∧ c ≠ 'f' ∧ c ≠ 'i' := by
      rcases hc with rfl | rfl | rfl <;> decide
    rw [scanPython_of_head? hhead hshown.1 hshown.2.1 hshown.2.2] at h
    contradiction

theorem indent_of_scope? {scope : Scope} (h : s.scope? = some scope) : scope.indent = s.indent := by
  rw [scope?] at h
  cases hdef : s.defName? with
  | some name =>
    rw [hdef] at h
    rw [← Option.some.inj h]
  | none =>
    rw [hdef] at h
    obtain ⟨name, -, rfl⟩ := Option.map_eq_some_iff.mp h
    rfl

end Statement

namespace Reading

variable {u : SourceUnit} {flag : Bool} {r : Reading}

theorem scopes_readOne (hpython : u.language = .python) (himports : r.imports.language = .python)
    (s : Statement) (rest : List Statement) :
    (r.readOne u flag s rest).scopes = s.scope?.toList ++ closeScopes r.scopes s.indent := by
  have hscan := ImportTable.scan_python himports s
  unfold readOne
  dsimp only
  rw [hpython, hscan]
  split
  · next himport =>
    rw [Statement.scope?_of_scanPython himport]
    rfl
  · simp only [beq_self_eq_true, if_true]
    refine congrArg (s.scope?.toList ++ ·) ?_
    split
    · rw [scopes_foldl_record]
    · rfl

theorem language_readFront (himports : r.imports.language = .python) (front rest : List Statement) :
    (readFront u flag r front rest).imports.language = .python := by
  induction front generalizing r with
  | nil => exact himports
  | cons s front ih =>
    refine ih ?_
    rw [imports_readOne, ImportTable.scan_python himports, ImportTable.language_scanPython,
      himports]

/-- The innermost open scope is found by walking back. -/
theorem head?_closeScopes (hpython : u.language = .python) (himports : r.imports.language = .python)
    (hr : r.scopes = []) (front rest : List Statement) (indent : Nat) :
    (closeScopes (readFront u flag r front rest).scopes indent).head? =
      enclosing? indent front.reverse := by
  induction front using List.reverseRecOn generalizing rest indent with
  | nil =>
    rw [readFront, hr]
    rfl
  | append_singleton front s ih =>
    rw [readFront_concat, scopes_readOne hpython (language_readFront himports _ _),
      List.reverse_concat, enclosing?]
    split
    · next hless =>
      cases hscope : s.scope? with
      | some scope =>
        rw [Option.toList_some, List.singleton_append, closeScopes_cons,
          Statement.indent_of_scope? hscope, if_neg (Nat.not_le.mpr hless)]
        rfl
      | none => rw [Option.toList_none, List.nil_append, closeScopes_of_lt hless, ih, Option.none_or]
    · next hmore =>
      rw [← ih (s :: rest)]
      cases hscope : s.scope? with
      | some scope =>
        rw [Option.toList_some, List.singleton_append, closeScopes_cons,
          Statement.indent_of_scope? hscope, if_pos (Nat.not_lt.mp hmore),
          closeScopes_of_le (Nat.not_lt.mp hmore)]
      | none => rw [Option.toList_none, List.nil_append, closeScopes_of_le (Nat.not_lt.mp hmore)]

end Reading

namespace SourceUnit

variable {u : SourceUnit} (hpython : u.language = .python) (flag : Bool)
  (before after : List Statement)

include hpython

theorem language_readingBefore : (u.readingBefore flag before after).imports.language = .python :=
  Reading.language_readFront hpython before after

/-- The innermost scope that a statement of a unit stands in. -/
theorem head?_arriveAt (s : Statement) :
    (((u.readingBefore flag before after).arriveAt u s).scopes).head? =
      enclosing? s.indent before.reverse := by
  have hclosed : ((u.readingBefore flag before after).arriveAt u s).scopes =
      Reading.closeScopes (u.readingBefore flag before after).scopes s.indent := by
    rw [Reading.arriveAt, hpython]
    rfl
  rw [hclosed]
  exact Reading.head?_closeScopes hpython hpython rfl before after s.indent

end SourceUnit

end EndpointCensus
