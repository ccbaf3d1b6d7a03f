import EndpointCensus.Idiom.MemberCall
import EndpointCensus.Proofs.Text.Word

/-!
Statements that begin with names and an opening mark. Name characters and dots, then white space,
then a parenthesis, the angle bracket of type arguments or a brace: no such text assigns or exports
anything, since that needs another mark behind the names, and only a brace takes an object apart.
-/

namespace EndpointCensus

open Text

def openingMarks : List Char := ['(', '<', '\x7b']

/-- Name characters and dots, white space, and then an opening mark. -/
def OpensWith (mark : Char) (cs : List Char) : Prop :=
  mark ∈ openingMarks ∧ ∃ name gap rest, (∀ c ∈ name, isNamePart c = true ∨ c = '.') ∧
    (∀ c ∈ gap, isBlank c = true) ∧ cs = name ++ (gap ++ mark :: rest)

def IsNameText (word : String) : Prop := ∀ c ∈ word.toList, isNamePart c = true ∨ c = '.'

instance (word : String) : Decidable (IsNameText word) :=
  List.decidableBAll (fun c => isNamePart c = true ∨ c = '.') word.toList

theorem isBlank_of_part {c : Char} (h : isNamePart c = true ∨ c = '.') : isBlank c = false := by
  rcases h with h | rfl
  · exact isBlank_of_isNamePart h
  · decide

theorem openingMarks_shown {mark : Char} (h : mark ∈ openingMarks) :
    isNamePart mark = false ∧ mark ≠ '.' ∧ isBlank mark = false := by
  simp only [openingMarks, List.mem_cons, List.not_mem_nil, or_false] at h
  rcases h with rfl | rfl | rfl <;> decide

theorem ne_openingMark {mark other : Char} (h : mark ∈ openingMarks)
    (hother : other ∉ openingMarks) : other ≠ mark :=
  fun heq => hother (heq ▸ h)

namespace OpensWith

variable {mark : Char} {cs rest : List Char}

theorem ne_nil (h : OpensWith mark cs) : cs ≠ [] := by
  obtain ⟨-, name, gap, rest, -, -, rfl⟩ := h
  simp

/-- The text behind a character of a name. -/
theorem tail {c : Char} (h : OpensWith mark (c :: cs)) (hc : isNamePart c = true ∨ c = '.') :
    OpensWith mark cs := by
  obtain ⟨hmark, name, gap, rest, hname, hgap, hcs⟩ := h
  obtain ⟨hpart, hdot, -⟩ := openingMarks_shown hmark
  cases name with
  | nil =>
    cases gap with
    | nil =>
      obtain rfl : c = mark := (List.cons.inj hcs).1
      rw [hpart] at hc
      exact hc.elim (fun h => absurd h Bool.false_ne_true) fun h => absurd h hdot
    | cons d gap =>
      obtain rfl : c = d := (List.cons.inj hcs).1
      have hblank := hgap c List.mem_cons_self
      rw [isBlank_of_part hc] at hblank
      exact absurd hblank Bool.false_ne_true
  | cons d name =>
    exact ⟨hmark, name, gap, rest, (List.forall_mem_cons.mp hname).2, hgap, (List.cons.inj hcs).2⟩

theorem dropWhile {p : Char → Bool} (hp : ∀ c, p c = true → isNamePart c = true)
    (h : OpensWith mark cs) : OpensWith mark (cs.dropWhile p) := by
  induction cs with
  | nil => exact h
  | cons c cs ih =>
    rw [List.dropWhile_cons]
    split
    · next hc => exact ih (h.tail (.inl (hp c hc)))
    · exact h

theorem trimStart (h : OpensWith mark cs) : OpensWith mark (Text.trimStart cs) := by
  obtain ⟨hmark, name, gap, rest, hname, hgap, rfl⟩ := h
  cases name with
  | nil =>
    have hstart : Text.trimStart (gap ++ mark :: rest) = mark :: rest :=
      dropWhile_run hgap (openingMarks_shown hmark).2.2
    exact ⟨hmark, [], [], rest, by simp, by simp, hstart⟩
  | cons c name =>
    have hc := isBlank_of_part (hname c List.mem_cons_self)
    have hstart : Text.trimStart (c :: name ++ (gap ++ mark :: rest)) =
        c :: name ++ (gap ++ mark :: rest) :=
      dropWhile_of_head? hc
    exact ⟨hmark, c :: name, gap, rest, hname, hgap, hstart⟩

/-- What shows first behind white space is of a name, or it is the mark. -/
theorem head?_trimStart (h : OpensWith mark cs) {other : Char} (hpart : isNamePart other = false)
    (hdot : other ≠ '.') (hother : other ≠ mark) : (Text.trimStart cs).head? ≠ some other := by
  intro hhead
  have hblank : isBlank other = false := by
    have hfirst := head?_dropWhile_any isBlank cs
    have hsome : (cs.dropWhile isBlank).head? = some other := hhead
    rwa [hsome] at hfirst
  obtain ⟨-, name, gap, rest, hname, hgap, hcs⟩ := h.trimStart
  rw [hcs] at hhead
  cases name with
  | nil =>
    cases gap with
    | nil => exact hother (Option.some.inj hhead).symm
    | cons c gap =>
      obtain rfl : c = other := Option.some.inj hhead
      rw [hgap c List.mem_cons_self] at hblank
      exact absurd hblank.symm Bool.false_ne_true
  | cons c name =>
    obtain rfl : c = other := Option.some.inj hhead
    rcases hname c List.mem_cons_self with hc | hc
    · rw [hpart] at hc
      contradiction
    · exact hdot hc

theorem afterMark? (h : OpensWith mark cs) {other : Char} (hpart : isNamePart other = false)
    (hdot : other ≠ '.') (hother : other ≠ mark) : Text.afterMark? other cs = none := by
  have hne := h.head?_trimStart hpart hdot hother
  rw [Text.afterMark?]
  split
  · next c rest hstart =>
    rw [hstart] at hne
    refine if_neg fun hc => hne (congrArg some (beq_iff_eq.mp hc))
  · rfl

theorem afterEquals? (h : OpensWith mark cs) : Text.afterMark? '=' cs = none :=
  h.afterMark? (by decide) (by decide) (ne_openingMark h.1 (by decide))

/-- Behind a word of name characters the text still opens with the mark. -/
theorem after? {word : String} (h : OpensWith mark cs) (hword : IsNameText word)
    (hafter : Text.after? word cs = some rest) : OpensWith mark rest := by
  have hpart : ∀ (word : List Char), (∀ c ∈ word, isNamePart c = true ∨ c = '.') →
      OpensWith mark (word ++ rest) →
      OpensWith mark rest := by
    intro word hword hopens
    induction word with
    | nil => exact hopens
    | cons c word ih =>
      obtain ⟨hc, hword⟩ := List.forall_mem_cons.mp hword
      exact ih hword (hopens.tail hc)
  rw [after?_eq_some_iff.mp hafter] at h
  exact hpart word.toList hword h

theorem afterWord? (h : OpensWith mark cs) {words : List String}
    (hwords : ∀ w ∈ words, IsNameText w) (hafter : Text.afterWord? words cs = some rest) :
    OpensWith mark rest := by
  obtain ⟨w, hw, hrest⟩ := List.exists_of_findSome?_eq_some hafter
  obtain ⟨behind, hbehind, hblanks⟩ := Option.bind_eq_some_iff.mp hrest
  have hopens := (h.after? (hwords w hw) hbehind).trimStart
  rw [blanks?] at hblanks
  split at hblanks
  · rwa [Option.some.inj hblanks] at hopens
  · contradiction

theorem identifier? {name : List Char} (h : OpensWith mark cs)
    (hname : Text.identifier? cs = some (name, rest)) :
    OpensWith mark rest := by
  cases cs with
  | nil => contradiction
  | cons c cs =>
    rw [Text.identifier?] at hname
    split at hname
    · next hc =>
      obtain ⟨-, rfl⟩ := Prod.mk.inj (Option.some.inj hname)
      exact (h.tail (.inl (isNamePart_of_isNameStart hc))).dropWhile fun _ => id
    · contradiction

theorem dottedTail (h : OpensWith mark cs) : OpensWith mark (Text.dottedTail cs).2 := by
  induction cs with
  | nil => exact h
  | cons c cs ih =>
    rw [Text.dottedTail]
    split
    · next hc =>
      refine ih (h.tail ?_)
      simp only [Bool.or_eq_true, Bool.and_eq_true, beq_iff_eq] at hc
      exact hc.imp_right And.left
    · exact h

theorem dottedName? {name : List Char} (h : OpensWith mark cs)
    (hname : Text.dottedName? cs = some (name, rest)) :
    OpensWith mark rest := by
  cases cs with
  | nil => contradiction
  | cons c cs =>
    rw [Text.dottedName?] at hname
    split at hname
    · next hc =>
      obtain ⟨-, rfl⟩ := Prod.mk.inj (Option.some.inj hname)
      exact (h.tail (.inl (isNamePart_of_isNameStart hc))).dottedTail
    · contradiction

end OpensWith

namespace MemberCall

variable {c : Context} {e : Expr} {mark : Char} {cs : List Char}

theorem value?_of_opensWith (h : OpensWith mark cs) : Assignment.value? cs = none := by
  have hequals : (trimStart cs).head? ≠ some '=' :=
    h.head?_trimStart (by decide) (by decide) (ne_openingMark h.1 (by decide))
  have hcolon : (trimStart cs).head? ≠ some ':' :=
    h.head?_trimStart (by decide) (by decide) (ne_openingMark h.1 (by decide))
  rw [Assignment.value?]
  split
  · next rest hstart => exact absurd (by rw [hstart]; rfl) hequals
  · next rest hstart => exact absurd (by rw [hstart]; rfl) hcolon
  · rfl

/-- A call is no assignment. -/
theorem assignment?_of_opensWith (h : OpensWith mark e.masked) : e.assignment? = none := by
  have hstarts : ∀ start ∈ (afterWord? ["export"] e.masked).toList ++ [e.masked],
      OpensWith mark start := by
    intro start hstart
    rcases List.mem_append.mp hstart with hstart | hstart
    · exact h.afterWord? (by decide) (Option.mem_toList.mp hstart)
    · rwa [List.mem_singleton.mp hstart]
  have hparts : Assignment.parts? e.masked = none := by
    unfold Assignment.parts?
    refine List.findSome?_eq_none_iff.mpr fun start hstart => ?_
    obtain ⟨outer, houter, hinner⟩ := List.mem_flatMap.mp hstart
    have hopens : OpensWith mark start := by
      rcases List.mem_append.mp hinner with hinner | hinner
      · exact (hstarts outer houter).afterWord? (by decide) (Option.mem_toList.mp hinner)
      · rw [List.mem_singleton.mp hinner]
        exact hstarts outer houter
    cases hname : identifier? start with
    | none => rfl
    | some r => simp [value?_of_opensWith (hopens.identifier? hname)]
  rw [Expr.assignment?, hparts]
  rfl

theorem constructed?_of_opensWith (h : OpensWith mark e.masked) : constructed? c e = none := by
  rw [constructed?, assignment?_of_opensWith h]
  rfl

theorem onlyName?_of_opensWith (h : OpensWith mark cs) : onlyName? cs = none := by
  rw [onlyName?]
  cases hname : identifier? cs with
  | none => rfl
  | some r => simp [(h.identifier? hname).ne_nil]

theorem defaultExport?_of_opensWith (h : OpensWith mark cs) : defaultExport? cs = none := by
  rw [defaultExport?]
  cases hrest : (after? "module.exports" cs).or ((afterWord? ["export"] cs).bind (after? "default"))
    with
  | none => rfl
  | some rest =>
    have hopens : OpensWith mark rest := by
      rcases Option.or_eq_some_iff.mp hrest with hmodule | ⟨-, hexport⟩
      · exact h.after? (by decide) hmodule
      · obtain ⟨behind, hbehind, hdefault⟩ := Option.bind_eq_some_iff.mp hexport
        exact (h.afterWord? (by decide) hbehind).after? (by decide) hdefault
    simp [hopens.afterEquals?, onlyName?_of_opensWith hopens.trimStart]

theorem namedExport?_of_opensWith (h : OpensWith mark cs) : namedExport? cs = none := by
  have hmodule : OpensWith mark ((after? "module." cs).getD cs) := by
    cases hafter : after? "module." cs with
    | none => exact h
    | some rest => exact h.after? (by decide) hafter
  rw [namedExport?]
  cases hexports : after? "exports." ((after? "module." cs).getD cs) with
  | none => rfl
  | some start =>
    have hstart := hmodule.after? (by decide) hexports
    cases hname : identifier? start with
    | none => simp [hname]
    | some r => simp [hname, (hstart.identifier? hname).afterEquals?]

theorem objectExport?_of_opensWith (h : OpensWith mark e.masked) : objectExport? e = none := by
  rw [objectExport?]
  cases hmodule : after? "module.exports" e.masked with
  | none => rfl
  | some rest => simp [(h.after? (by decide) hmodule).afterEquals?]

/-- A call exports nothing. -/
theorem exported?_of_opensWith (h : OpensWith mark e.masked) : exported? e = none := by
  simp [exported?, defaultExport?_of_opensWith h, namedExport?_of_opensWith h,
    objectExport?_of_opensWith h]

/-- Only a brace takes an object apart. -/
theorem aliases?_of_opensWith (h : OpensWith mark e.masked) (hmark : mark ≠ '\x7b') :
    aliases? c e = none := by
  have hdestructured : destructured? e = none := by
    rw [destructured?]
    dsimp only
    cases hstart : ["const", "let", "var"].findSome? fun w => after? w e.masked with
    | none => rfl
    | some start =>
      obtain ⟨word, hword, hafter⟩ := List.exists_of_findSome?_eq_some hstart
      have hnames : ∀ w ∈ ["const", "let", "var"], IsNameText w := by decide
      have hbrace : afterMark? '\x7b' start = none :=
        (h.after? (hnames word hword) hafter).afterMark? (by decide) (by decide) hmark.symm
      simp [hbrace]
  rw [aliases?, hdestructured]
  rfl

/-- Only a parenthesis or an angle bracket makes a call. -/
theorem registered?_of_opensWith_brace (h : OpensWith '\x7b' e.masked) :
    registered? c e = none := by
  have hcall {rest : List Char} (hrest : OpensWith '\x7b' rest) : opensCall rest = false := by
    have hparen :=
      hrest.head?_trimStart (by decide : isNamePart '(' = false) (by decide) (by decide)
    have hangle :=
      hrest.head?_trimStart (by decide : isNamePart '<' = false) (by decide) (by decide)
    rw [opensCall]
    cases hhead : (trimStart rest).head? with
    | none => rfl
    | some d =>
      rw [hhead] at hparen hangle
      simpa using And.intro (fun hd => hparen (congrArg some hd)) fun hd =>
        hangle (congrArg some hd)
  have hcallee : callee? e.masked = none := by
    rw [callee?]
    cases hname : dottedName? e.masked with
    | none => rfl
    | some r =>
      cases hsplit : splitLast? '.' r.1 with
      | none => simp [hsplit]
      | some s => simp [hsplit, hcall (h.dottedName? hname)]
  have halias : aliasCall? c e = none := by
    rw [aliasCall?]
    dsimp only
    cases hname : identifier? e.masked with
    | none => rfl
    | some r => simp [hcall (h.identifier? hname)]
  rw [registered?, hcallee]
  exact halias

/-- A script's statement that begins with a call is a registration or nothing. -/
theorem match?_of_opensWith (hscript : c.language = .script) (h : OpensWith mark c.expr.masked)
    (hmark : mark ≠ '\x7b') : match? c = registered? c c.expr := by
  rw [match?, constructed?_of_opensWith h, Option.none_or, hscript]
  dsimp only
  rw [exported?_of_opensWith h, Option.none_or, aliases?_of_opensWith h hmark, Option.none_or]

/-- A script's statement that begins with names and a brace binds verbs or nothing. -/
theorem match?_of_opensWith_brace (hscript : c.language = .script)
    (h : OpensWith '\x7b' c.expr.masked) : match? c = aliases? c c.expr := by
  rw [match?, constructed?_of_opensWith h, Option.none_or, hscript]
  dsimp only
  rw [exported?_of_opensWith h, Option.none_or, registered?_of_opensWith_brace h, Option.or_none]

/-! ### Names before a call -/

/-- A name before the parenthesis or the angle bracket of a call. -/
theorem opensWith_of_opensCall {name rest : List Char}
    (hname : ∀ c ∈ name, isNamePart c = true ∨ c = '.') (h : opensCall rest = true) :
    ∃ mark, mark ≠ '\x7b' ∧ OpensWith mark (name ++ rest) := by
  obtain ⟨mark, more, hrest, hmark⟩ := exists_cons_of_head?_any h
  have hmarks : mark = '(' ∨ mark = '<' := by simpa using hmark
  refine ⟨mark, ?_, ?_, name, rest.takeWhile isBlank, more, hname,
    List.all_eq_true.mp List.all_takeWhile, ?_⟩
  · rcases hmarks with rfl | rfl <;> decide
  · rcases hmarks with rfl | rfl <;> decide
  · rw [← hrest, trimStart, List.takeWhile_append_dropWhile]

theorem exists_cons_of_opensCall {rest : List Char} (h : opensCall rest = true) :
    ∃ d more, rest = d :: more ∧ isNamePart d = false ∧ d ≠ '.' := by
  obtain ⟨mark, more, hstart, hmark⟩ := exists_cons_of_head?_any h
  have hmarks : mark = '(' ∨ mark = '<' := by simpa using hmark
  cases rest with
  | nil => contradiction
  | cons d rest =>
    refine ⟨d, rest, rfl, ?_⟩
    by_cases hd : isBlank d = true
    · refine ⟨isNamePart_of_isBlank hd, ?_⟩
      rintro rfl
      contradiction
    · rw [trimStart, List.dropWhile_cons_of_neg hd] at hstart
      obtain ⟨rfl, -⟩ := List.cons.inj hstart
      rcases hmarks with rfl | rfl <;> decide

/-- A dotted name ends before a call. -/
theorem dottedTail_of_opensCall {rest : List Char} (h : opensCall rest = true) :
    dottedTail rest = ([], rest) := by
  obtain ⟨d, more, rfl, hpart, hdot⟩ := exists_cons_of_opensCall h
  rw [dottedTail, hpart, if_neg (by simp [hdot])]

theorem head?_of_opensCall {rest : List Char} (h : opensCall rest = true) :
    rest.head?.any isNamePart = false := by
  obtain ⟨d, more, rfl, hpart, -⟩ := exists_cons_of_opensCall h
  exact hpart

end MemberCall

end EndpointCensus
