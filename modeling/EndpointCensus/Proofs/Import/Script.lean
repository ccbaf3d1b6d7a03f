import EndpointCensus.Import.Scan
import EndpointCensus.Proofs.Text.Word
import EndpointCensus.Statement.Assembly

/-! Import statements of scripts. Both recognisers are turned round into the texts that they accept:
a declaration that requires a module, behind which anything may stand, and an import clause, which
ends with the statement. -/

namespace EndpointCensus

open Text

namespace ImportTable

variable {masked target clause cs rest : List Char}

/-! ### Declarations that require a module -/

/-- The target of a declaration: an identifier, or fields in braces. -/
def IsTarget (cs : List Char) : Prop :=
  (cs.head?.any isNameStart = true ∧ ∀ c ∈ cs, isNamePart c = true) ∨ ∃ fields, '}' ∉ fields ∧
  cs = '{' :: (fields ++ ['}'])

/-- The word `export` where it stands before a declaration. -/
def IsLead (cs : List Char) : Prop := cs = [] ∨ ∃ gap, IsGap gap ∧ cs = "export".toList ++ gap

/-- What stands before the argument in `const target = require(argument)`. -/
inductive Requires (target : List Char) : List Char → Prop
  | mk {lead gap first second third : List Char} {keyword : String} : IsLead lead →
      keyword ∈ ["const", "let", "var"] → IsGap gap → IsTarget target →
      (∀ c ∈ first, isBlank c = true) → (∀ c ∈ second, isBlank c = true) →
      (∀ c ∈ third, isBlank c = true) →
      Requires target (lead ++ (keyword.toList ++ (gap ++ (target ++
        (first ++ '=' :: (second ++ ("require".toList ++ (third ++ ['('])))))))) 

theorem IsTarget.head?_any_append (h : IsTarget target) (rest : List Char) :
    (target ++ rest).head?.any isBlank = false := by
  rcases h with ⟨hstart, hparts⟩ | ⟨fields, -, rfl⟩
  · obtain ⟨c, more, rfl, hc⟩ := exists_cons_of_head?_any hstart
    exact isBlank_of_isNamePart (isNamePart_of_isNameStart hc)
  · rfl

theorem declared?_append (h : IsTarget target) (hrest : rest.head?.any isNamePart = false) :
    declared? (target ++ rest) = some (target, rest) := by
  rcases h with ⟨hstart, hparts⟩ | ⟨fields, hfields, rfl⟩
  · obtain ⟨c, more, rfl, hc⟩ := exists_cons_of_head?_any hstart
    have hmore := (List.forall_mem_cons.mp hparts).2
    have hname : declared? (c :: more ++ rest) = identifier? (c :: more ++ rest) := by
      rw [List.cons_append, declared?]
      rintro _ hbrace
      rw [(List.cons.inj hbrace).1] at hc
      exact absurd hc (by decide)
    rw [hname, List.cons_append, identifier?, if_pos hc, takeWhile_run hmore hrest,
      dropWhile_run hmore hrest]
  · have hplain : ∀ c ∈ fields, (c != '}') = true :=
      fun c hc => bne_iff_ne.mpr fun heq => hfields (heq ▸ hc)
    have htext : '{' :: (fields ++ ['}']) ++ rest = '{' :: (fields ++ '}' :: rest) := by simp
    rw [htext, declared?]
    rw [takeWhile_run hplain rfl, dropWhile_run hplain rfl]
    rfl

theorem exists_of_declared? (h : declared? cs = some (target, rest)) :
    IsTarget target ∧ cs = target ++ rest := by
  rw [declared?.eq_def] at h
  split at h
  · next more =>
    dsimp only at h
    split at h
    · next close behind hclose =>
      obtain ⟨rfl, rfl⟩ := Prod.mk.inj (Option.some.inj h)
      have hend := head?_dropWhile_any (· != '}') more
      rw [hclose] at hend
      obtain rfl : close = '}' := by simpa using hend
      have hfields : '}' ∉ more.takeWhile (· != '}') := fun hmem =>
        absurd (List.all_eq_true.mp List.all_takeWhile _ hmem) (by decide)
      have hmore : more.takeWhile (· != '}') ++ '}' :: behind = more := by
        rw [← hclose, List.takeWhile_append_dropWhile]
      refine ⟨.inr ⟨_, hfields, rfl⟩, ?_⟩
      simp [hmore]
    · contradiction
  · cases cs with
    | nil => contradiction
    | cons c more =>
      rw [identifier?] at h
      split at h
      · next hc =>
        obtain ⟨rfl, rfl⟩ := Prod.mk.inj (Option.some.inj h)
        have hparts : ∀ d ∈ c :: more.takeWhile isNamePart, isNamePart d = true :=
          List.forall_mem_cons.mpr ⟨isNamePart_of_isNameStart hc,
            List.all_eq_true.mp List.all_takeWhile⟩
        refine ⟨.inl ⟨hc, hparts⟩, ?_⟩
        rw [List.cons_append, List.takeWhile_append_dropWhile]
      · contradiction

theorem afterKeyword?_eq_some_iff : afterWord? ["const", "let", "var"] cs = some rest ↔
    ∃ keyword ∈ ["const", "let", "var"], ∃ gap, IsGap gap ∧ cs = keyword.toList ++ (gap ++ rest) ∧
      rest.head?.any isBlank = false := by
  constructor
  · intro h
    obtain ⟨keyword, hkeyword, hread⟩ := List.exists_of_findSome?_eq_some h
    obtain ⟨behind, hbehind, hblanks⟩ := Option.bind_eq_some_iff.mp hread
    obtain ⟨gap, hgap, rfl, hrest⟩ := blanks?_eq_some_iff.mp hblanks
    exact ⟨keyword, hkeyword, gap, hgap, after?_eq_some_iff.mp hbehind, hrest⟩
  · rintro ⟨keyword, hkeyword, gap, hgap, rfl, hrest⟩
    have hread : (after? keyword (keyword.toList ++ (gap ++ rest))).bind blanks? = some rest := by
      rw [after?_append, Option.bind_some, blanks?_gap hgap hrest]
    simp only [List.mem_cons, List.not_mem_nil, or_false] at hkeyword
    rcases hkeyword with rfl | rfl | rfl
    · rw [afterWord?, List.findSome?_cons, hread]
    · have hconst : after? "const" ("let".toList ++ (gap ++ rest)) = none := rfl
      rw [afterWord?, List.findSome?_cons, hconst, Option.bind_none, List.findSome?_cons, hread]
    · have hconst : after? "const" ("var".toList ++ (gap ++ rest)) = none := rfl
      have hlet : after? "let" ("var".toList ++ (gap ++ rest)) = none := rfl
      rw [afterWord?, List.findSome?_cons, hconst, Option.bind_none, List.findSome?_cons, hlet,
        Option.bind_none, List.findSome?_cons, hread]

theorem requireCall?_eq (masked : List Char) :
    requireCall? masked =
      ((afterWord? ["const", "let", "var"]
        (((after? "export" masked).bind blanks?).getD masked)).bind declared?).bind fun (target,
          rest) => (afterMark? '=' rest).bind fun value =>
          ((after? "require" (trimStart value)).bind (afterMark? '(')).bind fun argument =>
            let inner := argument.takeWhile (· != ')')
            if inner.length < argument.length then
              some (target, width masked - width argument,
                width masked - width argument + width inner)
            else none := rfl

/-- What begins with one of the keywords does not begin with `export`. -/
theorem lead_append {lead cs start : List Char} {keyword : String} (hlead : IsLead lead)
    (hkeyword : keyword ∈ ["const", "let", "var"]) (hstart : start = keyword.toList ++ cs) :
    ((after? "export" (lead ++ start)).bind blanks?).getD (lead ++ start) = start := by
  have hfirst : start.head?.any isBlank = false := by
    simp only [List.mem_cons, List.not_mem_nil, or_false] at hkeyword
    rcases hkeyword with rfl | rfl | rfl <;> rw [hstart] <;> rfl
  rcases hlead with rfl | ⟨gap, hgap, rfl⟩
  · have hnone : after? "export" start = none := by
      simp only [List.mem_cons, List.not_mem_nil, or_false] at hkeyword
      rcases hkeyword with rfl | rfl | rfl <;> rw [hstart] <;> rfl
    rw [List.nil_append, hnone]
    rfl
  · rw [List.append_assoc, after?_append, Option.bind_some, blanks?_gap hgap hfirst]
    rfl

theorem exists_lead (masked : List Char) : ∃ lead, IsLead lead ∧
    masked = lead ++ ((after? "export" masked).bind blanks?).getD masked := by
  cases hexport : (after? "export" masked).bind blanks? with
  | none => exact ⟨[], .inl rfl, rfl⟩
  | some start =>
    obtain ⟨behind, hbehind, hblanks⟩ := Option.bind_eq_some_iff.mp hexport
    obtain ⟨gap, hgap, rfl, -⟩ := blanks?_eq_some_iff.mp hblanks
    refine ⟨"export".toList ++ gap, .inr ⟨gap, hgap, rfl⟩, ?_⟩
    rw [List.append_assoc, Option.getD_some]
    exact after?_eq_some_iff.mp hbehind

theorem exists_closing {cs : List Char} (h : (cs.takeWhile (· != ')')).length < cs.length) :
    ∃ after, cs = cs.takeWhile (· != ')') ++ ')' :: after := by
  have hsplit : cs.takeWhile (· != ')') ++ cs.dropWhile (· != ')') = cs :=
    List.takeWhile_append_dropWhile
  cases hrest : cs.dropWhile (· != ')') with
  | nil =>
    rw [hrest, List.append_nil] at hsplit
    rw [hsplit] at h
    exact absurd h (Nat.lt_irrefl _)
  | cons close after =>
    have hend := head?_dropWhile_any (· != ')') cs
    rw [hrest] at hend
    obtain rfl : close = ')' := by simpa using hend
    exact ⟨after, by rw [← hrest, hsplit]⟩

theorem requireCall?_append {before argument : List Char} (h : Requires target before)
    (hargument : ')' ∉ argument) (after : List Char) :
    requireCall? (before ++ (argument ++ ')' :: after)) =
      some (target, width before, width before + width argument) := by
  cases h with
  | @mk lead gap first second third keyword hlead hkeyword hgap htarget hfirst hsecond hthird =>
    have htext :
        lead ++ (keyword.toList ++ (gap ++ (target ++ (first ++ '=' ::
          (second ++ ("require".toList ++ (third ++ ['(']))))))) ++ (argument ++ ')' :: after) =
        lead ++ (keyword.toList ++ (gap ++ (target ++ (first ++ '=' ::
          (second ++ ("require".toList ++ (third ++ '(' :: (argument ++ ')' :: after)))))))) := by
      simp
    have hstart : (target ++ (first ++ '=' :: (second ++ ("require".toList ++
        (third ++ '(' :: (argument ++ ')' :: after)))))).head?.any isBlank = false :=
      htarget.head?_any_append _
    have hbehind : (first ++ '=' :: (second ++ ("require".toList ++
        (third ++ '(' :: (argument ++ ')' :: after))))).head?.any isNamePart = false := by
      cases first with
      | nil => rfl
      | cons c first => exact isNamePart_of_isBlank (hfirst c List.mem_cons_self)
    have hinner : (argument ++ ')' :: after).takeWhile (· != ')') = argument :=
      takeWhile_run (fun c hc => bne_iff_ne.mpr fun heq => hargument (heq ▸ hc)) rfl
    have hvalue : trimStart
        (second ++ ("require".toList ++ (third ++ '(' :: (argument ++ ')' :: after)))) =
          "require".toList ++ (third ++ '(' :: (argument ++ ')' :: after)) :=
        dropWhile_run hsecond rfl
    rw [htext, requireCall?_eq, lead_append hlead hkeyword rfl,
      afterKeyword?_eq_some_iff.mpr ⟨keyword, hkeyword, gap, hgap, rfl, hstart⟩, Option.bind_some,
      declared?_append htarget hbehind, Option.bind_some]
    dsimp only
    rw [(afterMark?_eq_some_iff (by decide)).mpr ⟨first, hfirst, rfl⟩, Option.bind_some, hvalue,
      after?_append, Option.bind_some, (afterMark?_eq_some_iff (by decide)).mpr
        ⟨third, hthird, rfl⟩, Option.bind_some, hinner,
      if_pos (by simp)]
    simp only [Option.some.injEq, Prod.mk.injEq, true_and, width_append, width_cons, width_nil]
    omega

theorem exists_of_requireCall? {start stop : Nat}
    (h : requireCall? masked = some (target, start, stop)) :
    ∃ before argument after, Requires target before ∧ ')' ∉ argument ∧
      masked = before ++ (argument ++ ')' :: after) ∧ start = width before ∧
      stop = width before + width argument := by
  rw [requireCall?_eq, Option.bind_eq_some_iff] at h
  obtain ⟨⟨declared, rest⟩, hdeclared, h⟩ := h
  obtain ⟨value, hvalue, h⟩ := Option.bind_eq_some_iff.mp h
  obtain ⟨behind, hbehind, h⟩ := Option.bind_eq_some_iff.mp h
  obtain ⟨call, hcall, hopen⟩ := Option.bind_eq_some_iff.mp hbehind
  obtain ⟨name, hname, htarget⟩ := Option.bind_eq_some_iff.mp hdeclared
  dsimp only at h
  split at h
  · next hclosed =>
    obtain ⟨rfl, hstart, hstop⟩ : declared = target ∧ width masked - width behind = start ∧
        width masked - width behind + width (behind.takeWhile (· != ')')) = stop := by simpa using h
    obtain ⟨lead, hlead, hmasked⟩ := exists_lead masked
    obtain ⟨keyword, hkeyword, gap, hgap, hdeclaration, -⟩ := afterKeyword?_eq_some_iff.mp hname
    obtain ⟨hvalid, rfl⟩ := exists_of_declared? htarget
    obtain ⟨first, hfirst, rfl⟩ := (afterMark?_eq_some_iff (by decide)).mp hvalue
    obtain ⟨third, hthird, rfl⟩ := (afterMark?_eq_some_iff (by decide)).mp hopen
    obtain ⟨after, hafter⟩ := exists_closing hclosed
    obtain ⟨second, hsecond, rfl⟩ : ∃ second, (∀ c ∈ second, isBlank c = true) ∧
        value = second ++ ("require".toList ++ (third ++ '(' :: behind)) := by
      refine ⟨value.takeWhile isBlank, List.all_eq_true.mp List.all_takeWhile, ?_⟩
      rw [← after?_eq_some_iff.mp hcall, trimStart, List.takeWhile_append_dropWhile]
    have htext : masked = lead ++ (keyword.toList ++ (gap ++ (declared ++ (first ++ '=' :: (second ++
        ("require".toList ++ (third ++ ['(']))))))) ++ behind := by
      rw [hmasked, hdeclaration]
      simp
    have hwidth := congrArg width htext
    rw [width_append] at hwidth
    have hargument : ')' ∉ behind.takeWhile (· != ')') := fun hmem =>
      absurd (List.all_eq_true.mp List.all_takeWhile _ hmem) (by decide)
    refine ⟨_, _, after, .mk hlead hkeyword hgap hvalid hfirst hsecond hthird, hargument, ?_,
      by omega, by omega⟩
    rw [htext, ← hafter]
  · contradiction

/-! ### Import clauses -/

/-- The statement `import clause from word`. -/
inductive Imports (clause : List Char) : List Char → Prop
  | mk {first second third word : List Char} : IsGap first → clause ≠ [] → IsGap second →
      IsGap third → word ≠ [] → (∀ c ∈ word, isBlank c = false) →
      Imports clause ("import".toList ++
        (first ++ (clause ++ (second ++ ("from".toList ++ (third ++ word))))))

theorem importClause?_eq (masked : List Char) :
    importClause? masked =
      (before? "from" (trimEnd (dropEndWhile (!isBlank ·) masked))).bind fun front =>
        (after? "import" front).bind fun inner =>
        if (dropEndWhile (!isBlank ·) masked).length < masked.length &&
            (dropEndWhile (!isBlank ·) masked).getLast?.any isBlank &&
            (inner.head?.any isBlank && inner.getLast?.any isBlank) &&
            (!(trim inner).isEmpty || 3 ≤ inner.length) then some (trim inner) else none := rfl

/-- White space at both ends of a text that has more than that. -/
theorem exists_framed {inner : List Char} (hhead : inner.head?.any isBlank = true)
    (hlast : inner.getLast?.any isBlank = true) (hsize : trim inner ≠ [] ∨ 3 ≤ inner.length) :
    ∃ first clause second, IsGap first ∧ clause ≠ [] ∧ IsGap second ∧
    inner = first ++ (clause ++ second) := by
  obtain ⟨c, more, rfl, hc⟩ := exists_cons_of_head?_any hhead
  rcases List.eq_nil_or_concat more with rfl | ⟨clause, d, rfl⟩
  · have htrim : trim [c] = [] := by simp [trim, trimStart, trimEnd, dropEndWhile, hc]
    simp [htrim] at hsize
  · rw [List.concat_eq_append] at hlast hsize ⊢
    rw [← List.cons_append, getLast?_any_append _ (List.cons_ne_nil d [])] at hlast
    have hd : isBlank d = true := hlast
    refine ⟨[c], clause, [d], ⟨by simp, by simpa using hc⟩, ?_, ⟨by simp, by simpa using hd⟩, rfl⟩
    rintro rfl
    have htrim : trim [c, d] = [] := by simp [trim, trimStart, trimEnd, dropEndWhile, hc, hd]
    simp [htrim] at hsize

theorem importClause?_of_imports (h : Imports clause masked) :
    importClause? masked = some (trim clause) := by
  cases h with
  | @mk first second third word hfirst hclause hsecond hthird hword hplain =>
    have hplain' : ∀ c ∈ word, (!isBlank c) = true :=
      fun c hc => by rw [hplain c hc, Bool.not_false]
    have hblank :=
      hthird.getLast?_isBlank ("import".toList ++ (first ++ (clause ++ second)) ++ "from".toList)
    have hend : ("import".toList ++ (first ++ (clause ++ second)) ++ "from".toList ++
        third).getLast?.any (!isBlank ·) =
        false := by
      cases hlast : ("import".toList ++ (first ++ (clause ++ second)) ++ "from".toList ++
        third).getLast? with
      | none => rfl
      | some c =>
        rw [hlast, Option.any_some] at hblank
        rw [Option.any_some, hblank, Bool.not_true]
    have hfront : dropEndWhile (!isBlank ·) ("import".toList ++ (first ++ (clause ++ (second ++
        ("from".toList ++ (third ++ word)))))) =
        "import".toList ++ (first ++ (clause ++ second)) ++ "from".toList ++ third := by
      rw [← dropEndWhile_run hend hplain']
      simp
    have hfrom : trimEnd ("import".toList ++ (first ++ (clause ++ second)) ++ "from".toList ++
        third) = "import".toList ++ (first ++ (clause ++ second)) ++ "from".toList := by
      refine dropEndWhile_run ?_ hthird.2
      rw [getLast?_any_append _ (by decide)]
      decide
    have hhead := hfirst.head?_isBlank (clause ++ second)
    have hlast := hsecond.getLast?_isBlank (first ++ clause)
    rw [List.append_assoc] at hlast
    rw [importClause?_eq, hfront, hfrom, before?_eq_some_iff.mpr rfl, Option.bind_some,
      after?_append, Option.bind_some, trim_around clause hfirst.2 hsecond.2, hhead, hlast, hblank]
    have hwords := List.length_pos_iff.mpr hword
    have hsize : 3 ≤ (first ++ (clause ++ second)).length := by
      have hfirsts := List.length_pos_iff.mpr hfirst.1
      have hclauses := List.length_pos_iff.mpr hclause
      have hseconds := List.length_pos_iff.mpr hsecond.1
      simp only [List.length_append]
      omega
    refine if_pos ?_
    simp only [List.length_append] at hsize ⊢
    simp [hsize]
    omega

theorem exists_of_importClause? {shown : List Char} (h : importClause? masked = some shown) :
    ∃ clause, Imports clause masked ∧ shown = trim clause := by
  rw [importClause?_eq, Option.bind_eq_some_iff] at h
  obtain ⟨front, hfront, h⟩ := h
  obtain ⟨inner, himport, h⟩ := Option.bind_eq_some_iff.mp h
  split at h
  · next hframed =>
    simp only [Bool.and_eq_true, Bool.or_eq_true, decide_eq_true_eq] at hframed
    obtain ⟨⟨⟨hshorter, hblank⟩, hhead, hlast⟩, hsize⟩ := hframed
    obtain ⟨first, clause, second, hfirst, hclause, hsecond, rfl⟩ :=
      exists_framed hhead hlast (by simpa using hsize)
    obtain ⟨word, hword, hmasked⟩ := exists_dropEndWhile (!isBlank ·) masked
    obtain ⟨third, hthird, hbefore⟩ :=
      exists_dropEndWhile isBlank (dropEndWhile (!isBlank ·) masked)
    have hfrom := before?_eq_some_iff.mp hfront
    rw [trimEnd] at hfrom
    rw [hfrom, after?_eq_some_iff.mp himport] at hbefore
    have hgap : IsGap third := by
      refine ⟨?_, hthird⟩
      rintro rfl
      rw [hbefore, List.append_nil, getLast?_any_append _ (by decide)] at hblank
      exact absurd hblank (by decide)
    have hne : word ≠ [] := by
      rintro rfl
      rw [List.append_nil] at hmasked
      exact absurd (congrArg List.length hmasked) (by omega)
    have hplain : ∀ c ∈ word, isBlank c = false := fun c hc => by simpa using hword c hc
    refine ⟨clause, ?_, ?_⟩
    · rw [hbefore] at hmasked
      have himports := Imports.mk hfirst hclause hsecond hgap hne hplain
      rw [hmasked]
      simpa using himports
    · rw [← Option.some.inj h, trim_around clause hfirst.2 hsecond.2]
  · contradiction

/-! ### Import statements -/

/-- An import statement of a script, with the text that stands behind it: a declaration that
requires a module, of which the argument reads as a string, or an import clause, if the last literal
of the statement reads as a string. -/
inductive ScriptImport (s : Statement) : List Char → Prop
  | required {target before argument after specifier : List Char} : Requires target before →
      ')' ∉ argument → s.masked = before ++ (argument ++ ')' :: after) →
      ((Expr.ofStatement s).slice (width before) (width before + width argument)).stringValue? =
        some specifier →
      ScriptImport s after
  | imported {clause specifier : List Char} {literal : Nat × Nat} : Imports clause s.masked →
      s.literals.getLast? = some literal →
      ((Expr.ofStatement s).slice literal.1 literal.2).stringValue? = some specifier →
      ScriptImport s []

/-- A declaration is no import clause. -/
theorem requireCall?_of_imports (h : Imports clause masked) : requireCall? masked = none := by
  cases h
  rfl

section

variable {s : Statement}

theorem scriptImport_of_requireCall? {start stop : Nat}
    (h : requireCall? s.masked = some (target, start, stop)) :
    (∃ after, ScriptImport s after) ↔ ((Expr.ofStatement s).slice start stop).stringValue?.isSome =
      true := by
  constructor
  · rintro ⟨after, himport⟩
    cases himport with
    | required hrequires hargument hmasked hvalue =>
      rw [hmasked, requireCall?_append hrequires hargument] at h
      obtain ⟨-, rfl, rfl⟩ : _ ∧ _ = start ∧ _ = stop := by simpa using h
      rw [hvalue]
      rfl
    | imported himports =>
      rw [requireCall?_of_imports himports] at h
      contradiction
  · intro hvalue
    obtain ⟨before, argument, after, hrequires, hargument, hmasked, rfl, rfl⟩ :=
      exists_of_requireCall? h
    obtain ⟨specifier, hspecifier⟩ := Option.isSome_iff_exists.mp hvalue
    exact ⟨after, .required hrequires hargument hmasked hspecifier⟩

theorem scriptImport_of_importClause? (h : requireCall? s.masked = none) :
    (∃ after, ScriptImport s after) ↔ (importClause? s.masked).isSome = true ∧
      (s.literals.getLast?.bind fun r => ((Expr.ofStatement s).slice r.1 r.2).stringValue?).isSome =
        true := by
  constructor
  · rintro ⟨after, himport⟩
    cases himport with
    | required hrequires hargument hmasked hvalue =>
      rw [hmasked, requireCall?_append hrequires hargument] at h
      contradiction
    | imported himports hliteral hvalue =>
      rw [importClause?_of_imports himports, hliteral, Option.bind_some, hvalue]
      exact ⟨rfl, rfl⟩
  · rintro ⟨hclause, hvalue⟩
    obtain ⟨shown, hshown⟩ := Option.isSome_iff_exists.mp hclause
    obtain ⟨specifier, hspecifier⟩ := Option.isSome_iff_exists.mp hvalue
    obtain ⟨literal, hliteral, hslice⟩ := Option.bind_eq_some_iff.mp hspecifier
    obtain ⟨clause, himports, -⟩ := exists_of_importClause? hshown
    exact ⟨[], .imported himports hliteral hslice⟩

end

/-- A statement of a script is taken for an import exactly if it begins with one, whatever stands
behind the call of `require`, and a statement that is not taken for one binds nothing. -/
theorem scan_script_iff {t : ImportTable} (ht : t.language = .script) (s : Statement) :
    ((t.scan s).2 = true ↔ ∃ after, ScriptImport s after) ∧
    ((t.scan s).2 = false → (t.scan s).1 = t) := by
  have hscan : t.scan s = t.scanScript s := by rw [scan, ht]
  rw [hscan, scanScript]
  dsimp only
  cases hcall : requireCall? s.masked with
  | some call =>
    obtain ⟨target, start, stop⟩ := call
    rw [scriptImport_of_requireCall? hcall]
    dsimp only
    cases ((Expr.ofStatement s).slice start stop).stringValue? with
    | some specifier => dsimp only; split <;> simp
    | none => simp
  | none =>
    rw [scriptImport_of_importClause? hcall]
    dsimp only
    cases importClause? s.masked with
    | none => simp
    | some clause =>
      dsimp only
      cases s.literals.getLast?.bind fun r => ((Expr.ofStatement s).slice r.1 r.2).stringValue? with
      | none => simp
      | some specifier => simp

/-- A declaration of fields that is an import as a whole. -/
theorem scan_script_fields :
    let t := empty "server/app.js".toList .script
    ∃ s ∈ (readStatements .script "const { Router } = require('./lib')".toList).statements,
      t.language = .script ∧ ScriptImport s [] ∧ (t.scan s).2 = true := by
  intro t
  obtain ⟨s, hs, hmasked, hvalue⟩ :
      ∃ s ∈ (readStatements .script "const { Router } = require('./lib')".toList).statements,
        s.masked = "const { Router } = require('_____')".toList ∧
        ((Expr.ofStatement s).slice (width "const { Router } = require(".toList)
          (width "const { Router } = require(".toList + width "'_____'".toList)).stringValue? =
            some "./lib".toList := by
    decide +kernel
  have htarget : IsTarget "{ Router }".toList := .inr ⟨" Router ".toList, by decide, rfl⟩
  have hrequires : Requires "{ Router }".toList "const { Router } = require(".toList := by
    have hspace : ∀ c ∈ [' '], isBlank c = true := List.forall_mem_singleton.mpr rfl
    have hparts :=
      @Requires.mk _ [] [' '] [' '] [' '] [] "const" (.inl rfl) (by decide)
        (by decide) htarget hspace hspace (List.forall_mem_nil _)
    have hbefore : [] ++ ("const".toList ++
        ([' '] ++ ("{ Router }".toList ++
          ([' '] ++ '=' :: ([' '] ++ ("require".toList ++ ([] ++ ['(']))))))) =
            "const { Router } = require(".toList := by decide
    rwa [hbefore] at hparts
  have hargument : ')' ∉ "'_____'".toList := by decide
  have htext : "const { Router } = require('_____')".toList =
      "const { Router } = require(".toList ++ ("'_____'".toList ++ [')']) := by decide
  have himport : ScriptImport s [] := .required hrequires hargument (hmasked.trans htext) hvalue
  exact ⟨s, hs, rfl, himport, (scan_script_iff rfl s).1.mpr ⟨[], himport⟩⟩

/-- A module that is called where it is required is taken for an import, and the name of what the
call gives is bound to the module. -/
theorem scan_script_called :
    let t := empty "server/app.js".toList .script
    ∃ s ∈ (readStatements .script "const app = require('express')()".toList).statements,
      (t.scan s).2 = true ∧ (t.scan s).1.get? "app".toList =
        some ⟨"express".toList, some defaultName, true⟩ ∧ ¬ScriptImport s [] := by
  intro t
  obtain ⟨s, hs, hscan, hget, hcall, hwidth⟩ :
      ∃ s ∈ (readStatements .script "const app = require('express')()".toList).statements,
        (t.scan s).2 = true ∧ (t.scan s).1.get? "app".toList =
          some ⟨"express".toList, some defaultName, true⟩ ∧
        requireCall? s.masked = some ("app".toList, 20, 29) ∧ width s.masked = 32 := by
          decide +kernel
  refine ⟨s, hs, hscan, hget, fun himport => ?_⟩
  generalize hafter : ([] : List Char) = after at himport
  cases himport with
  | required hrequires hargument hmasked =>
    subst hafter
    rw [hmasked, requireCall?_append hrequires hargument] at hcall
    rw [hmasked] at hwidth
    obtain ⟨-, hstart, hstop⟩ : _ ∧ _ = 20 ∧
        _ = 29 := by simpa only [Option.some.injEq, Prod.mk.injEq] using hcall
    have hclose : width [')'] = 1 := by decide
    rw [width_append, width_append, hclose] at hwidth
    omega
  | imported himports =>
    rw [requireCall?_of_imports himports] at hcall
    contradiction

end ImportTable

end EndpointCensus
