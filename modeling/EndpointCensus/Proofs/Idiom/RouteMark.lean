import EndpointCensus.Idiom.Controller
import EndpointCensus.Proofs.Text.Behind
import Mathlib.Data.List.Infix

/-!
What the masked text of a class body shows of its members: the marks of route decorators,
decorators, and names of methods. White space ends each of them, so what is written behind white
space does not change what is read before it.
-/

namespace EndpointCensus.Controller

open Text

variable {cs xs ys : List Char}

/-! ### Beginnings and words -/

/-- The text begins with something other than white space and an argument list. -/
def StartsAnew (ys : List Char) : Prop := ∃ c, ys.head? = some c ∧ isBlank c = false ∧ c ≠ '('

theorem StartsAnew.of_mark (hys : ys.head? = some '@') : StartsAnew ys := ⟨'@', hys, rfl, by decide⟩

theorem StartsAnew.head?_isBlank (hys : StartsAnew ys) : ys.head?.any isBlank = false := by
  obtain ⟨c, hhead, hc, -⟩ := hys
  rw [hhead]
  exact hc

/-- No word that is looked for has white space in it. -/
theorem isBlank_words : ∀ w ∈ modifiers ++ routeMarks, ∀ c ∈ w.toList, isBlank c = false := by
  have hall : ((modifiers ++ routeMarks).all fun w => w.toList.all fun c => !isBlank c) = true := by
    decide
  intro w hw c hc
  simpa using List.all_eq_true.mp (List.all_eq_true.mp hall w hw) c hc

/-! ### Names of methods -/

/-- The parts of a text with more written behind it. -/
def follow (ys : List Char) (r : List Char × List Char) : List Char × List Char :=
  (r.1 ++ ys, r.2 ++ ys)

theorem named?_mark (hys : ys.head? = some '@') : named? ys = none := by
  obtain ⟨rest, rfl⟩ := List.head?_eq_some_iff.mp hys
  rfl

theorem afterWord?_mark (hys : ys.head? = some '@') : afterWord? modifiers ys = none := by
  obtain ⟨rest, rfl⟩ := List.head?_eq_some_iff.mp hys
  rfl

theorem methodName?_mark (hys : ys.head? = some '@') (fuel : Nat) : methodName? fuel ys = none := by
  cases fuel with
  | zero => exact named?_mark hys
  | succ fuel =>
    rw [methodName?, afterWord?_mark hys, named?_mark hys]
    rfl

theorem named?_before (hxs : xs.getLast?.any isBlank = true) (hys : ys.head? = some '@') :
    named? (xs ++ ys) = (named? xs).map (follow ys) := by
  have hmark := (StartsAnew.of_mark hys).head?_isBlank
  cases xs with
  | nil => contradiction
  | cons c cs =>
    rw [named?, named?, List.cons_append, identifier?, identifier?]
    cases hc : isNameStart c with
    | false => rfl
    | true =>
      have hrest := getLast?_tail hxs (ne_nil_of_isNameStart hc hxs)
      obtain ⟨-, hdrop⟩ := dropWhile_before (fun _ => isNamePart_of_isBlank) hrest ys
      rw [if_pos rfl, if_pos rfl]
      dsimp only
      rw [hdrop, trimStart_before hmark]
      cases trimStart (cs.dropWhile isNamePart) with
      | nil =>
        rw [List.nil_append, hys]
        rfl
      | cons d ds =>
        rw [List.cons_append, List.head?_cons, List.head?_cons]
        dsimp only
        split <;> rfl

/-- The name of a method does not depend on a decorator behind white space. -/
theorem methodName?_before {n fuel : Nat} (hn : xs.length ≤ n) (hfuel : xs.length ≤ fuel)
    (hxs : xs.getLast?.any isBlank = true) (hys : ys.head? = some '@') :
    methodName? fuel (xs ++ ys) = (methodName? n xs).map (follow ys) := by
  induction n generalizing fuel xs with
  | zero =>
    rw [List.length_eq_zero_iff.mp (Nat.le_zero.mp hn)] at hxs
    contradiction
  | succ n ih =>
    have hpos : 0 < xs.length := List.length_pos_iff.mpr (ne_nil_of_getLast? hxs)
    obtain ⟨fuel, rfl⟩ := Nat.exists_eq_succ_of_ne_zero (Nat.ne_of_gt (hpos.trans_le hfuel))
    have hwords : ∀ w ∈ modifiers, ∀ c ∈ w.toList, isBlank c = false := fun w hw =>
      isBlank_words w (List.mem_append_left _ hw)
    rw [methodName?, methodName?, afterWord?_before hwords hxs (StartsAnew.of_mark hys).head?_isBlank,
      named?_before hxs hys]
    cases hrest : afterWord? modifiers xs with
    | none => rfl
    | some rest =>
      obtain ⟨front, hfront, rfl⟩ := exists_of_afterWord? hrest
      have hlength := List.length_pos_iff.mpr (ne_nil_of_getLast? hfront)
      rw [List.length_append] at hn hfuel
      have hname : methodName? fuel (rest ++ ys) = (methodName? n rest).map (follow ys) := by
        by_cases hnil : rest = []
        · subst hnil
          rw [List.nil_append, methodName?_mark hys]
          cases n <;> rfl
        · exact ih (by omega) (by omega) (getLast?_suffix hxs hnil)
      rw [Option.map_some, Option.bind_some, Option.bind_some, hname]
      cases methodName? n rest <;> rfl

/-- The name of a method stands at the beginning of a text or behind white space. -/
theorem exists_of_methodName? {fuel : Nat} {start rest : List Char}
    (h : methodName? fuel cs = some (start, rest)) :
    ∃ front mid, cs = front ++ start ∧ start = mid ++ rest ∧
    (front = [] ∨ front.getLast?.any isBlank = true) := by
  have hnamed {cs : List Char} (h : named? cs = some (start, rest)) : cs = start ∧
      ∃ mid, start = mid ++ rest := by
    rw [named?] at h
    cases cs with
    | nil => contradiction
    | cons c cs =>
      cases hc : isNameStart c with
      | false => simp [identifier?, hc] at h
      | true =>
        rw [identifier?, if_pos hc] at h
        dsimp only at h
        split at h
        · split at h
          · obtain ⟨rfl, rfl⟩ := Prod.mk.inj (Option.some.inj h)
            refine ⟨rfl, c :: cs.takeWhile isNamePart, ?_⟩
            rw [List.cons_append, List.takeWhile_append_dropWhile]
          · contradiction
        · contradiction
  induction fuel generalizing cs with
  | zero =>
    obtain ⟨rfl, mid, hmid⟩ := hnamed h
    exact ⟨[], mid, rfl, hmid, .inl rfl⟩
  | succ fuel ih =>
    rw [methodName?] at h
    rcases Option.or_eq_some_iff.mp h with hmodified | ⟨-, hplain⟩
    · obtain ⟨more, hmore, hname⟩ := Option.bind_eq_some_iff.mp hmodified
      obtain ⟨word, hword, rfl⟩ := exists_of_afterWord? hmore
      obtain ⟨front, mid, rfl, hmid, hfront⟩ := ih hname
      refine ⟨word ++ front, mid, (List.append_assoc _ _ _).symm, hmid, .inr ?_⟩
      rcases hfront with rfl | hfront
      · rw [List.append_nil]
        exact hword
      · exact (getLast?_any_append _ (ne_nil_of_getLast? hfront)).trans hfront
    · obtain ⟨rfl, mid, hmid⟩ := hnamed hplain
      exact ⟨[], mid, rfl, hmid, .inl rfl⟩

/-! ### Marks of route decorators -/

/-- A mark with more text behind it. -/
def followMark (ys : List Char) (mark : Method × List Char × List Char) :
    Method × List Char × List Char :=
  (mark.1, follow ys mark.2)

/-- The route decorator at the beginning of a text. -/
def markAt? (before : Option Char) : List Char → Option (Method × List Char × List Char)
  | [] => none
  | c :: cs =>
    if c == '@' && isFree before then
      routeMarks.findSome? fun word => (after? word cs).bind fun rest =>
        if (trimStart rest).head? == some '(' then
          (Method.ofVerb? word.toList).map fun m => (m, c :: cs, trimStart rest)
        else none
    else none

theorem marks_cons (before : Option Char) (c : Char) (cs : List Char) :
    marks before (c :: cs) = (markAt? before (c :: cs)).toList ++ marks (some c) cs := rfl

theorem marks_congr {before before' : Option Char} (h : isFree before = isFree before')
    (cs : List Char) : marks before cs = marks before' cs := by
  cases cs with
  | nil => rfl
  | cons c cs => rw [marks_cons, marks_cons, markAt?, markAt?, h]

/-- A mark is the sign, the word of a method, white space and a parenthesis. -/
theorem exists_of_markAt? {before : Option Char} {mark : Method × List Char × List Char}
    (h : markAt? before cs = some mark) :
    ∃ word ∈ routeMarks, ∃ gap, (∀ c ∈ gap, isBlank c = true) ∧
      cs = '@' :: (word.toList ++ (gap ++ mark.2.2)) ∧ mark.2.1 = cs ∧
      mark.2.2.head? = some '(' := by
  cases cs with
  | nil => contradiction
  | cons c cs =>
    rw [markAt?] at h
    split at h
    · next hsign =>
      obtain ⟨word, hword, hfound⟩ := List.exists_of_findSome?_eq_some h
      obtain ⟨rest, hrest, hparen⟩ := Option.bind_eq_some_iff.mp hfound
      split at hparen
      · next hopen =>
        obtain ⟨m, -, rfl⟩ := Option.map_eq_some_iff.mp hparen
        refine ⟨word, hword, rest.takeWhile isBlank, List.all_eq_true.mp List.all_takeWhile, ?_,
          rfl, beq_iff_eq.mp hopen⟩
        rw [beq_iff_eq.mp (Bool.and_eq_true_iff.mp hsign).1, trimStart,
          List.takeWhile_append_dropWhile, after?_eq_some_iff.mp hrest]
      · contradiction
    · contradiction

/-- Every mark begins a rest of the text. -/
theorem exists_of_mem_marks {before : Option Char} {mark : Method × List Char × List Char}
    (h : mark ∈ marks before cs) :
    ∃ before' front rest, cs = front ++ rest ∧ markAt? before' rest = some mark := by
  induction cs generalizing before with
  | nil => contradiction
  | cons c cs ih =>
    rw [marks_cons] at h
    rcases List.mem_append.mp h with hfirst | hlater
    · exact ⟨before, [], c :: cs, rfl, Option.mem_toList.mp hfirst⟩
    · obtain ⟨before', front, rest, rfl, hrest⟩ := ih hlater
      exact ⟨before', c :: front, rest, rfl, hrest⟩

theorem markAt?_before (hxs : xs.getLast?.any isBlank = true) (hys : StartsAnew ys)
    (before : Option Char) :
    markAt? before (xs ++ ys) = (markAt? before xs).map (followMark ys) := by
  cases xs with
  | nil => contradiction
  | cons c cs =>
    rw [List.cons_append, markAt?, markAt?]
    split
    · next hsign =>
      have hne : cs ≠ [] := by
        rintro rfl
        obtain rfl := beq_iff_eq.mp (Bool.and_eq_true_iff.mp hsign).1
        contradiction
      have hwords : ∀ w ∈ routeMarks, ∀ c ∈ w.toList, isBlank c = false := fun w hw =>
        isBlank_words w (List.mem_append_right _ hw)
      generalize routeMarks = words at hwords
      induction words with
      | nil => rfl
      | cons w words ih =>
        obtain ⟨hw, hwords⟩ := List.forall_mem_cons.mp hwords
        rw [List.findSome?_cons, List.findSome?_cons, ih hwords,
          after?_before hw (getLast?_tail hxs hne)]
        cases after? w cs with
        | none => rfl
        | some rest =>
          rw [Option.map_some, Option.bind_some, Option.bind_some, trimStart_before hys.head?_isBlank]
          cases trimStart rest with
          | nil =>
            obtain ⟨d, hhead, -, hparen⟩ := hys
            rw [List.nil_append, hhead, if_neg (by simpa using hparen)]
            rfl
          | cons d ds =>
            rw [List.cons_append, List.head?_cons, List.head?_cons]
            by_cases hparen : (some d == some '(') = true
            · rw [if_pos hparen, if_pos hparen]
              cases Method.ofVerb? w.toList <;> rfl
            · rw [if_neg hparen, if_neg hparen]
    · rfl

/-- White space parts the marks of a text. -/
theorem marks_append (hxs : xs.getLast?.any isBlank = true) (hys : StartsAnew ys)
    (before : Option Char) :
    marks before (xs ++ ys) = (marks before xs).map (followMark ys) ++ marks (some ' ') ys := by
  induction xs generalizing before with
  | nil => contradiction
  | cons c cs ih =>
    have hfirst := markAt?_before hxs hys before
    rw [List.cons_append] at hfirst ⊢
    rw [marks_cons, marks_cons, hfirst, List.map_append, List.append_assoc]
    congr 1
    · cases markAt? before (c :: cs) <;> rfl
    · by_cases hnil : cs = []
      · subst hnil
        have hc : isBlank c = true := hxs
        refine marks_congr ?_ ys
        rw [isFree, Option.all_some, hc]
        rfl
      · exact ih (getLast?_tail hxs hnil) _

/-! ### Decorators -/

/-- A part of the name of a decorator. -/
def isDecoratorPart (c : Char) : Bool := isNamePart c || c == '.'

theorem isDecoratorPart_of_isBlank {c : Char} (h : isBlank c = true) :
    isDecoratorPart c = false := by
  have hdot : (c == '.') = false := beq_eq_false_iff_ne.mpr fun heq => by
    subst heq
    contradiction
  rw [isDecoratorPart, isNamePart_of_isBlank h, hdot, Bool.or_false]

theorem decoratorName?_cons (c : Char) (cs : List Char) : decoratorName? ('@' :: c :: cs) =
    if isNameStart c then some (c :: cs.takeWhile isDecoratorPart,
      trimStart (cs.dropWhile isDecoratorPart))
    else none := rfl

theorem decoratorName?_of_ne (h : cs.head? ≠ some '@') : decoratorName? cs = none := by
  rw [decoratorName?.eq_def]
  split
  · exact absurd rfl h
  · rfl

/-- The name of a decorator does not depend on what is written behind white space. -/
theorem decoratorName?_before (hxs : xs.getLast?.any isBlank = true)
    (hys : ys.head?.any isBlank = false) :
    decoratorName? (xs ++ ys) = (decoratorName? xs).map fun (name, rest) => (name, rest ++ ys) := by
  by_cases hmark : xs.head? = some '@'
  · obtain ⟨cs, rfl⟩ := List.head?_eq_some_iff.mp hmark
    have hcs : cs ≠ [] := by
      rintro rfl
      contradiction
    cases cs with
    | nil => contradiction
    | cons c cs =>
      rw [List.cons_append, List.cons_append, decoratorName?_cons, decoratorName?_cons]
      cases hc : isNameStart c with
      | false => rfl
      | true =>
        have hname := getLast?_tail hxs hcs
        have hrest := getLast?_tail hname (ne_nil_of_isNameStart hc hname)
        obtain ⟨htake, hdrop⟩ := dropWhile_before (fun _ => isDecoratorPart_of_isBlank) hrest ys
        rw [if_pos rfl, if_pos rfl, htake, hdrop, trimStart_before hys]
        rfl
  · have hne : xs ≠ [] := by
      rintro rfl
      contradiction
    have hhead : (xs ++ ys).head? ≠ some '@' := by
      obtain ⟨c, cs, rfl⟩ := List.exists_cons_of_ne_nil hne
      exact hmark
    rw [decoratorName?_of_ne hmark, decoratorName?_of_ne hhead]
    rfl

/-- A decorator is its sign, its name and white space. -/
theorem exists_of_decoratorName? {name rest : List Char}
    (h : decoratorName? cs = some (name, rest)) :
    ∃ gap, (∀ c ∈ gap, isBlank c = true) ∧ cs = '@' :: (name ++ (gap ++ rest)) ∧
      rest.head?.any isBlank = false ∧ name.head?.any isNameStart = true ∧
      (gap ++ rest).head?.any isDecoratorPart = false := by
  by_cases hmark : cs.head? = some '@'
  · obtain ⟨cs, rfl⟩ := List.head?_eq_some_iff.mp hmark
    cases cs with
    | nil => contradiction
    | cons c cs =>
      rw [decoratorName?_cons] at h
      split at h
      · next hc =>
        obtain ⟨rfl, rfl⟩ := Prod.mk.inj (Option.some.inj h)
        refine ⟨(cs.dropWhile isDecoratorPart).takeWhile isBlank,
          List.all_eq_true.mp List.all_takeWhile, ?_, head?_dropWhile_any _ _, hc, ?_⟩
        · rw [trimStart, List.takeWhile_append_dropWhile, List.cons_append,
            List.takeWhile_append_dropWhile]
        · rw [trimStart, List.takeWhile_append_dropWhile]
          exact head?_dropWhile_any _ _
      · contradiction
  · rw [decoratorName?_of_ne hmark] at h
    contradiction

/-- A decorator that is written is read. -/
theorem decoratorName?_written {name gap : List Char} (hname : name.head?.any isNameStart = true)
    (hparts : ∀ c ∈ name, isDecoratorPart c = true) (hgap : ∀ c ∈ gap, isBlank c = true)
    (hys : ys.head?.any isBlank = false) (hstop : (gap ++ ys).head?.any isDecoratorPart = false) :
    decoratorName? ('@' :: (name ++ (gap ++ ys))) = some (name, ys) := by
  obtain ⟨c, name, rfl, hc⟩ := exists_cons_of_head?_any hname
  have hrun := (List.forall_mem_cons.mp hparts).2
  rw [List.cons_append, decoratorName?_cons, if_pos hc, takeWhile_run hrun hstop,
    dropWhile_run hrun hstop, trimStart, dropWhile_run hgap hys]

/-- A route decorator is a decorator. -/
theorem decoratorName?_of_markAt? {before : Option Char} {mark : Method × List Char × List Char}
    (h : markAt? before cs = some mark) : ∃ name, decoratorName? cs = some (name, mark.2.2) := by
  have hall : ∀ word ∈ routeMarks, word.toList.head?.any isNameStart = true ∧
      (word.toList.all isDecoratorPart) = true := by decide
  obtain ⟨word, hword, gap, hgap, hcs, -, hopen⟩ := exists_of_markAt? h
  obtain ⟨hstart, hparts⟩ := hall word hword
  obtain ⟨vs, hparen⟩ := List.head?_eq_some_iff.mp hopen
  refine ⟨word.toList, ?_⟩
  rw [hcs]
  refine decoratorName?_written hstart (List.all_eq_true.mp hparts) hgap (by rw [hparen]; rfl) ?_
  cases gap with
  | nil =>
    rw [hparen]
    rfl
  | cons c gap => exact isDecoratorPart_of_isBlank (hgap c List.mem_cons_self)

/-- What is left of a text after the decorator at its beginning, with its arguments where it
has any, and white space. -/
def afterDecorator? (cs : List Char) : Option (List Char) :=
  (decoratorName? cs).bind fun (_, rest) =>
    if rest.head? == some '(' then (findMatching rest 0).map fun close =>
      trimStart (dropBytes (close + 1) rest)
    else some rest

/-- The text before the decorators of a member: white space ends it, every parenthesis that is
opened in it is closed in it, and it does not end in a decorator itself. -/
structure IsFront (cs : List Char) : Prop where
  blank : cs.getLast?.any isBlank = true
  closed : ∀ vs, vs <:+ cs → vs.head? = some '(' → (findMatching vs 0).isSome = true
  ended : ∀ vs, vs <:+ cs → afterDecorator? vs ≠ some []

instance (cs : List Char) : Decidable (IsFront cs) :=
  decidable_of_iff (cs.getLast?.any isBlank = true ∧
      (∀ vs ∈ cs.tails, vs.head? = some '(' → (findMatching vs 0).isSome = true) ∧
      ∀ vs ∈ cs.tails, afterDecorator? vs ≠ some [])
    ⟨fun h => ⟨h.1, fun vs hvs => h.2.1 vs ((List.mem_tails _ _).mpr hvs),
        fun vs hvs => h.2.2 vs ((List.mem_tails _ _).mpr hvs)⟩,
      fun h => ⟨h.blank, fun vs hvs => h.closed vs ((List.mem_tails _ _).mp hvs),
        fun vs hvs => h.ended vs ((List.mem_tails _ _).mp hvs)⟩⟩

theorem IsFront.suffix (h : IsFront (xs ++ ys)) (hne : ys ≠ []) : IsFront ys where
  blank := getLast?_suffix h.blank hne
  closed vs hvs := h.closed vs (hvs.trans (List.suffix_append xs ys))
  ended vs hvs := h.ended vs (hvs.trans (List.suffix_append xs ys))

end EndpointCensus.Controller
