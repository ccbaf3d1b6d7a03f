import EndpointCensus.Proofs.Expr.Behind
import EndpointCensus.Proofs.Idiom.RouteMark

/-!
The method below the decorators of a member. It is read from glyphs alone, one decorator
after the other, and what stands in front of the decorators of a member shows the same
method whatever these are.
-/

namespace EndpointCensus.Controller

open Text

variable {gs more : List Glyph} {code : Option UInt16} {name rest : List Char} {x : Expr}

/-! ### One decorator after the other -/

/-- The name of a method at the beginning of glyphs. -/
def memberName? (gs : List Glyph) : Option (List Char) :=
  (methodName? (maskedText gs).length (maskedText gs)).map fun (start, rest) =>
    (⟨gs, 0⟩ : Expr).between start rest

/-- The method below the decorators that glyphs begin with, and the status code that is
declared there or before. -/
def memberOf? (code : Option UInt16) (gs : List Glyph) : Option (List Char × Metadata) :=
  member? (gs.length + 1) code ⟨gs, 0⟩

/-- The status code behind a decorator with its arguments. -/
def statusBehind (name : List Char) (args : Args) (code : Option UInt16) : Option UInt16 :=
  if name == "HttpCode".toList then ((args.positional? 0).bind Expr.statusCode?).map UInt16.ofNat
    else code

theorem statusBehind_congr {a b : Args} (h : a.look = b.look) (name : List Char)
    (code : Option UInt16) : statusBehind name a code = statusBehind name b code := by
  have hfirst : (a.positional? 0).bind Expr.statusCode? = (b.positional? 0).bind Expr.statusCode? :=
    bind_congr_of_map (Args.positional?_congr h 0) fun _ _ _ _ => Expr.statusCode?_congr
  rw [statusBehind, statusBehind, hfirst]

/-- One step of the search for the method. -/
theorem member?_succ (fuel : Nat) (code : Option UInt16) (x : Expr) : member? (fuel + 1) code x =
    match decoratorName? x.masked with
    | none => (methodName? x.masked.length x.masked).map fun (start, rest) =>
      (x.between start rest, { statusCode := code })
    | some (name, rest) =>
      if rest.head? == some '(' then
        (x.argsAt? (x.offsetOf rest)).bind fun args =>
          member? fuel (statusBehind name args code) (x.tail args.stop)
      else member? fuel code (x.tail (x.offsetOf rest)) := rfl

/-- A decorator is more than what is left behind it. -/
theorem offsetOf_pos (h : decoratorName? x.masked = some (name, rest)) : 0 < x.offsetOf rest := by
  obtain ⟨gap, -, hmasked, -⟩ := exists_of_decoratorName? h
  have hwhole : x.masked = '@' :: (name ++ gap) ++ rest := by
    rw [hmasked, List.cons_append, List.append_assoc]
  rw [Expr.offsetOf_append hwhole, width_cons]
  exact Nat.add_pos_left (by decide) _

/-- The method is told by the glyphs, and there are no more decorators than glyphs. -/
theorem member?_eq {fuel : Nat} (hx : x.glyphs = gs) (hfuel : gs.length < fuel) :
    member? fuel code x = memberOf? code gs := by
  suffices h : ∀ {fuel fuel' : Nat} {code : Option UInt16} {x y : Expr}, x.glyphs = y.glyphs →
      x.glyphs.length < fuel → y.glyphs.length < fuel' →
      member? fuel code x = member? fuel' code y from
    h hx (hx.symm ▸ hfuel) (Nat.lt_succ_self _)
  clear * -
  intro fuel
  induction fuel with
  | zero => intro _ _ _ _ _ hfuel; contradiction
  | succ fuel ih =>
    intro fuel' code x y hxy hfuel hfuel'
    obtain ⟨fuel', rfl⟩ := Nat.exists_eq_succ_of_ne_zero (Nat.ne_of_gt (Nat.zero_lt_of_lt hfuel'))
    rw [member?_succ, member?_succ, Expr.masked_congr hxy]
    cases hname : decoratorName? y.masked with
    | none =>
      dsimp only
      congr 1
      funext r
      rw [Expr.between_congr hxy]
    | some r =>
      obtain ⟨name, rest⟩ := r
      have hne : x.glyphs ≠ [] := fun hnil => by
        obtain ⟨gap, -, hmasked, -⟩ := exists_of_decoratorName? hname
        rw [Expr.masked, ← hxy, hnil] at hmasked
        contradiction
      have hpos : 0 < y.offsetOf rest := offsetOf_pos hname
      have hshorter {stop : Nat} (hstop : 0 < stop) : (x.tail stop).glyphs.length < fuel ∧
          (y.tail stop).glyphs.length < fuel' := by
        have hlt := Expr.length_tail_lt hstop hne
        rw [← Expr.tail_congr hxy, ← hxy] at *
        omega
      dsimp only
      rw [Expr.offsetOf_congr hxy]
      split
      · refine bind_congr_of_map (Expr.argsAt?_congr hxy _) fun args args' hargs _ hsame => ?_
        obtain ⟨hlook, hstop⟩ := Prod.mk.inj hsame
        obtain ⟨hlt, hlt'⟩ := hshorter (Expr.stop_pos_of_argsAt? hargs)
        rw [statusBehind_congr hlook, ← hstop]
        exact ih (Expr.tail_congr hxy _) hlt hlt'
      · obtain ⟨hlt, hlt'⟩ := hshorter hpos
        exact ih (Expr.tail_congr hxy _) hlt hlt'

theorem memberOf?_of_none (h : decoratorName? (maskedText gs) = none) :
    memberOf? code gs = (memberName? gs).map fun name => (name, { statusCode := code }) := by
  have hnone : decoratorName? (⟨gs, 0⟩ : Expr).masked = none := h
  rw [memberOf?, member?_succ, hnone, memberName?, Option.map_map]
  rfl

/-- A decorator without arguments is passed over. -/
theorem memberOf?_bare {front : List Glyph} (hgs : gs = front ++ more)
    (hname : decoratorName? (maskedText gs) = some (name, maskedText more))
    (hbare : (maskedText more).head? ≠ some '(') :
    memberOf? code gs = memberOf? code (trimGlyphs more) := by
  have hx : Expr.Behind front ⟨more, 0 + glyphWidth front⟩ ⟨gs, 0⟩ := ⟨hgs, rfl⟩
  have hmasked : (⟨gs, 0⟩ : Expr).masked = maskedText front ++ maskedText more := hx.masked
  have hfirst : decoratorName? (⟨gs, 0⟩ : Expr).masked = some (name, maskedText more) := hname
  have htail : ((⟨gs, 0⟩ : Expr).tail ((⟨gs, 0⟩ : Expr).offsetOf (maskedText more))).glyphs =
      trimGlyphs more := by
    rw [Expr.offsetOf_append hmasked, width_maskedText_eq, ← Nat.add_zero (glyphWidth front),
      hx.tail]
    exact Expr.glyphs_tail_zero _
  have hne : gs ≠ [] := by
    rintro rfl
    contradiction
  have hlt := @Expr.length_tail_lt ⟨gs, 0⟩ _ (offsetOf_pos hfirst) hne
  rw [memberOf?, member?_succ, hfirst]
  dsimp only
  rw [if_neg (by simpa using hbare)]
  exact member?_eq htail (htail ▸ hlt)

/-- The same arguments are read from a list by itself and from a longer text that it stands in. -/
theorem exists_argsAt? {front arguments : List Glyph} (hargs : Expr.IsArgs arguments)
    (hx : x.glyphs = front ++ (arguments ++ more)) :
    ∃ args args', (⟨arguments, 0⟩ : Expr).argsAt? 0 = some args ∧
      x.argsAt? (glyphWidth front) = some args' ∧ args'.look = args.look ∧
        (x.tail args'.stop).glyphs = trimGlyphs more := by
  let inner : Expr := ⟨arguments ++ more, x.offset + glyphWidth front⟩
  have hbehind : Expr.Behind front inner x := ⟨hx, rfl⟩
  have hrest : Expr.Behind arguments ⟨more, inner.offset + glyphWidth arguments⟩ inner := ⟨rfl, rfl⟩
  obtain ⟨args', hargs', hstop, hread⟩ :=
    hargs.argsAt? (show inner.glyphs = arguments ++ more from rfl)
  have hmoved := hbehind.argsAt? 0
  rw [hread, Option.map_some, Nat.add_zero] at hmoved
  have hsame := @Expr.argsAt?_congr ⟨arguments, 0⟩ ⟨arguments, inner.offset⟩ rfl 0
  rw [hargs'] at hsame
  obtain ⟨args, hown, hlook⟩ := Option.map_eq_some_iff.mp hsame
  refine ⟨args, _, hown, hmoved, (Prod.mk.inj hlook).1.symm, ?_⟩
  rw [Args.moved, hbehind.tail, hstop, ← Nat.add_zero (glyphWidth arguments), hrest.tail]
  exact Expr.glyphs_tail_zero _

/-- The arguments of a decorator are passed over, and they may declare the status code. -/
theorem memberOf?_called (code : Option UInt16) {front arguments : List Glyph}
    (hgs : gs = front ++ (arguments ++ more))
    (hname : decoratorName? (maskedText gs) = some (name, maskedText (arguments ++ more)))
    (hargs : Expr.IsArgs arguments) : ∃ args, (⟨arguments, 0⟩ : Expr).argsAt? 0 = some args ∧
      memberOf? code gs = memberOf? (statusBehind name args code) (trimGlyphs more) := by
  obtain ⟨args, args', hown, hread, hlook, htail⟩ :=
    exists_argsAt? hargs (show (⟨gs, 0⟩ : Expr).glyphs = _ from hgs)
  have hmasked : (⟨gs, 0⟩ : Expr).masked = maskedText front ++ maskedText (arguments ++ more) := by
    rw [← Draft.maskedText_append, ← hgs]
    rfl
  have hfirst : decoratorName? (⟨gs, 0⟩ : Expr).masked =
      some (name, maskedText (arguments ++ more)) := hname
  have hopen : ((maskedText (arguments ++ more)).head? == some '(') = true :=
    beq_iff_eq.mpr (hargs.head?_append more)
  have hne : gs ≠ [] := by
    rintro rfl
    contradiction
  refine ⟨args, hown, ?_⟩
  have hlt := @Expr.length_tail_lt ⟨gs, 0⟩ _ (Expr.stop_pos_of_argsAt? hread) hne
  rw [memberOf?, member?_succ, hfirst]
  dsimp only
  rw [if_pos hopen, Expr.offsetOf_append hmasked, width_maskedText_eq, hread, Option.bind_some,
    statusBehind_congr hlook]
  exact member?_eq htail (htail ▸ hlt)

/-! ### In front of decorators -/

/-- A rest of a class body: neither white space nor an argument list begins it, and
no white space ends it. -/
structure IsRest (more : List Glyph) : Prop where
  anew : StartsAnew (maskedText more)
  last : more.getLast?.any Glyph.isBlank = false

/-- A rest that begins with the sign of a decorator. -/
structure IsDecorated (more : List Glyph) : Prop where
  sign : (maskedText more).head? = some '@'
  last : more.getLast?.any Glyph.isBlank = false

theorem IsDecorated.isRest (h : IsDecorated more) : IsRest more := ⟨.of_mark h.sign, h.last⟩

theorem IsRest.ne_nil (h : IsRest more) : more ≠ [] := by
  rintro rfl
  obtain ⟨c, hc, -⟩ := h.anew
  contradiction

theorem IsRest.trimGlyphs (h : IsRest more) (gs : List Glyph) :
    trimGlyphs (gs ++ more) = gs.dropWhile Glyph.isBlank ++ more :=
  trimGlyphs_before gs (head?_isBlank_of_maskedText h.anew.head?_isBlank) h.last h.ne_nil

theorem memberName?_before (hgs : (maskedText gs).getLast?.any isBlank = true)
    (hmore : IsDecorated more) : memberName? (gs ++ more) = memberName? gs := by
  have hread := methodName?_before (Nat.le_refl _)
    (show (maskedText gs).length ≤ (maskedText gs ++ maskedText more).length by simp) hgs hmore.sign
  rw [memberName?, memberName?, Draft.maskedText_append, hread]
  cases hname : methodName? (maskedText gs).length (maskedText gs) with
  | none => rfl
  | some r =>
    obtain ⟨start, rest⟩ := r
    obtain ⟨front, mid, hstart, hrest, hfront⟩ := exists_of_methodName? hname
    have hown : (⟨gs, 0⟩ : Expr).masked = front ++ start := hstart
    have hown' : (⟨gs, 0⟩ : Expr).masked = (front ++ mid) ++ rest := by
      rw [hown, hrest, List.append_assoc]
    have hmasked : (⟨gs ++ more, 0⟩ : Expr).masked = (⟨gs, 0⟩ : Expr).masked ++ maskedText more :=
      Draft.maskedText_append gs more
    have hcut : Glyph.IsCut gs (width front) := by
      rcases hfront with rfl | hfront
      · exact Glyph.isCut_zero gs
      · rcases List.eq_nil_or_concat front with rfl | ⟨us, c, rfl⟩
        · contradiction
        · have hc : isBlank c = true := by simpa using hfront
          have hsplit : maskedText gs = us ++ c :: start := by simpa using hstart
          have hveil : c ≠ '_' := by
            rintro rfl
            contradiction
          rw [List.concat_eq_append, width_append, width_cons, width_nil, Nat.add_zero]
          exact (Glyph.isCut_of_maskedText hsplit hveil).2
    have hlong : (⟨gs ++ more, 0⟩ : Expr).masked = front ++ (start ++ maskedText more) := by
      rw [hmasked, hown, List.append_assoc]
    have hlong' : (⟨gs ++ more, 0⟩ : Expr).masked =
        (front ++ mid) ++ (rest ++ maskedText more) := by
      rw [hmasked, hown', List.append_assoc]
    have hbound : width (front ++ mid) ≤ glyphWidth gs := by
      rw [← width_maskedText_eq, show maskedText gs = _ from hown', width_append _ rest]
      exact Nat.le_add_right _ _
    refine congrArg some ?_
    dsimp only [follow]
    rw [Expr.between, Expr.between, Expr.offsetOf_append hown, Expr.offsetOf_append hown',
      Expr.offsetOf_append hlong, Expr.offsetOf_append hlong']
    exact Expr.chars_before rfl hcut hbound

/-- A decorator ends between two glyphs. -/
theorem exists_split_of_decoratorName? (h : decoratorName? (maskedText gs) = some (name, rest)) :
    ∃ front behind, gs = front ++ behind ∧ front ≠ [] ∧ maskedText behind = rest := by
  obtain ⟨gap, hgap, hmasked, -, -, hstop⟩ := exists_of_decoratorName? h
  have hnil {front : List Glyph} (hfront : maskedText front ≠ []) : front ≠ [] := by
    rintro rfl
    exact hfront rfl
  rcases List.eq_nil_or_concat gap with rfl | ⟨us, c, rfl⟩
  · cases rest with
    | nil =>
      exact ⟨gs, [], (List.append_nil gs).symm, hnil (by rw [hmasked]; exact List.cons_ne_nil _ _),
        rfl⟩
    | cons d ds =>
      have hveil : d ≠ '_' := by
        rintro rfl
        exact absurd (show isDecoratorPart '_' = false from hstop) (by decide)
      obtain ⟨xs, ys, rfl, hxs, hys⟩ :=
        exists_glyph_of_maskedText (show maskedText gs = ('@' :: name) ++ d :: ds from hmasked) hveil
      refine ⟨xs, ⟨d, false⟩ :: ys, rfl, hnil (by rw [hxs]; exact List.cons_ne_nil _ _), ?_⟩
      rw [← hys]
      rfl
  · have hc : isBlank c = true := hgap c (by simp)
    have hveil : c ≠ '_' := by
      rintro rfl
      contradiction
    obtain ⟨xs, ys, rfl, -, hys⟩ :=
      exists_glyph_of_maskedText (show maskedText gs = ('@' :: (name ++ us)) ++ c ::
        rest by simpa using hmasked) hveil
    exact ⟨xs ++ [⟨c, false⟩], ys, by simp, by simp, hys⟩

/-- Behind a decorator with arguments, a front of decorators is one again. -/
theorem exists_of_called (hgs : IsFront (maskedText gs))
    (hname : decoratorName? (maskedText gs) = some (name, rest)) (hparen : rest.head? = some '(') :
    ∃ front arguments tail, gs = front ++ (arguments ++ tail) ∧ front ≠ [] ∧
      Expr.IsArgs arguments ∧ rest = maskedText (arguments ++ tail) ∧
        IsFront (maskedText (tail.dropWhile Glyph.isBlank)) := by
  obtain ⟨front, behind, rfl, hfront, rfl⟩ := exists_split_of_decoratorName? hname
  have hsuffix : maskedText behind <:+ maskedText (front ++ behind) := by
    rw [Draft.maskedText_append]
    exact List.suffix_append _ _
  obtain ⟨close, hclose⟩ := Option.isSome_iff_exists.mp (hgs.closed _ hsuffix hparen)
  obtain ⟨arguments, tail, rfl, hargs, hwidth⟩ := Expr.exists_isArgs hparen hclose
  have hdrop : dropBytes (close + 1) (maskedText (arguments ++ tail)) = maskedText tail := by
    have hbehind := dropBytes_behind (maskedText arguments) (maskedText tail) 0
    rw [width_maskedText_eq, hwidth, Nat.add_zero, ← Draft.maskedText_append] at hbehind
    rw [hbehind]
    cases maskedText tail <;> rfl
  have hended := hgs.ended _ (List.suffix_refl _)
  rw [afterDecorator?, hname, Option.bind_some] at hended
  dsimp only at hended
  rw [if_pos (beq_iff_eq.mpr hparen), hclose, Option.map_some, hdrop, ← maskedText_dropWhile]
    at hended
  have hsplit : maskedText (front ++ (arguments ++ tail)) =
      maskedText (front ++ (arguments ++ tail.takeWhile Glyph.isBlank)) ++
        maskedText (tail.dropWhile Glyph.isBlank) := by
    rw [← Draft.maskedText_append, List.append_assoc, List.append_assoc,
      List.takeWhile_append_dropWhile]
  exact ⟨front, arguments, tail, rfl, hfront, hargs, rfl,
    (hsplit ▸ hgs).suffix fun hnil => hended (congrArg some hnil)⟩

/-- Behind a decorator without arguments, a front of decorators is one again. -/
theorem exists_of_bare (hgs : IsFront (maskedText gs))
    (hname : decoratorName? (maskedText gs) = some (name, rest)) (hbare : rest.head? ≠ some '(') :
    ∃ front behind, gs = front ++ behind ∧ front ≠ [] ∧ rest = maskedText behind ∧
      behind.head?.any Glyph.isBlank = false ∧ IsFront (maskedText behind) := by
  obtain ⟨front, behind, rfl, hfront, rfl⟩ := exists_split_of_decoratorName? hname
  obtain ⟨-, -, -, hhead, -⟩ := exists_of_decoratorName? hname
  have hended := hgs.ended _ (List.suffix_refl _)
  rw [afterDecorator?, hname, Option.bind_some] at hended
  dsimp only at hended
  rw [if_neg (by simpa using hbare)] at hended
  exact ⟨front, behind, rfl, hfront, rfl, head?_isBlank_of_maskedText hhead,
    (Draft.maskedText_append front behind ▸ hgs).suffix fun hnil => hended (congrArg some hnil)⟩

theorem decoratorName?_front (hgs : IsFront (maskedText gs)) (hmore : IsDecorated more) :
    decoratorName? (maskedText (gs ++ more)) =
      (decoratorName? (maskedText gs)).map fun (name, rest) => (name, rest ++ maskedText more) := by
  rw [Draft.maskedText_append]
  exact decoratorName?_before hgs.blank (StartsAnew.of_mark hmore.sign).head?_isBlank

/-- Behind the decorator at its beginning, the search goes on in a shorter front,
whatever decorators follow. -/
theorem exists_step (code : Option UInt16) (hgs : IsFront (maskedText gs))
    (hname : decoratorName? (maskedText gs) = some (name, rest)) :
    ∃ code' gs', gs'.length < gs.length ∧
      IsFront (maskedText gs') ∧
      ∀ more, IsDecorated more → memberOf? code (gs ++ more) = memberOf? code' (gs' ++ more) := by
  have hread {more : List Glyph} (hmore : IsDecorated more) :
      decoratorName? (maskedText (gs ++ more)) = some (name, rest ++ maskedText more) := by
    rw [decoratorName?_front hgs hmore, hname]
    rfl
  by_cases hparen : rest.head? = some '('
  · obtain ⟨front, arguments, tail, rfl, hfront, hargs, rfl, htail⟩ :=
      exists_of_called hgs hname hparen
    obtain ⟨args, -, hown, -⟩ :=
      exists_argsAt? hargs (show (⟨arguments ++ [], 0⟩ : Expr).glyphs = [] ++ _ from rfl)
    refine ⟨statusBehind name args code, tail.dropWhile Glyph.isBlank, ?_, htail,
      fun more hmore => ?_⟩
    · have hpos := List.length_pos_iff.mpr hfront
      have hle := (@List.dropWhile_sublist _ tail Glyph.isBlank).length_le
      rw [List.length_append, List.length_append]
      omega
    · have hsplit : (front ++ (arguments ++ tail)) ++ more =
          front ++ (arguments ++ (tail ++ more)) := by
        rw [List.append_assoc, List.append_assoc]
      have hrest := hread hmore
      rw [← Draft.maskedText_append, List.append_assoc arguments] at hrest
      obtain ⟨args', hown', hstep⟩ := memberOf?_called code hsplit hrest hargs
      obtain rfl := Option.some.inj (hown.symm.trans hown')
      rw [hstep, hmore.isRest.trimGlyphs]
  · obtain ⟨front, behind, rfl, hfront, rfl, hplain, hbehind⟩ := exists_of_bare hgs hname hparen
    refine ⟨code, behind, ?_, hbehind, fun more hmore => ?_⟩
    · rw [List.length_append]
      exact Nat.lt_add_of_pos_left (List.length_pos_iff.mpr hfront)
    · have hrest := hread hmore
      rw [← Draft.maskedText_append] at hrest
      have hopen : (maskedText (behind ++ more)).head? ≠ some '(' := by
        obtain ⟨d, ds, hds⟩ := List.exists_cons_of_ne_nil (ne_nil_of_getLast? hbehind.blank)
        rw [hds] at hparen
        rw [Draft.maskedText_append, hds]
        exact hparen
      rw [memberOf?_bare (List.append_assoc _ _ _) hrest hopen, hmore.isRest.trimGlyphs,
        dropWhile_of_head? hplain]

/-- In front of decorators, the method below a decorator is the same whatever these are. -/
theorem memberOf?_before (hgs : IsFront (maskedText gs)) {more' : List Glyph}
    (hmore : IsDecorated more) (hmore' : IsDecorated more') :
    memberOf? code (gs ++ more) = memberOf? code (gs ++ more') := by
  -- The front gets shorter with every decorator in it, and it ends before the last of them does.
  induction hlength : gs.length using Nat.strong_induction_on generalizing gs code with
  | _ n ih =>
    subst hlength
    cases hname : decoratorName? (maskedText gs) with
    | none =>
      have hnone {more : List Glyph} (hmore : IsDecorated more) :
          decoratorName? (maskedText (gs ++ more)) = none := by
        rw [decoratorName?_front hgs hmore, hname]
        rfl
      rw [memberOf?_of_none (hnone hmore), memberOf?_of_none (hnone hmore'),
        memberName?_before hgs.blank hmore, memberName?_before hgs.blank hmore']
    | some r =>
      obtain ⟨code', gs', hlt, hgs', hstep⟩ := exists_step code hgs hname
      rw [hstep _ hmore, hstep _ hmore', ih _ hlt hgs' rfl]

/-! ### A stack of decorators -/

/-- A decorator of a member: its name, white space, an argument list or none, and the
white space behind it. -/
structure MemberDecorator where
  name : List Char
  gap : List Char
  arguments : List Glyph
  trail : List Char

namespace MemberDecorator

variable (d : MemberDecorator)

def glyphs : List Glyph :=
  plainGlyphs ('@' :: (d.name ++ d.gap)) ++ (d.arguments ++ plainGlyphs d.trail)

def args? : Option Args := (⟨d.arguments, 0⟩ : Expr).argsAt? 0

def status (code : Option UInt16) : Option UInt16 :=
  match d.args? with
  | some args => statusBehind d.name args code
  | none => code

structure IsWritten : Prop where
  name : d.name.head?.any isNameStart = true
  parts : ∀ c ∈ d.name, isDecoratorPart c = true
  gap : ∀ c ∈ d.gap, isBlank c = true
  arguments : (d.gap = [] ∧ d.arguments = []) ∨ Expr.IsArgs d.arguments
  trail : IsGap d.trail

variable {d}

theorem masked :
    maskedText d.glyphs = '@' :: (d.name ++ (d.gap ++ (maskedText d.arguments ++ d.trail))) := by
  rw [glyphs, Draft.maskedText_append, Draft.maskedText_append, maskedText_plainGlyphs,
    maskedText_plainGlyphs, List.cons_append, List.append_assoc]

theorem IsWritten.blank (hd : d.IsWritten) : (maskedText d.glyphs).getLast?.any isBlank = true := by
  have hsplit : maskedText d.glyphs = '@' :: (d.name ++ (d.gap ++ maskedText d.arguments)) ++
      d.trail := by
    rw [masked, List.cons_append, List.append_assoc, List.append_assoc]
  rw [hsplit]
  exact hd.trail.getLast?_isBlank _

theorem IsWritten.dropWhile_trail (hd : d.IsWritten) :
    (plainGlyphs d.trail).dropWhile Glyph.isBlank = [] := by
  refine dropWhile_of_forall fun g hg => ?_
  obtain ⟨c, hc, rfl⟩ := List.mem_map.mp hg
  exact hd.trail.2 c hc

/-- One decorator of a stack is passed over. -/
theorem memberOf?_written (hd : d.IsWritten) (hmore : IsRest more) :
    memberOf? code (d.glyphs ++ more) = memberOf? (d.status code) more := by
  rcases hd.arguments with ⟨hgap, hnone⟩ | hargs
  · have hbare : d.glyphs ++ more = plainGlyphs ('@' :: (d.name ++ d.trail)) ++ more := by
      rw [glyphs, hgap, hnone, List.append_nil, List.nil_append, ← plainGlyphs_append,
        List.cons_append]
    have hname : decoratorName? (maskedText (d.glyphs ++ more)) =
        some (d.name, maskedText more) := by
      rw [hbare, Draft.maskedText_append, maskedText_plainGlyphs, List.cons_append,
        List.append_assoc]
      exact decoratorName?_written hd.name hd.parts hd.trail.2 hmore.anew.head?_isBlank
        (hd.trail.head?_any (fun _ => isDecoratorPart_of_isBlank) _)
    have hopen : (maskedText more).head? ≠ some '(' := by
      obtain ⟨c, hc, -, hparen⟩ := hmore.anew
      rw [hc]
      exact fun heq => hparen (Option.some.inj heq)
    have hstatus : d.status code = code := by
      rw [status, args?, hnone]
      rfl
    have htrim := hmore.trimGlyphs []
    rw [memberOf?_bare hbare hname hopen, hstatus]
    exact congrArg _ htrim
  · have hcalled : d.glyphs ++ more =
        plainGlyphs ('@' :: (d.name ++ d.gap)) ++ (d.arguments ++ (plainGlyphs d.trail ++ more)) := by
      rw [glyphs, List.append_assoc, List.append_assoc]
    have hname : decoratorName? (maskedText (d.glyphs ++ more)) =
        some (d.name, maskedText (d.arguments ++ (plainGlyphs d.trail ++ more))) := by
      have hrest : ∀ p : Char → Bool, p '(' = false →
          (maskedText (d.arguments ++ (plainGlyphs d.trail ++ more))).head?.any p = false := by
        intro p hp
        rw [hargs.head?_append, Option.any_some, hp]
      rw [hcalled, Draft.maskedText_append, maskedText_plainGlyphs, List.cons_append,
        List.append_assoc]
      refine decoratorName?_written hd.name hd.parts hd.gap (hrest _ rfl) ?_
      cases hgap : d.gap with
      | nil => exact hrest _ rfl
      | cons c gap => exact isDecoratorPart_of_isBlank (hd.gap c (hgap ▸ List.mem_cons_self))
    obtain ⟨args, hown, hstep⟩ := memberOf?_called code hcalled hname hargs
    have hstatus : d.status code = statusBehind d.name args code := by
      rw [status, args?, hown]
    rw [hstep, hmore.trimGlyphs, hd.dropWhile_trail, hstatus]
    rfl

theorem isDecorated (d : MemberDecorator) (hmore : IsRest more) :
    IsDecorated (d.glyphs ++ more) where
  sign := by
    rw [Draft.maskedText_append, masked]
    rfl
  last := (getLast?_any_append _ hmore.ne_nil).trans hmore.last

/-- The glyphs of a stack. -/
def stack (ds : List MemberDecorator) : List Glyph := ds.flatMap glyphs

def statusOf (code : Option UInt16) (ds : List MemberDecorator) : Option UInt16 :=
  ds.foldl (fun code d => d.status code) code

theorem stack_cons (d : MemberDecorator) (ds : List MemberDecorator) (more : List Glyph) :
    stack (d :: ds) ++ more = d.glyphs ++ (stack ds ++ more) := List.append_assoc _ _ _

theorem isRest_stack (ds : List MemberDecorator) (hmore : IsRest more) :
    IsRest (stack ds ++ more) := by
  induction ds with
  | nil => exact hmore
  | cons d ds ih =>
    rw [stack_cons]
    exact (d.isDecorated ih).isRest

/-- A stack is passed over, and the last status code in it counts. -/
theorem memberOf?_stack {ds : List MemberDecorator} (hds : ∀ d ∈ ds, d.IsWritten)
    (hmore : IsRest more) :
    memberOf? code (stack ds ++ more) = memberOf? (statusOf code ds) more := by
  induction ds generalizing code with
  | nil => rfl
  | cons d ds ih =>
    obtain ⟨hd, hds⟩ := List.forall_mem_cons.mp hds
    rw [stack_cons, memberOf?_written hd (isRest_stack ds hmore), ih hds]
    rfl

end MemberDecorator

end EndpointCensus.Controller
