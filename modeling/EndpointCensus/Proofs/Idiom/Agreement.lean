import EndpointCensus.Idiom.Match
import EndpointCensus.Proofs.Expr.Behind
import EndpointCensus.Proofs.Idiom.Registration

/-! Statements that are read both as a decorator applied by hand and as the call of a router's
member. Both readings find the same receiver, the same member and the same arguments in the masked
text, since the names end where the call opens. They differ in the router of an application, which
only the call registers on the application itself. -/

namespace EndpointCensus

open Text

/-- The emission without what a fragment says of its route beside the path and the handler. -/
def Emission.bare : Emission → Emission
  | .fragment receiver method path symbol action line _ =>
    .fragment receiver method path symbol action line {}
  | e => e

/-! ### Code behind masked text -/

theorem eq_nil_of_maskedText {gs : List Glyph} (h : maskedText gs = []) : gs = [] := by
  cases gs with
  | nil => rfl
  | cons g gs =>
    have hpos := g.char.utf8Size_pos
    have hwidth := width_maskedText_eq (g :: gs)
    rw [h, width_nil, glyphWidth] at hwidth
    omega

/-- What shows without veils at the beginning is code. -/
theorem exists_plainGlyphs_of_maskedText {gs : List Glyph} {xs ys : List Char}
    (h : maskedText gs = xs ++ ys) (hxs : '_' ∉ xs) :
    ∃ hs, gs = plainGlyphs xs ++ hs ∧ maskedText hs = ys := by
  induction xs generalizing gs with
  | nil => exact ⟨gs, rfl, h⟩
  | cons c xs ih =>
    obtain ⟨hc, hxs⟩ := not_or.mp (mt List.mem_cons.mpr hxs)
    obtain ⟨front, gs, rfl, hfront, hgs⟩ := @exists_glyph_of_maskedText _ [] _ _ h (Ne.symm hc)
    obtain rfl := eq_nil_of_maskedText hfront
    obtain ⟨hs, rfl, hhs⟩ := ih hgs hxs
    exact ⟨hs, rfl, hhs⟩

namespace Expr

/-- The characters between two places of the code. -/
theorem chars_of_masked {e : Expr} {us ms vs : List Char} {c d : Char}
    (h : e.masked = us ++ c :: (ms ++ d :: vs)) (hc : c ≠ '_') (hd : d ≠ '_') :
    ∃ gs, maskedText gs = ms ∧
      e.chars (Text.width us + c.utf8Size) (Text.width us + c.utf8Size + Text.width ms) =
        plainText gs := by
  obtain ⟨front, rest, hglyphs, rfl, hrest⟩ := exists_glyph_of_maskedText h hc
  obtain ⟨gs, back, rfl, rfl, -⟩ := exists_glyph_of_maskedText hrest hd
  refine ⟨gs, rfl, ?_⟩
  have hfront : glyphWidth (front ++ [⟨c, false⟩]) = Text.width (maskedText front) +
      c.utf8Size := by
    rw [glyphWidth_append, width_maskedText_eq]
    rfl
  have hsplit : e.glyphs = (front ++ [⟨c, false⟩]) ++ (gs ++ ⟨d, false⟩ :: back) := by
    rw [hglyphs]; simp
  rw [chars, hsplit, ← hfront, width_maskedText_eq, Nat.add_sub_cancel_left, dropGlyphs_append,
    takeGlyphs_append]

end Expr

namespace MemberCall

variable {c : Context} {e : Expr} {cs receiver member rest : List Char}

/-! ### The member at the beginning of a text -/

/-- The text begins with a member of a receiver, and a call opens behind it. -/
structure OpensMember (cs receiver member rest : List Char) : Prop where
  text : cs = receiver ++ '.' :: (member ++ rest)
  receiver_part : ∀ c ∈ receiver, isNamePart c = true ∨ c = '.'
  member_part : ∀ c ∈ member, isNamePart c = true ∨ c = '.'
  undotted : '.' ∉ member
  opens : opensCall rest = true

namespace OpensMember

theorem name_part (h : OpensMember cs receiver member rest) :
    ∀ c ∈ receiver ++ '.' :: member, isNamePart c = true ∨ c = '.' := by
  intro c hc
  rcases List.mem_append.mp hc with hc | hc
  · exact h.receiver_part c hc
  · rcases List.mem_cons.mp hc with rfl | hc
    · exact .inr rfl
    · exact h.member_part c hc

theorem text_name (h : OpensMember cs receiver member rest) :
    cs = (receiver ++ '.' :: member) ++ rest := by
  rw [h.text]
  simp

theorem exists_opensWith (h : OpensMember cs receiver member rest) :
    ∃ mark, mark ≠ '\x7b' ∧ OpensWith mark cs := by
  rw [h.text_name]
  exact opensWith_of_opensCall h.name_part h.opens

end OpensMember

/-- Names end where a call opens. -/
theorem name_unique {xs ys us vs : List Char} (hxs : ∀ c ∈ xs, isNamePart c = true ∨ c = '.')
    (hys : ∀ c ∈ ys, isNamePart c = true ∨ c = '.') (hus : opensCall us = true)
    (hvs : opensCall vs = true) (h : xs ++ us = ys ++ vs) : xs = ys ∧ us = vs := by
  have hrun {name rest : List Char} (hname : ∀ c ∈ name, isNamePart c = true ∨ c = '.')
      (hrest : opensCall rest = true) :
      (name ++ rest).takeWhile (fun c => isNamePart c || c == '.') = name := by
    obtain ⟨d, more, rfl, hpart, hdot⟩ := exists_cons_of_opensCall hrest
    exact takeWhile_run (by simpa using hname) (by simpa [hpart] using hdot)
  have hname : xs = ys := by rw [← hrun hxs hus, h, hrun hys hvs]
  subst hname
  exact ⟨rfl, List.append_cancel_left h⟩

/-- A text begins with one member at most. -/
theorem OpensMember.unique {receiver' member' rest' : List Char}
    (h : OpensMember cs receiver member rest) (h' : OpensMember cs receiver' member' rest') :
    receiver = receiver' ∧ member = member' ∧ rest = rest' := by
  obtain ⟨hname, rfl⟩ :=
    name_unique h.name_part h'.name_part h.opens h'.opens (h.text_name.symm.trans h'.text_name)
  have hsplit := splitLast?_append receiver h.undotted
  rw [hname, splitLast?_append receiver' h'.undotted] at hsplit
  obtain ⟨rfl, rfl⟩ := Prod.mk.inj (Option.some.inj hsplit)
  exact ⟨rfl, rfl, rfl⟩

/-- A receiver and its member begin with a run of word characters and dots. -/
theorem eq_of_memberRun? (h : Decorator.memberRun? cs = some (receiver, member, rest)) :
    cs = receiver ++ '.' :: (member ++ rest) ∧
      (∀ c ∈ receiver ++ '.' :: member, isNamePart c = true ∨ c = '.') ∧ '.' ∉ member := by
  cases cs with
  | nil => contradiction
  | cons d cs =>
    rw [Decorator.memberRun?] at h
    split at h
    · next hd =>
      obtain ⟨⟨before, last⟩, hsplit, h⟩ := Option.bind_eq_some_iff.mp h
      dsimp only at h
      split at h
      · contradiction
      · obtain ⟨rfl, hmember⟩ := Prod.mk.inj (Option.some.inj h)
        obtain ⟨rfl, rfl⟩ := Prod.mk.inj hmember
        obtain ⟨hrun, hdot⟩ := eq_of_splitLast? hsplit
        refine ⟨?_, ?_, hdot⟩
        · rw [← List.cons_append, ← List.append_assoc, ← hrun, List.cons_append,
            List.takeWhile_append_dropWhile]
        · rw [← hrun]
          refine List.forall_mem_cons.mpr ⟨.inl ?_, fun x hx => ?_⟩
          · rw [isNamePart, isWord_of_isWordStart hd, Bool.true_or]
          · have hpart := List.all_eq_true.mp List.all_takeWhile x hx
            simp only [Bool.or_eq_true, beq_iff_eq] at hpart
            exact hpart.imp_left fun hword => by rw [isNamePart, hword, Bool.true_or]
    · contradiction

/-- The decorator that is applied by hand stands before a parenthesis. -/
theorem opensMember_of_memberCall? {members : List String} {args : Args}
    (h : Decorator.memberCall? members e = some (receiver, member, args)) :
    ∃ shown gap more, OpensMember e.masked shown member (gap ++ '(' :: more) ∧
      (∀ c ∈ gap, isBlank c = true) ∧ receiver = e.chars 0 (Text.width shown) ∧
      isOneOf members member = true ∧
      e.argsAt? (Text.width (shown ++ '.' :: member) + Text.width gap) = some args := by
  obtain ⟨⟨shown, member', rest⟩, hrun, h⟩ := Option.bind_eq_some_iff.mp h
  dsimp only at h
  split at h
  · next hpassed =>
    obtain ⟨hmember, hparen⟩ := Bool.and_eq_true_iff.mp hpassed
    obtain ⟨args', hargs, heq⟩ := Option.bind_eq_some_iff.mp h
    obtain ⟨rfl, rfl, rfl⟩ : e.chars 0 (Text.width shown) = receiver ∧ member' = member ∧
        args' = args := by
      simpa using heq
    obtain ⟨htext, hparts, hdot⟩ := eq_of_memberRun? hrun
    obtain ⟨more, hmore⟩ := List.head?_eq_some_iff.mp (beq_iff_eq.mp hparen)
    have hrest : rest.takeWhile isBlank ++ '(' :: more = rest := by
      rw [← hmore, trimStart, List.takeWhile_append_dropWhile]
    have hgap : ∀ c ∈ rest.takeWhile isBlank, isBlank c = true :=
      List.all_eq_true.mp List.all_takeWhile
    have hopens : opensCall rest = true := by
      rw [opensCall, hmore]
      rfl
    refine ⟨shown, rest.takeWhile isBlank, more, ?_, hgap, rfl, hmember, ?_⟩
    · rw [hrest]
      exact ⟨htext, fun c hc => hparts c (List.mem_append_left _ hc),
        fun c hc => hparts c (List.mem_append_right _ (List.mem_cons_of_mem _ hc)), hdot, hopens⟩
    · have hoffset : e.masked = ((shown ++ '.' :: member') ++ rest.takeWhile isBlank) ++
          trimStart rest := by
        rw [htext, hmore, List.append_assoc, hrest]
        simp
      rwa [Expr.offsetOf_append hoffset, Text.width_append] at hargs
  · contradiction

/-- A call begins with its callee. -/
theorem opensMember_of_callee? (h : callee? cs = some (receiver, member, rest)) :
    OpensMember cs receiver member rest := by
  obtain ⟨⟨name, behind⟩, hname, h⟩ := Option.bind_eq_some_iff.mp h
  obtain ⟨⟨before, last⟩, hsplit, h⟩ := Option.bind_eq_some_iff.mp h
  dsimp only at hsplit h
  split at h
  · next hopens =>
    obtain ⟨rfl, hmember⟩ := Prod.mk.inj (Option.some.inj h)
    obtain ⟨rfl, rfl⟩ := Prod.mk.inj hmember
    obtain ⟨rfl, hdot⟩ := eq_of_splitLast? hsplit
    obtain ⟨htext, hparts⟩ := eq_of_dottedName? hname
    exact ⟨by simpa using htext, fun c hc => hparts c (List.mem_append_left _ hc),
      fun c hc => hparts c (List.mem_append_right _ (List.mem_cons_of_mem _ hc)), hdot, hopens⟩
  · contradiction

/-- The member as it is written. -/
theorem OpensMember.chars_member (h : OpensMember e.masked receiver member rest) :
    ∃ gs, maskedText gs = member ∧
      e.chars (Text.width (receiver ++ '.' :: member) - Text.width member)
        (Text.width (receiver ++ '.' :: member)) =
        plainText gs := by
  obtain ⟨d, more, rfl, hpart, -⟩ := exists_cons_of_opensCall h.opens
  have hd : d ≠ '_' := by
    rintro rfl
    contradiction
  obtain ⟨gs, hshown, hchars⟩ := Expr.chars_of_masked h.text (by decide) hd
  have hwidth : Text.width (receiver ++ '.' :: member) =
      Text.width receiver + ('.' : Char).utf8Size + Text.width member := by
    rw [Text.width_append, Text.width_cons, Nat.add_assoc]
  exact ⟨gs, hshown, by rw [hwidth, Nat.add_sub_cancel, hchars]⟩

/-- A name that is called by itself has no member. -/
theorem aliasCall?_of_opensMember (h : OpensMember e.masked receiver member rest) :
    aliasCall? c e = none := by
  cases hname : identifier? e.masked with
  | none => simp [aliasCall?, hname]
  | some r =>
    obtain ⟨name, behind⟩ := r
    cases hopens : opensCall behind with
    | false => simp [aliasCall?, hname, hopens]
    | true =>
      obtain ⟨htext, hparts⟩ := eq_of_identifier? hname
      have hsame := (name_unique h.name_part (fun c hc => .inl (hparts c hc)) h.opens hopens
        (h.text_name.symm.trans htext)).1
      have hdot : isNamePart '.' = true := hparts '.' (by rw [← hsame]; simp)
      exact absurd hdot (by decide)

/-- A call opens at the first parenthesis behind the white space, if it opens at all. -/
theorem eq_of_callOpen? {name gap more : List Char} {start : Nat}
    (h : e.masked = name ++ (gap ++ '(' :: more)) (hgap : ∀ c ∈ gap, isBlank c = true)
    (hstart : e.callOpen? (Text.width name) = some start) :
    start = Text.width name + Text.width gap := by
  have htaken : ∀ c ∈ gap.takeWhile isAsciiBlank, isAsciiBlank c = true :=
    List.all_eq_true.mp List.all_takeWhile
  have hstops : ∃ x xs, gap.dropWhile isAsciiBlank ++ '(' :: more = x :: xs ∧
      isAsciiBlank x = false ∧ (x = '(' ∧ gap.dropWhile isAsciiBlank = [] ∨ isBlank x = true) := by
    cases hleft : gap.dropWhile isAsciiBlank with
    | nil => exact ⟨'(', more, rfl, rfl, .inl ⟨rfl, rfl⟩⟩
    | cons x left =>
      have hfirst := head?_dropWhile_any isAsciiBlank gap
      rw [hleft] at hfirst
      have hx : x ∈ gap :=
        (List.dropWhile_suffix isAsciiBlank).mem (by rw [hleft]; exact List.mem_cons_self)
      exact ⟨x, left ++ '(' :: more, rfl, hfirst, .inr (hgap x hx)⟩
  obtain ⟨x, xs, hrest, hx, hcase⟩ := hstops
  have hmasked : e.masked = name ++ (gap.takeWhile isAsciiBlank ++ x :: xs) := by
    rw [h, ← hrest, ← List.append_assoc (gap.takeWhile _), List.takeWhile_append_dropWhile]
  have hskip : skipAsciiBlanks e.masked (Text.width name) =
      Text.width name + Text.width (gap.takeWhile isAsciiBlank) := by
    rw [hmasked]
    exact skipAsciiBlanks_run name htaken hx
  have hchar : charAt? e.masked (Text.width name + Text.width (gap.takeWhile isAsciiBlank)) =
      some x := by
    rw [hmasked, charAt?_behind, charAt?_append]
  have hmark : (some x == some '<') = false := by
    rcases hcase with ⟨rfl, -⟩ | hblank
    · rfl
    · refine beq_eq_false_iff_ne.mpr fun heq => ?_
      obtain rfl := Option.some.inj heq
      contradiction
  unfold Expr.callOpen? at hstart
  dsimp only at hstart
  rw [hskip, hchar, hmark, if_neg Bool.false_ne_true] at hstart
  obtain ⟨hfirst, hparen⟩ := Option.filter_eq_some_iff.mp hstart
  obtain rfl := Option.some.inj hfirst
  rw [hchar] at hparen
  obtain rfl := Option.some.inj (beq_iff_eq.mp hparen)
  rcases hcase with ⟨-, hnil⟩ | hblank
  · have hall : gap.takeWhile isAsciiBlank = gap := by
      conv => rhs; rw [← @List.takeWhile_append_dropWhile _ isAsciiBlank gap, hnil, List.append_nil]
    rw [hall]
  · contradiction

/-! ### Members that register -/

/-- The members that register a route in Python. -/
def registering : List String :=
  ["add_api_route", "add_url_rule", "add_route"] ++ handlerMembers.map Prod.fst ++
    "all" :: httpVerbs

/-- The members that are read by name from statements that are no decorators. -/
def namedMembers : List String :=
  httpVerbs ++ ["route", "api_route"] ++ ["include_router", "register_blueprint", "mount"]

theorem mem_of_isOneOf {words : List String} (h : isOneOf words cs = true) :
    ∃ w ∈ words, w.toList = cs :=
  ⟨_, List.contains_iff_mem.mp h, String.toList_ofList⟩

theorem mem_registering {m : MemberCall} {fs : List Emission}
    (hpython : m.context.language = .python) (h : m.register? member = some fs) :
    ∃ w ∈ registering, w.toList = member := by
  have hword {word : String} (hmem : word ∈ registering) (hone : isOneOf [word] member = true) :
      ∃ w ∈ registering, w.toList = member := by
    obtain ⟨w, hw, hmember⟩ := mem_of_isOneOf hone
    exact ⟨w, List.mem_singleton.mp hw ▸ hmem, hmember⟩
  rw [register?, hpython] at h
  dsimp only at h
  split at h
  · next hone => exact hword (by decide) hone
  · split at h
    · next hone => exact hword (by decide) hone
    · split at h
      · next hone => exact hword (by decide) hone
      · split at h
        · next name method hfind =>
          have hname : ∀ r ∈ handlerMembers, r.1 ∈ registering := by decide
          have hsame := List.find?_some hfind
          exact ⟨name, hname _ (List.mem_of_find?_eq_some hfind), beq_iff_eq.mp hsame⟩
        · obtain ⟨method, hmethod, -⟩ := Option.bind_eq_some_iff.mp h
          obtain ⟨w, hw, hmember⟩ := List.mem_map.mp (verb_mem hmethod)
          have hverbs : ∀ w ∈ "all" :: httpVerbs, w ∈ registering := by decide
          exact ⟨w, hverbs w hw, hmember⟩

/-- A verb that shows is written, and what shows of another member is not written
as one that registers. -/
theorem eq_verb_of_maskedText {gs : List Glyph} {w : String} (hw : w ∈ namedMembers)
    (hshown : maskedText gs = w.toList) (hregisters : ∃ v ∈ registering, v.toList = plainText gs) :
    w ∈ httpVerbs ∧ plainText gs = w.toList := by
  obtain ⟨v, hv, htext⟩ := hregisters
  have hveil : ∀ w ∈ namedMembers, '_' ∉ w.toList.take 2 := by decide
  obtain ⟨hs, hgs, hrest⟩ :=
    @exists_plainGlyphs_of_maskedText gs (w.toList.take 2) (w.toList.drop 2)
      (by rw [List.take_append_drop, hshown]) (hveil w hw)
  have hfirst : v.toList.take 2 = w.toList.take 2 := by
    have hlength : ∀ w ∈ namedMembers, (w.toList.take 2).length = 2 := by decide
    have hwritten : plainText gs = plainText (plainGlyphs (w.toList.take 2)) ++ plainText hs := by
      rw [hgs, plainText, List.map_append]
      rfl
    rw [htext, hwritten, plainText_plainGlyphs, List.take_append_of_le_length (hlength w hw).ge,
      List.take_of_length_le (hlength w hw).le]
  have hcases : ∀ w ∈ namedMembers, ∀ v ∈ registering, v.toList.take 2 = w.toList.take 2 →
      w ∈ httpVerbs := by decide
  have hverb := hcases w hw v hv hfirst
  have hplain : ∀ w ∈ httpVerbs, '_' ∉ w.toList := by decide
  obtain ⟨hs, rfl, hrest⟩ := @exists_plainGlyphs_of_maskedText gs w.toList []
    (by rw [List.append_nil, hshown]) (hplain w hverb)
  obtain rfl := eq_nil_of_maskedText hrest
  exact ⟨hverb, by rw [List.append_nil, plainText_plainGlyphs]⟩

/-- A verb registers by a path and a handler. -/
theorem register?_verb {m : MemberCall} (hpython : m.context.language = .python) {w : String}
    (hw : w ∈ httpVerbs) :
    ∃ method, Method.ofVerb? w.toList = some method ∧
    m.register? w.toList = m.verbCall? method w.toList := by
  have hverbs : ∀ w ∈ httpVerbs, (Method.ofVerb? w.toList).isSome = true ∧
      verbMethod? w.toList = Method.ofVerb? w.toList ∧ isOneOf ["add_api_route"] w.toList = false ∧
      isOneOf ["add_url_rule"] w.toList = false ∧ isOneOf ["add_route"] w.toList = false ∧
      handlerMembers.find? (fun h => h.1.toList == w.toList) = none := by decide
  obtain ⟨hsome, hmethod, hendpoint, hrule, hroute, hhandler⟩ := hverbs w hw
  obtain ⟨method, hverb⟩ := Option.isSome_iff_exists.mp hsome
  refine ⟨method, hverb, ?_⟩
  rw [register?, hpython]
  dsimp only
  rw [hendpoint, hrule, hroute, hhandler, hmethod, hverb]
  rfl

/-! ### Statements that are read both ways -/

/-- A statement that names a member of a router and registers by it names a verb, for both readings
with the same receiver and the same arguments. -/
theorem exists_verb {members : List String} {args : Args} {fs : List Emission}
    (hpython : c.language = .python) (hmembers : ∀ w ∈ members, w ∈ namedMembers)
    (hnamed : Decorator.memberCall? members e = some (receiver, member, args))
    (hregistered : registered? c e = some fs) :
    ∃ w ∈ httpVerbs, member = w.toList ∧ ∃ method, Method.ofVerb? member = some method ∧
      verbCall? ⟨c, ownerOf c receiver, args, e.tail args.stop⟩ method member = some fs := by
  obtain ⟨shown, gap, more, hopens, hgap, rfl, hone, hargs⟩ := opensMember_of_memberCall? hnamed
  obtain ⟨w, hw, rfl⟩ := mem_of_isOneOf hone
  rw [registered?] at hregistered
  cases hcallee : callee? e.masked with
  | none =>
    rw [hcallee] at hregistered
    rw [aliasCall?_of_opensMember hopens] at hregistered
    contradiction
  | some r =>
    obtain ⟨receiver', member', rest⟩ := r
    obtain ⟨rfl, rfl, rfl⟩ := hopens.unique (opensMember_of_callee? hcallee)
    rw [hcallee] at hregistered
    dsimp only at hregistered
    split at hregistered
    · obtain ⟨m, hm, hregister⟩ := Option.bind_eq_some_iff.mp hregistered
      have hoffset : e.offsetOf (gap ++ '(' :: more) = Text.width (shown ++ '.' :: w.toList) :=
        Expr.offsetOf_append hopens.text_name
      have hof : m = ⟨c, ownerOf c (e.chars 0 (Text.width shown)), args, e.tail args.stop⟩ := by
        obtain ⟨args', hargs', heq⟩ := Option.bind_eq_some_iff.mp hm
        obtain ⟨start, hstart, hargs'⟩ := Option.bind_eq_some_iff.mp hargs'
        rw [hoffset] at hstart
        rw [eq_of_callOpen? hopens.text_name hgap hstart, hargs] at hargs'
        obtain rfl := Option.some.inj hargs'
        exact (Option.some.inj heq).symm
      subst hof
      rw [hoffset] at hregister
      obtain ⟨gs, hgs, hchars⟩ := hopens.chars_member
      rw [hchars] at hregister
      obtain ⟨hverb, hplain⟩ :=
        eq_verb_of_maskedText (hmembers w hw) hgs (mem_registering hpython hregister)
      obtain ⟨method, hmethod, hcall⟩ :=
        @register?_verb ⟨c, ownerOf c (e.chars 0 (Text.width shown)), args,
          e.tail args.stop⟩ hpython w hverb
      rw [hplain, hcall] at hregister
      exact ⟨w, hverb, rfl, method, hmethod, hregister⟩
    · contradiction

theorem isEmpty_of_argsAt? {args : Args} (h : e.argsAt? 0 = some args) : e.isEmpty = false := by
  obtain ⟨gs, offset⟩ := e
  cases gs with
  | nil => contradiction
  | cons g gs => rfl

theorem positionals_of_single {args : Args} {x : Expr} (hone : args.items.length = 1)
    (hx : args.positional? 0 = some x) : args.positionals = [x] := by
  obtain ⟨item, hitem⟩ := List.length_eq_one_iff.mp hone
  unfold Args.positional? Args.positionals at *
  rw [hitem] at hx ⊢
  cases hkeyword : item.keyword with
  | none => simpa [hkeyword] using hx
  | some name => simp [hkeyword] at hx

/-- Applied by hand to a handler, a verb registers that handler. -/
theorem verbCall?_of_applied? {es fs : List Emission} (hpython : c.language = .python)
    (happlied : Decorator.applied? c e = some es) (hregistered : registered? c e = some fs) :
    ∃ receiver method path symbol metadata,
      es =
        [.fragment (some receiver) method path symbol (some (lastSegment symbol)) c.line metadata] ∧
      fs = [.fragment (some (ownerOf c receiver)) method path symbol (some (lastSegment symbol))
        c.line {}] := by
  obtain ⟨⟨receiver, member, args⟩, hnamed, happlied⟩ := Option.bind_eq_some_iff.mp happlied
  obtain ⟨w, hw, rfl, method, hmethod, hcall⟩ := exists_verb hpython (by decide) hnamed hregistered
  obtain ⟨application, happlication, happlied⟩ := Option.bind_eq_some_iff.mp happlied
  obtain ⟨path, hpath, hcall⟩ := Option.bind_eq_some_iff.mp hcall
  obtain ⟨handlers, hhandlers, hcall⟩ := Option.bind_eq_some_iff.mp hcall
  dsimp only at happlication happlied hpath
  split at happlied
  · contradiction
  · next hone =>
    have hone : ((e.tail args.stop).tail application.stop).isEmpty = true ∧
        application.items.length = 1 := by
      simpa using hone
    obtain ⟨symbol, hsymbol, happlied⟩ := Option.bind_eq_some_iff.mp happlied
    obtain ⟨handler, hhandler, hsymbol⟩ := Option.bind_eq_some_iff.mp hsymbol
    have hgiven : handlers = application.positionals := by
      rw [handlers?, if_neg (by rw [isEmpty_of_argsAt? happlication]; decide), happlication]
        at hhandlers
      simpa [hone] using hhandlers.symm
    have hsingle : application.positionals = [handler] := positionals_of_single hone.2 hhandler
    have hnames : symbolOf ⟨c, ownerOf c receiver, args, e.tail args.stop⟩ handlers w.toList =
        symbol := by
      rw [symbolOf, hgiven, hsingle]
      exact congrArg (Option.getD · _) hsymbol
    rw [hmethod] at happlied
    rw [hnames] at hcall
    refine ⟨receiver, method, pathOf (some path), symbol, Decorator.routeMetadata args, ?_,
      (Option.some.inj hcall).symm⟩
    rw [hpath] at happlied
    exact (Option.some.inj happlied).symm

/-- A registration begins with a call. -/
theorem exists_opensWith_of_registered? {fs : List Emission} (h : registered? c e = some fs) :
    ∃ mark, OpensWith mark e.masked := by
  rw [registered?] at h
  cases hcallee : callee? e.masked with
  | some r =>
    obtain ⟨mark, -, hopens⟩ := (opensMember_of_callee? hcallee).exists_opensWith
    exact ⟨mark, hopens⟩
  | none =>
    rw [hcallee] at h
    obtain ⟨⟨name, rest⟩, hname, h⟩ := Option.bind_eq_some_iff.mp h
    dsimp only at h
    split at h
    · next hopens =>
      obtain ⟨htext, hparts⟩ := eq_of_identifier? hname
      obtain ⟨mark, -, hmark⟩ := opensWith_of_opensCall (fun d hd => .inl (hparts d hd)) hopens
      exact ⟨mark, htext ▸ hmark⟩
    · contradiction

theorem assignment?_of_isDecorator (h : e.isDecorator = true) : e.assignment? = none := by
  obtain ⟨rest, hrest⟩ := List.head?_eq_some_iff.mp (beq_iff_eq.mp h)
  have hparts : Assignment.parts? e.masked = none := by
    rw [hrest]
    rfl
  rw [Expr.assignment?, hparts]
  rfl

theorem not_isDecorator_of_opensWith {mark : Char} (h : OpensWith mark e.masked) :
    e.isDecorator = false := by
  refine beq_eq_false_iff_ne.mpr fun hhead => ?_
  obtain ⟨rest, hrest⟩ := List.head?_eq_some_iff.mp hhead
  rw [hrest] at h
  have hmark : (trimStart ('@' :: rest)).head? ≠ some '@' :=
    h.head?_trimStart (by decide) (by decide) (ne_openingMark h.1 (by decide))
  exact hmark rfl

/-- What is read as a decorator and as a registration applies a decorator by hand. -/
theorem applied?_of_match? {es fs : List Emission} (hpython : c.language = .python)
    (hdecorator : Decorator.match? c = some es) (hcall : match? c = some fs) :
    Decorator.applied? c c.expr = some es ∧ registered? c c.expr = some fs := by
  have hnamed {members : List String} {r : List Char × List Char × Args}
      (h : Decorator.memberCall? members c.expr = some r) : c.expr.assignment? = none := by
    obtain ⟨shown, gap, more, hopens, -⟩ := opensMember_of_memberCall? h
    obtain ⟨mark, -, hmark⟩ := hopens.exists_opensWith
    exact assignment?_of_opensWith hmark
  rw [match?, hpython] at hcall
  rw [Decorator.match?] at hdecorator
  dsimp only at hcall hdecorator
  rcases Option.or_eq_some_iff.mp hcall with hconstructed | ⟨-, hregistered⟩
  · -- What is assigned a router of the one kind is assigned none of the other.
    obtain ⟨a, ha, hrouter⟩ := Option.bind_eq_some_iff.mp hconstructed
    split at hdecorator
    · next hmark =>
      rw [assignment?_of_isDecorator hmark] at ha
      contradiction
    · rcases Option.or_eq_some_iff.mp hdecorator with hconstructed | ⟨-, hmember⟩
      · obtain ⟨a', ha', hother⟩ := Option.bind_eq_some_iff.mp hconstructed
        obtain rfl := Option.some.inj (ha.symm.trans ha')
        obtain ⟨hrouter, -⟩ := Option.ite_none_right_eq_some.mp hrouter
        obtain ⟨hother, -⟩ := Option.ite_none_right_eq_some.mp hother
        rw [hpython] at hrouter
        obtain ⟨w, hw, hcallee⟩ := mem_of_isOneOf hrouter
        have hdistinct : ∀ w ∈ ["web.Application", "Application"],
            isOneOf Decorator.constructors (lastSegment w.toList) = false := by decide
        rw [← hcallee, hdistinct w hw] at hother
        contradiction
      · rcases Option.or_eq_some_iff.mp hmember with hincluded | ⟨-, happlied⟩
        · obtain ⟨r, hmember, -⟩ := Option.bind_eq_some_iff.mp hincluded
          rw [hnamed hmember] at ha
          contradiction
        · obtain ⟨r, hmember, -⟩ := Option.bind_eq_some_iff.mp happlied
          rw [hnamed hmember] at ha
          contradiction
  · obtain ⟨mark, hmark⟩ := exists_opensWith_of_registered? hregistered
    have hnone : Decorator.constructed? c c.expr = none := by
      rw [Decorator.constructed?, assignment?_of_opensWith hmark]
      rfl
    rw [not_isDecorator_of_opensWith hmark, if_neg Bool.false_ne_true, hnone, Option.none_or]
      at hdecorator
    refine ⟨?_, hregistered⟩
    rcases Option.or_eq_some_iff.mp hdecorator with hincluded | ⟨-, happlied⟩
    · obtain ⟨⟨parent, verb, args⟩, hmember, -⟩ := Option.bind_eq_some_iff.mp hincluded
      obtain ⟨-, -, -, -, -, -, hone, -⟩ := opensMember_of_memberCall? hmember
      obtain ⟨w, hw, rfl, -⟩ := exists_verb hpython (by decide) hmember hregistered
      have hverbs : ∀ w ∈ httpVerbs, isOneOf ["include_router", "register_blueprint",
          "mount"] w.toList = false := by
        decide
      rw [hverbs w hw] at hone
      contradiction
    · exact happlied

/-- A receiver registers on itself unless it is the router of a declared application. -/
theorem ownerOf_eq_self_iff :
    ownerOf c receiver = receiver ↔ ∀ base ∈ c.routers, receiver ≠ base ++ ".router".toList := by
  rw [ownerOf]
  cases hbefore : before? ".router" receiver with
  | none =>
    refine ⟨fun _ base _ hreceiver => ?_, fun _ => rfl⟩
    rw [before?_eq_some_iff.mpr hreceiver] at hbefore
    contradiction
  | some base =>
    have hreceiver := before?_eq_some_iff.mp hbefore
    dsimp only
    split
    · next hrouter =>
      refine ⟨fun hself => ?_, fun h => absurd hreceiver (h base (List.contains_iff_mem.mp hrouter))⟩
      have hlength := congrArg List.length (hself.trans hreceiver)
      simp at hlength
    · next hrouter =>
      refine ⟨fun _ base' hbase' hreceiver' => hrouter ?_, fun _ => rfl⟩
      rwa [List.append_cancel_right (hreceiver.symm.trans hreceiver'), List.contains_iff_mem]

end MemberCall

/-- A statement of Python that is read as a decorator and as a registration has one route, with the
same method, path, handler and line for both; the receiver is the same as well unless it is the
router of a declared application, which only the registration takes for the application. -/
theorem Idiom.readings_agree {c : Context} {es fs : List Emission} (hpython : c.language = .python)
    (hdecorator : Idiom.match? .decoratorCall c = some es)
    (hcall : Idiom.match? .callRegistration c = some fs) :
    ∃ receiver method path symbol metadata,
      es =
        [.fragment (some receiver) method path symbol (some (lastSegment symbol)) c.line metadata] ∧
      fs = [.fragment (some (MemberCall.ownerOf c receiver)) method path symbol
        (some (lastSegment symbol)) c.line {}] ∧
      (es.map Emission.bare = fs.map Emission.bare ↔
        ∀ base ∈ c.routers, receiver ≠ base ++ ".router".toList) := by
  obtain ⟨hdecorator, -⟩ := Option.filter_eq_some_iff.mp hdecorator
  obtain ⟨hcall, -⟩ := Option.filter_eq_some_iff.mp hcall
  rw [hpython] at hdecorator
  obtain ⟨happlied, hregistered⟩ := MemberCall.applied?_of_match? hpython hdecorator hcall
  obtain ⟨receiver, method, path, symbol, metadata, rfl, rfl⟩ :=
    MemberCall.verbCall?_of_applied? hpython happlied hregistered
  refine ⟨receiver, method, path, symbol, metadata, rfl, rfl, ?_⟩
  rw [← MemberCall.ownerOf_eq_self_iff]
  simp [Emission.bare, eq_comm]

/-- A verb of a router that is applied by hand. -/
theorem Idiom.readings_agree_hook :
    let context := fun s : Statement =>
      (⟨.python, s, [], none, ["app".toList], [], .empty "a.py".toList .python⟩ : Context)
    ∃ s ∈ (readStatements .python
        "api.router.post ('/x,(', tags=['a'])(hooks.receive)".toList).statements, ∃ es fs,
      (context s).language = .python ∧ Idiom.match? .decoratorCall (context s) = some es ∧
      Idiom.match? .callRegistration (context s) = some fs ∧ es ≠ fs ∧
      es.map Emission.bare = fs.map Emission.bare := by
  intro context
  obtain ⟨s, hs, hdecorator, hcall⟩ : ∃ s ∈ (readStatements .python
        "api.router.post ('/x,(', tags=['a'])(hooks.receive)".toList).statements,
      Idiom.match? .decoratorCall (context s) =
        some [.fragment (some "api.router".toList) .post "/x,(".toList "hooks.receive".toList
          (some "receive".toList) 1 { tags := ["a"] }] ∧
      Idiom.match? .callRegistration (context s) =
        some [.fragment (some "api.router".toList) .post "/x,(".toList "hooks.receive".toList
          (some "receive".toList) 1 {}] := by
    decide +kernel
  obtain ⟨receiver, method, path, symbol, metadata, hes, hfs, hsame⟩ :=
    Idiom.readings_agree (c := context s) rfl hdecorator hcall
  refine ⟨s, hs, _, _, rfl, hdecorator, hcall, by decide, hsame.mpr ?_⟩
  obtain ⟨hreceiver, -⟩ := Emission.fragment.inj (List.cons.inj hes).1
  have hrouters : ∀ base ∈ ["app".toList], "api.router".toList ≠ base ++ ".router".toList := by
    decide
  rw [← Option.some.inj hreceiver]
  exact hrouters

/-- The router of a declared application is taken for the application by the registration alone. -/
theorem Idiom.readings_differ_router :
    let context := fun s : Statement =>
      (⟨.python, s, [], none, ["app".toList], [], .empty "a.py".toList .python⟩ : Context)
    ∃ s ∈ (readStatements .python "app.router.get('/x')(h)\n".toList).statements, ∃ es fs,
      Idiom.match? .decoratorCall (context s) = some es ∧
      Idiom.match? .callRegistration (context s) = some fs ∧
      es.map Emission.bare ≠ fs.map Emission.bare := by
  intro context
  obtain ⟨s, hs, hdecorator, hcall⟩ :
      ∃ s ∈ (readStatements .python "app.router.get('/x')(h)\n".toList).statements,
      Idiom.match? .decoratorCall (context s) =
        some [.fragment (some "app.router".toList) .get "/x".toList "h".toList
          (some "h".toList) 1 {}] ∧
      Idiom.match? .callRegistration (context s) =
        some [.fragment (some "app".toList) .get "/x".toList "h".toList (some "h".toList) 1 {}] := by
    decide +kernel
  exact ⟨s, hs, _, _, hdecorator, hcall, by decide⟩

end EndpointCensus
