import EndpointCensus.Idiom.Match
import EndpointCensus.Proofs.Expr.Behind
import EndpointCensus.Proofs.Idiom.Registration

/-!
Decorators that register routes. A decorator is the mark, a receiver and a member, and behind them
nothing or the arguments of a call that ends the statement. Above a function, whatever other
decorators stand between, it reads as one fragment for each method that it names.
-/

namespace EndpointCensus

open Text

/-! ### Calls of a dotted name -/

namespace Args

theorem positional?_moved (args : Option Args) (n k : Nat) :
    Decorator.positional? (args.map (moved n)) k = Decorator.positional? args k := by
  cases args <;> rfl

theorem keyword?_moved (args : Option Args) (n : Nat) (name : String) :
    Decorator.keyword? (args.map (moved n)) name = Decorator.keyword? args name := by
  cases args <;> rfl

theorem routeMetadata_moved (args : Option Args) (n : Nat) :
    (args.map (moved n)).map Decorator.routeMetadata = args.map Decorator.routeMetadata := by
  cases args <;> rfl

end Args

namespace Expr

variable {e : Expr} {name gap rest : List Char}

theorem namedCall?_append (hname : isDottedName name = true) (hgap : ∀ c ∈ gap, isBlank c = true) :
    namedCall? (name ++ (gap ++ '(' :: rest)) = some (name, '(' :: rest) := by
  have hstart : trimStart (gap ++ '(' :: rest) = '(' :: rest := dropWhile_run hgap rfl
  have hopens : MemberCall.opensCall (gap ++ '(' :: rest) = true := by
    rw [MemberCall.opensCall, hstart]
    rfl
  rw [namedCall?, dottedName?_append hname (MemberCall.dottedTail_of_opensCall hopens)]
  dsimp only
  rw [hstart]
  rfl

/-- A dotted name is read from its first character on, and not from behind the word that
asks for a new object. -/
theorem blanks?_after_new (hname : isDottedName name = true) (hdot : '.' ∈ name)
    (rest : List Char) : (after? "new" (name ++ rest)).bind blanks? = none := by
  cases hafter : after? "new" (name ++ rest) with
  | none => rfl
  | some more =>
    have hparts := parts_of_isDottedName hname
    rcases List.append_eq_append_iff.mp (after?_eq_some_iff.mp hafter) with
      ⟨front, hfront, -⟩ | ⟨front, hfront, hbehind⟩
    · have hmem : '.' ∈ "new".toList := hfront ▸ List.mem_append_left _ hdot
      exact absurd hmem (by decide)
    · rw [Option.bind_some, blanks?]
      cases front with
      | nil =>
        rw [List.append_nil] at hfront
        exact absurd (hfront ▸ hdot) (by decide)
      | cons c front =>
        have hc : c ∈ name := hfront ▸ List.mem_append_right _ List.mem_cons_self
        have hshown : (more.head?.any isBlank) = false := by
          rw [hbehind]
          exact isBlank_of_part (hparts c hc)
        rw [hshown]
        rfl

theorem callHead?_append (hname : isDottedName name = true) (hdot : '.' ∈ name)
    (hgap : ∀ c ∈ gap, isBlank c = true) :
    callHead? (name ++ (gap ++ '(' :: rest)) =
      some (0, Text.width name, Text.width name + Text.width gap) := by
  unfold callHead?
  dsimp only
  rw [blanks?_after_new hname hdot, Option.bind_none, Option.none_or, namedCall?_append hname hgap,
    Option.map_some, Nat.sub_self, Nat.zero_add, Text.width_append,
    Text.width_append, ← Nat.add_assoc, Nat.add_sub_cancel]

/-- A dotted name, white space and an argument list are a call. -/
theorem call?_of_isArgs {arguments : List Glyph} (hname : isDottedName name = true)
    (hdot : '.' ∈ name) (hgap : ∀ c ∈ gap, isBlank c = true) (harguments : IsArgs arguments)
    (he : e.glyphs = plainGlyphs (name ++ gap) ++ arguments) : ∃ args,
      (⟨arguments, e.offset + Text.width (name ++ gap)⟩ : Expr).argsAt? 0 = some args ∧
        e.call? = some ⟨name, args.moved (Text.width (name ++ gap))⟩ := by
  obtain ⟨rest, hrest⟩ := List.head?_eq_some_iff.mp harguments.opens
  have hfront := glyphWidth_plainGlyphs (name ++ gap)
  have hmasked : e.masked = name ++ (gap ++ '(' :: rest) := by
    rw [masked_of_plainGlyphs he, hrest, List.append_assoc]
  obtain ⟨args, -, hstop, hargs⟩ :=
    @IsArgs.argsAt? ⟨arguments, e.offset + Text.width (name ++ gap)⟩ arguments [] harguments
      (List.append_nil _).symm
  have hplaced := (behind_of_glyphs he).argsAt? 0
  rw [Nat.add_zero, hfront, hargs, Option.map_some] at hplaced
  have hchars : e.chars 0 (Text.width name) = name := by
    have hread := @chars_of_plainGlyphs e [] name gap arguments he
    rwa [Text.width_nil, Nat.zero_add] at hread
  have hend : (args.moved (Text.width (name ++ gap))).stop = e.width := by
    rw [width, he, glyphWidth_append, hfront, ← hstop]
    rfl
  have hprefix : e.callPrefix? = some ⟨name, args.moved (Text.width (name ++ gap))⟩ := by
    rw [callPrefix?, hmasked, callHead?_append hname hdot hgap]
    dsimp only
    rw [hchars, ← hmasked, ← Text.width_append]
    exact congrArg (Option.map _) hplaced
  refine ⟨args, hargs, ?_⟩
  rw [call?, hprefix, Option.filter_some, hend, if_pos (beq_self_eq_true _)]

/-- A bare dotted name is no call. -/
theorem callOrName?_of_name (hname : isDottedName name = true) (hdot : '.' ∈ name)
    (he : e.glyphs = plainGlyphs name) : e.callOrName? = some (name, none) := by
  have hmasked : e.masked = name := by rw [masked, he, maskedText_plainGlyphs]
  have htext : e.text = name := by rw [text, he, plainText_plainGlyphs]
  have hread := @dottedName?_append _ hname [] rfl
  rw [List.append_nil] at hread
  have hcall : e.call? = none := by
    have hnew := blanks?_after_new hname hdot []
    rw [List.append_nil] at hnew
    have hnamed : namedCall? name = none := by
      rw [namedCall?, hread]
      rfl
    rw [call?, callPrefix?, hmasked, callHead?, hnew]
    dsimp only
    rw [hnamed]
    rfl
  rw [callOrName?, hcall, namePath?, htext, if_pos hname]
  rfl

end Expr

/-! ### Decorators -/

/-- The parts of a decorator: white space behind its mark, a receiver and a member, and white space
and the argument list of a call. -/
structure RouteDecorator where
  pad : List Char
  receiver : List Char
  member : List Char
  gap : List Char
  arguments : List Token

namespace RouteDecorator

variable (d : RouteDecorator)

def callee : List Char := d.receiver ++ '.' :: d.member

/-- What stands before the argument list. -/
def head : List Char := '@' :: (d.pad ++ (d.callee ++ d.gap))

def tokens : List Token := d.head.map .code ++ d.arguments

def args? : Option Args := (⟨Token.glyphsOf d.arguments, Text.width d.head⟩ : Expr).argsAt? 0

def methods : List Method :=
  match Method.ofVerb? d.member with
  | some method => [method]
  | none => methodsOrGet (Decorator.keyword? d.args? "methods")

def path : List Char :=
  pathOf (((Decorator.positional? d.args? 0).or (Decorator.keyword? d.args? "path")).or
    (Decorator.keyword? d.args? "rule"))

def metadata : Metadata := (d.args?.map Decorator.routeMetadata).getD {}

def emission (symbol name : List Char) (line : Nat) (method : Method) : Emission :=
  .fragment (some d.receiver) method d.path symbol (some name) line d.metadata

structure IsWritten : Prop where
  pad : ∀ c ∈ d.pad, isBlank c = true
  receiver : isDottedName d.receiver = true
  member : isVerb d.member = true ∨ d.member = "route".toList ∨ d.member = "api_route".toList
  gap : ∀ c ∈ d.gap, isBlank c = true
  arguments : (d.gap = [] ∧ d.arguments = []) ∨ Expr.IsArgs (Token.glyphsOf d.arguments)

variable {d}

theorem methods_ne_nil : d.methods ≠ [] := by
  rw [methods]
  split
  · exact List.cons_ne_nil _ _
  · rw [methodsOrGet]
    split
    · exact List.cons_ne_nil _ _
    · next h => exact h

/-- The members of route decorators are words, and just the verbs stand for methods. -/
theorem member_spec {member : List Char}
    (h : isVerb member = true ∨ member = "route".toList ∨ member = "api_route".toList) :
    isDottedName member = true ∧ '.' ∉ member ∧ (Method.ofVerb? member).isSome = isVerb member ∧
      (isVerb member || isOneOf ["route", "api_route"] member) = true := by
  have hall : ∀ word ∈ httpVerbs ++ ["route", "api_route"], isDottedName word.toList = true ∧
      '.' ∉ word.toList ∧ (Method.ofVerb? word.toList).isSome = isVerb word.toList ∧
        (isVerb word.toList || isOneOf ["route", "api_route"] word.toList) = true := by decide
  have hmem : String.ofList member ∈ httpVerbs ++ ["route", "api_route"] := by
    rcases h with h | rfl | rfl
    · exact List.mem_append_left _ (List.contains_iff_mem.mp h)
    · decide
    · decide
  have hword := hall _ hmem
  rwa [String.toList_ofList] at hword

variable {body : Expr}

theorem callee_shown (hd : d.IsWritten) : isDottedName d.callee = true ∧ '.' ∈ d.callee :=
  ⟨isDottedName_member hd.receiver (member_spec hd.member).1,
    List.mem_append_right _ List.mem_cons_self⟩

/-- What is left of a decorator without its mark and the white space behind it. -/
theorem IsWritten.tail (hd : d.IsWritten) {e : Expr}
    (he : e.glyphs = plainGlyphs d.head ++ Token.glyphsOf d.arguments) (hzero : e.offset = 0) :
    (e.tail 1).glyphs = plainGlyphs (d.callee ++ d.gap) ++ Token.glyphsOf d.arguments ∧
      (e.tail 1).offset + Text.width (d.callee ++ d.gap) = Text.width d.head := by
  obtain ⟨hname, -⟩ := callee_shown hd
  have hparts : ∀ g ∈ plainGlyphs d.callee, g.isBlank = false := by
    intro g hg
    obtain ⟨c, hc, rfl⟩ := List.mem_map.mp hg
    exact isBlank_of_part (parts_of_isDottedName hname c hc)
  generalize hcore : plainGlyphs (d.callee ++ d.gap) ++ Token.glyphsOf d.arguments = core
  have hfirst : core.head?.any Glyph.isBlank = false := by
    obtain ⟨c, more, hcallee, -⟩ := exists_cons_of_head?_any (isDottedName_iff.mp hname).1
    rw [← hcore, hcallee]
    exact hparts ⟨c, false⟩ (hcallee ▸ List.mem_cons_self)
  have hlast : core.getLast?.any Glyph.isBlank = false := by
    rcases hd.arguments with ⟨hgap, hnone⟩ | harguments
    · rw [← hcore, hgap, hnone, List.append_nil, Token.glyphsOf_nil, List.append_nil]
      exact getLast?_any_of_forall hparts
    · have hne : Token.glyphsOf d.arguments ≠ [] := fun hnil => by
        have hopens := harguments.opens
        rw [hnil] at hopens
        contradiction
      rw [← hcore, getLast?_any_append _ hne]
      exact harguments.getLast?
  have hpads : ∀ g ∈ plainGlyphs d.pad, g.isBlank = true := by
    intro g hg
    obtain ⟨c, hc, rfl⟩ := List.mem_map.mp hg
    exact hd.pad c hc
  have hglyphs : e.glyphs = plainGlyphs ['@'] ++ ((plainGlyphs d.pad ++ core) ++ []) := by
    rw [he, ← hcore, head]
    simp [plainGlyphs]
  have hmark : glyphWidth (plainGlyphs ['@']) = 1 := rfl
  have hwidth : e.width = 1 + glyphWidth (plainGlyphs d.pad ++ core) := by
    rw [Expr.width, hglyphs, List.append_nil, glyphWidth_append, hmark]
  have htail : e.tail 1 = ⟨core, 1 + Text.width d.pad⟩ := by
    have hslice := Expr.slice_eq hglyphs
    rw [dropWhile_run hpads hfirst, dropEndWhile_of_getLast? hlast, takeWhile_run hpads hfirst,
      hmark, glyphWidth_plainGlyphs, hzero, Nat.zero_add, ← hwidth] at hslice
    rw [Expr.tail, Nat.min_eq_left (hwidth ▸ Nat.le_add_right _ _), hslice]
  have hsize : ('@' : Char).utf8Size = 1 := rfl
  refine ⟨by rw [htail], ?_⟩
  rw [htail, head, Text.width_cons, hsize, Text.width_append _ (d.callee ++ d.gap), Nat.add_assoc]

/-- A decorator without its mark. -/
theorem callOrName?_body (hd : d.IsWritten)
    (hglyphs : body.glyphs = plainGlyphs (d.callee ++ d.gap) ++ Token.glyphsOf d.arguments)
    (hoffset : body.offset + Text.width (d.callee ++ d.gap) = Text.width d.head) :
    ∃ n, body.callOrName? = some (d.callee, d.args?.map (Args.moved n)) := by
  obtain ⟨hname, hdot⟩ := callee_shown hd
  rcases hd.arguments with ⟨hgap, hnone⟩ | harguments
  · have hargs : d.args? = none := by
      rw [args?, hnone]
      rfl
    rw [hgap, hnone, List.append_nil, Token.glyphsOf_nil, List.append_nil] at hglyphs
    exact ⟨0, by rw [hargs]; exact Expr.callOrName?_of_name hname hdot hglyphs⟩
  · obtain ⟨args, hargs, hcall⟩ := Expr.call?_of_isArgs hname hdot hd.gap harguments hglyphs
    rw [hoffset] at hargs
    refine ⟨Text.width (d.callee ++ d.gap), ?_⟩
    rw [Expr.callOrName?, hcall, args?, hargs]
    rfl

theorem read?_body (hd : d.IsWritten)
    (hglyphs : body.glyphs = plainGlyphs (d.callee ++ d.gap) ++ Token.glyphsOf d.arguments)
    (hoffset : body.offset + Text.width (d.callee ++ d.gap) = Text.width d.head) :
    ∃ n, Decorator.read? body = some (.route d.receiver d.methods (d.args?.map (Args.moved n))) := by
  obtain ⟨n, hread⟩ := callOrName?_body hd hglyphs hoffset
  obtain ⟨-, hdot, hsome, hlists⟩ := member_spec hd.member
  have hsplit : splitLast? '.' d.callee = some (d.receiver, d.member) :=
    splitLast?_append d.receiver hdot
  have hlast : lastSegment d.callee = d.member := by rw [lastSegment, hsplit]
  refine ⟨n, ?_⟩
  rw [Decorator.read?, hread, Option.bind_eq_bind, Option.bind_some]
  dsimp only
  rw [hlast, hsplit]
  dsimp only
  rw [Args.keyword?_moved, methods]
  split
  · next h =>
    obtain ⟨method, hmethod⟩ := Option.isSome_iff_exists.mp (hsome.trans h)
    rw [hmethod]
    rfl
  · next h =>
    have hverb := Bool.eq_false_iff.mpr h
    rw [hverb, Bool.false_or] at hlists
    rw [hverb] at hsome
    rw [if_pos hlists, Option.not_isSome_iff_eq_none.mp (Bool.eq_false_iff.mp hsome)]

end RouteDecorator

namespace Decorator

variable {c : Context} {d : RouteDecorator} {name : List Char}

/-- A route decorator above a function. -/
theorem match?_written (hd : d.IsWritten) (hs : c.statement.tokens = d.tokens)
    (htarget : c.decorated? = some ⟨name, false⟩) :
    match? c = some (d.methods.map (d.emission (c.qualify name) name c.line)) := by
  have hglyphs : c.expr.glyphs = plainGlyphs d.head ++ Token.glyphsOf d.arguments :=
    c.glyphs_of_tokens hs
  have hmark : c.expr.isDecorator = true := by
    rw [Expr.isDecorator, Expr.masked_of_plainGlyphs hglyphs]
    rfl
  obtain ⟨hbody, hoffset⟩ := hd.tail hglyphs rfl
  obtain ⟨n, hread⟩ := RouteDecorator.read?_body hd hbody hoffset
  rw [match?, if_pos hmark, decorated?, hread, Option.bind_eq_bind, Option.bind_some, htarget]
  simp only [Option.bind_eq_bind, Option.bind_some, Args.positional?_moved, Args.keyword?_moved,
    Args.routeMetadata_moved]
  rfl

end Decorator

end EndpointCensus
