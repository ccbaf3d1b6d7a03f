import EndpointCensus.Proofs.Idiom.VerbAlias

/-!
Type arguments of calls. A list of type arguments between the member and the parenthesis of a call
is passed over, and so are the lists before the parentheses of the links of a chain, so they change
nothing of what is registered. Nested angle brackets, arrows, object and tuple types and literal
types need no case of their own: that the list is passed over is all that is said of it.
-/

namespace EndpointCensus

open Text

/-! ### The parenthesis behind type arguments -/

/-- Tokens from an angle bracket to the one that closes it. -/
structure IsTypeArgs (ts : List Token) : Prop where
  opens : (Token.maskedOf ts).head? = some '<'
  closes : skipTypeArgs (Token.maskedOf ts) 0 = some (Token.widthOf ts)

instance (ts : List Token) : Decidable (IsTypeArgs ts) :=
  decidable_of_iff ((Token.maskedOf ts).head? = some '<' ∧
    skipTypeArgs (Token.maskedOf ts) 0 = some (Token.widthOf ts))
      ⟨fun h => ⟨h.1, h.2⟩, fun h => ⟨h.opens, h.closes⟩⟩

/-- Type arguments, or none. -/
def MayBeTypeArgs (ts : List Token) : Prop := ts = [] ∨ IsTypeArgs ts

theorem skipTypeArgs_before {cs : List Char} {stop : Nat} (h : skipTypeArgs cs 0 = some stop)
    (more : List Char) : skipTypeArgs (cs ++ more) 0 = some stop := by
  have hzero (ds : List Char) : skipTypeArgs ds 0 = typeArgsFrom 0 0 none 0 ds := by
    rw [skipTypeArgs]
    cases ds <;> rfl
  rw [hzero] at h ⊢
  exact typeArgsFrom_before h more

/-- Type arguments begin with an angle bracket, and where there are none the
parenthesis comes first. -/
theorem MayBeTypeArgs.exists_mark {types : List Token} {rest : List Glyph} (h : MayBeTypeArgs types)
    (hrest : (maskedText rest).head? = some '(') :
    ∃ mark more, (mark = '(' ∨ mark = '<') ∧ maskedText (Token.glyphsOf types ++ rest) =
      mark :: more := by
  rcases h with rfl | h
  · obtain ⟨more, hmore⟩ := List.head?_eq_some_iff.mp hrest
    exact ⟨'(', more, .inl rfl, hmore⟩
  · obtain ⟨more, hmore⟩ := List.head?_eq_some_iff.mp h.opens
    refine ⟨'<', more ++ maskedText rest, .inr rfl, ?_⟩
    rw [Draft.maskedText_append]
    exact congrArg (· ++ maskedText rest) hmore

namespace Expr

variable {x : Expr}

/-- The parenthesis of a call is found behind white space and type arguments. -/
theorem callOpen?_of_mayBeTypeArgs {gap : List Char} {types : List Token} {rest : List Glyph}
    (hgap : ∀ c ∈ gap, isAsciiBlank c = true) (htypes : MayBeTypeArgs types)
    (hrest : (maskedText rest).head? = some '(')
    (hx : x.glyphs = plainGlyphs gap ++ (Token.glyphsOf types ++ rest)) :
    x.callOpen? 0 = some (Text.width gap + Token.widthOf types) := by
  obtain ⟨behind, hbehind⟩ := List.head?_eq_some_iff.mp hrest
  have htyped : maskedText (Token.glyphsOf types ++ rest) =
      Token.maskedOf types ++ '(' :: behind := by
    rw [Draft.maskedText_append, hbehind]
    rfl
  have hmasked : x.masked = gap ++ (Token.maskedOf types ++ '(' :: behind) := by
    rw [masked_of_plainGlyphs hx, htyped]
  have hshown : (Token.maskedOf types ++ '(' :: behind).head?.any isAsciiBlank = false := by
    obtain ⟨mark, more, hmark, hmore⟩ := htypes.exists_mark hrest
    rw [← htyped, hmore]
    rcases hmark with rfl | rfl <;> rfl
  have hskip : skipAsciiBlanks x.masked 0 = Text.width gap := by
    have hrun := skipAsciiBlanks_run [] hgap hshown
    rwa [List.nil_append, Text.width_nil, Nat.zero_add, ← hmasked] at hrun
  have hwidth := Token.width_maskedOf types
  have hparen : charAt? x.masked (Text.width gap + Token.widthOf types) = some '(' := by
    rw [hmasked, ← hwidth, charAt?_behind, charAt?_append]
  unfold callOpen?
  dsimp only
  rw [hskip]
  rcases htypes with rfl | htypes
  · rw [Token.widthOf_nil, Nat.add_zero] at hparen ⊢
    rw [hparen, if_neg (by decide), Option.filter_some, hparen, if_pos (by decide)]
  · obtain ⟨more, hmore⟩ := List.head?_eq_some_iff.mp htypes.opens
    have hangle : charAt? (Token.maskedOf types ++ '(' :: behind) 0 = some '<' := by
      rw [hmore]
      rfl
    have hopens : charAt? x.masked (Text.width gap) = some '<' := by
      have hplace := charAt?_behind gap (Token.maskedOf types ++ '(' :: behind) 0
      rwa [Nat.add_zero, ← hmasked, hangle] at hplace
    have htypeArgs : skipTypeArgs x.masked (Text.width gap) =
        some (Text.width gap + Token.widthOf types) := by
      have hplace := skipTypeArgs_behind gap _ 0 hangle
      rwa [skipTypeArgs_before htypes.closes, Nat.add_zero, ← hmasked] at hplace
    have hblanks : skipAsciiBlanks x.masked (Text.width gap + Token.widthOf types) =
        Text.width gap + Token.widthOf types := by
      have hrun :=
        @skipAsciiBlanks_run [] (gap ++ Token.maskedOf types) (by simp) ('(' :: behind) rfl
      rwa [List.nil_append, List.append_assoc, ← hmasked, Text.width_append, hwidth, Text.width_nil,
        Nat.add_zero] at hrun
    rw [hopens, if_pos (by decide), htypeArgs, Option.map_some, hblanks, Option.filter_some, hparen,
      if_pos (by decide)]

end Expr

/-! ### Links of a chain -/

/-- A dot, a verb and an argument list, white space before each of them and type
arguments before the last. -/
structure ChainLink where
  lead : List Char
  pad : List Char
  verb : List Char
  gap : List Char
  types : List Token
  call : List Token

namespace ChainLink

/-- The link up to its type arguments, the white space before its dot left out. -/
def head (l : ChainLink) : List Char := '.' :: (l.pad ++ (l.verb ++ l.gap))

def tokens (l : ChainLink) : List Token :=
  l.lead.map .code ++ (l.head.map .code ++ (l.types ++ l.call))

def untyped (l : ChainLink) : ChainLink := { l with types := [] }

structure IsWritten (l : ChainLink) : Prop where
  lead : ∀ c ∈ l.lead, isBlank c = true
  pad : ∀ c ∈ l.pad, isBlank c = true
  first : l.verb.head?.any isNameStart = true
  verb : ∀ c ∈ l.verb, isNamePart c = true
  gap : ∀ c ∈ l.gap, isAsciiBlank c = true
  types : MayBeTypeArgs l.types
  call : Expr.IsArgs (Token.glyphsOf l.call)

variable {l : ChainLink} {x : Expr} {more : List Glyph}

theorem IsWritten.untyped (h : l.IsWritten) : l.untyped.IsWritten where
  lead := h.lead
  pad := h.pad
  first := h.first
  verb := h.verb
  gap := h.gap
  types := .inl rfl
  call := h.call

end ChainLink

namespace MemberCall

variable {l : ChainLink} {x : Expr} {more : List Glyph}

theorem linkHead?_of_link (hl : l.IsWritten)
    (hx : x.glyphs = plainGlyphs l.head ++ (Token.glyphsOf l.types ++
      (Token.glyphsOf l.call ++ more))) :
    linkHead? x = some (l.verb, Text.width ('.' :: (l.pad ++ l.verb))) := by
  obtain ⟨mark, after, hmark, hafter⟩ := hl.types.exists_mark (hl.call.head?_append more)
  have hmasked : x.masked = ['.'] ++ (l.pad ++ (l.verb ++ (l.gap ++ mark :: after))) := by
    rw [Expr.masked_of_plainGlyphs hx, hafter, ChainLink.head]
    simp
  have hdot : after? "." x.masked = some (l.pad ++ (l.verb ++ (l.gap ++ mark :: after))) :=
    after?_eq_some_iff.mpr hmasked
  obtain ⟨c, cs, hverb, hc⟩ := exists_cons_of_head?_any hl.first
  have htrim : trimStart (l.pad ++ (l.verb ++ (l.gap ++ mark :: after))) =
      l.verb ++ (l.gap ++ mark :: after) := by
    refine dropWhile_run hl.pad ?_
    rw [hverb]
    exact isBlank_of_isNamePart (isNamePart_of_isNameStart hc)
  have hend : (l.gap ++ mark :: after).head?.any isNamePart = false := by
    cases hgap : l.gap with
    | nil =>
      have hnone : ∀ m : Char, m = '(' ∨ m = '<' → isNamePart m = false := by
        rintro m (rfl | rfl) <;> decide
      exact hnone mark hmark
    | cons d gap =>
      exact isNamePart_of_isBlank (isBlank_of_isAsciiBlank (hl.gap d (hgap ▸ List.mem_cons_self)))
  have hname := identifier?_append hl.first hl.verb hend
  have hstart : x.offsetOf (l.verb ++ (l.gap ++ mark :: after)) = Text.width ('.' :: l.pad) :=
    Expr.offsetOf_append (by rw [hmasked]; simp)
  have hstop : x.offsetOf (l.gap ++ mark :: after) = Text.width ('.' :: (l.pad ++ l.verb)) :=
    Expr.offsetOf_append (by rw [hmasked]; simp)
  have hchars :=
    @Expr.chars_of_plainGlyphs x ('.' :: l.pad) l.verb l.gap _ (by rw [hx, ChainLink.head]; rfl)
  rw [← Text.width_append, List.cons_append] at hchars
  rw [linkHead?, hdot, Option.bind_some, htrim, hname, Option.map_some]
  dsimp only
  rw [Expr.between, hstart, hstop, hchars]

/-- A link and those behind it. -/
theorem chainFrom?_link (hl : l.IsWritten)
    (hx : x.glyphs = plainGlyphs l.head ++ (Token.glyphsOf l.types ++
      (Token.glyphsOf l.call ++ more)))
    (m : MemberCall) (path : List Char) (fuel : Nat) : ∃ (args : Args) (y : Expr),
      ((⟨Token.glyphsOf l.call, 0⟩ : Expr).argsAt? 0).map Args.look = some args.look ∧
      y.glyphs = trimGlyphs more ∧ m.chainFrom? path (fuel + 1) x =
        (verbMethod? l.verb).bind fun method =>
        (m.chainFrom? path fuel y).bind fun links => some (m.fragments [method] path
          (m.symbolOf args.positionals l.verb) (m.context.statement.lineAt x.offset) {} ++
            links) := by
  have hempty : x.isEmpty = false := by
    rw [Expr.isEmpty, hx]
    rfl
  have hhead := linkHead?_of_link hl hx
  have hfront : x.glyphs = plainGlyphs ('.' :: (l.pad ++ l.verb)) ++
      (plainGlyphs l.gap ++ (Token.glyphsOf l.types ++ (Token.glyphsOf l.call ++ more))) := by
    have hhead : l.head = ('.' :: (l.pad ++ l.verb)) ++ l.gap := by simp [ChainLink.head]
    rw [hx, hhead, plainGlyphs_append, List.append_assoc]
  have hopen := (Expr.behind_of_glyphs hfront).callOpen? 0
  rw [Nat.add_zero, Expr.callOpen?_of_mayBeTypeArgs hl.gap hl.types (hl.call.head?_append more) rfl,
    Option.map_some, glyphWidth_plainGlyphs] at hopen
  have hcall : x.glyphs = (plainGlyphs l.head ++ Token.glyphsOf l.types) ++
      (Token.glyphsOf l.call ++ more) := by
    rw [hx, List.append_assoc]
  have hparen : glyphWidth (plainGlyphs l.head ++ Token.glyphsOf l.types) =
      Text.width ('.' :: (l.pad ++ l.verb)) + (Text.width l.gap + Token.widthOf l.types) := by
    rw [glyphWidth_append, glyphWidth_plainGlyphs, Token.glyphWidth_glyphsOf, ChainLink.head]
    simp [Nat.add_assoc]
  obtain ⟨found, hfound, -, -, hlook, htail⟩ := exists_callFrom? hl.call hcall m.context m.receiver
  rw [hparen, callFrom?] at hfound
  obtain ⟨args, hargs, rfl⟩ := Option.map_eq_some_iff.mp hfound
  refine ⟨args, x.tail args.stop, hlook, htail, ?_⟩
  rw [chainFrom?_succ, hempty, if_neg Bool.false_ne_true, hhead, Option.bind_some]
  dsimp only
  rw [hopen, Option.bind_some, hargs, Option.bind_some]

/-- What is left of a link and of what follows it when white space at either end is trimmed away. -/
theorem trimGlyphs_link (hl : l.IsWritten) (more : List Glyph) :
    trimGlyphs (Token.glyphsOf l.tokens ++ more) = plainGlyphs l.head ++
      (Token.glyphsOf l.types ++ (Token.glyphsOf l.call ++
        Text.dropEndWhile Glyph.isBlank more)) := by
  have hlead : ∀ g ∈ plainGlyphs l.lead, g.isBlank = true := by
    intro g hg
    obtain ⟨c, hc, rfl⟩ := List.mem_map.mp hg
    exact hl.lead c hc
  have hlast : (plainGlyphs l.head ++ (Token.glyphsOf l.types ++
      Token.glyphsOf l.call)).getLast?.any Glyph.isBlank =
      false := by
    have hne : Token.glyphsOf l.call ≠ [] := by
      intro hnil
      have hopens := hl.call.opens
      rw [hnil] at hopens
      contradiction
    rw [← List.append_assoc, List.getLast?_append, List.getLast?_eq_some_getLast hne,
      Option.some_or, ← List.getLast?_eq_some_getLast hne]
    exact hl.call.getLast?
  have hglyphs : Token.glyphsOf l.tokens ++ more = plainGlyphs l.lead ++
      ((plainGlyphs l.head ++ (Token.glyphsOf l.types ++ Token.glyphsOf l.call)) ++ more) := by
    simp [ChainLink.tokens, glyphsOf_map_code]
  have hcore : plainGlyphs l.head ++ (Token.glyphsOf l.types ++ Token.glyphsOf l.call) ≠ [] :=
    List.cons_ne_nil _ _
  rw [hglyphs, trimGlyphs_append hlead hcore rfl hlast, List.append_assoc, List.append_assoc]

/-- Type arguments before the parentheses of the links change nothing of a chain. -/
theorem Related.chainFrom?_links {m m' : MemberCall} (h : Related m m') {links : List ChainLink}
    (hlinks : ∀ l ∈ links, l.IsWritten) {rest : List Glyph} (path : List Char) {x x' : Expr}
    {fuel fuel' : Nat}
    (hx : x.glyphs = trimGlyphs (Token.glyphsOf (links.flatMap (·.untyped.tokens)) ++ rest))
    (hx' : x'.glyphs = trimGlyphs (Token.glyphsOf (links.flatMap ChainLink.tokens) ++ rest))
    (hfuel : x.glyphs.length < fuel) (hfuel' : x'.glyphs.length < fuel') :
    m.chainFrom? path fuel x = m'.chainFrom? path fuel' x' := by
  induction links generalizing x x' fuel fuel' with
  | nil => exact h.chainFrom? path (hx.trans hx'.symm) hfuel hfuel'
  | cons l links ih =>
    obtain ⟨hl, hlinks⟩ := List.forall_mem_cons.mp hlinks
    obtain ⟨fuel, rfl⟩ : ∃ n, fuel = n + 1 := ⟨fuel - 1, by omega⟩
    obtain ⟨fuel', rfl⟩ : ∃ n, fuel' = n + 1 := ⟨fuel' - 1, by omega⟩
    rw [List.flatMap_cons, Token.glyphsOf_append, List.append_assoc, trimGlyphs_link hl.untyped]
      at hx
    rw [List.flatMap_cons, Token.glyphsOf_append, List.append_assoc, trimGlyphs_link hl] at hx'
    obtain ⟨args, y, hlook, hy, hchain⟩ := chainFrom?_link hl.untyped hx m path fuel
    obtain ⟨args', y', hlook', hy', hchain'⟩ := chainFrom?_link hl hx' m' path fuel'
    have hargs : args.look = args'.look := Option.some.inj (hlook.symm.trans hlook')
    have hshorter := Expr.length_trimGlyphs_le (Text.dropEndWhile Glyph.isBlank
      (Token.glyphsOf (links.flatMap (·.untyped.tokens)) ++ rest))
    have hshorter' := Expr.length_trimGlyphs_le (Text.dropEndWhile Glyph.isBlank
      (Token.glyphsOf (links.flatMap ChainLink.tokens) ++ rest))
    rw [← hy] at hshorter
    rw [← hy'] at hshorter'
    rw [hx] at hfuel
    rw [hx'] at hfuel'
    simp only [List.length_append] at hfuel hfuel' hshorter hshorter'
    have hopens : 0 < (plainGlyphs l.head).length := Nat.succ_pos _
    have hopens' : 0 < (plainGlyphs l.untyped.head).length := Nat.succ_pos _
    rw [trimGlyphs_dropEndWhile] at hy hy'
    have hfewer : y.glyphs.length < fuel := by omega
    have hfewer' : y'.glyphs.length < fuel' := by omega
    rw [hchain, hchain', ih hlinks hy hy' hfewer hfewer', h.symbolOf (Args.positionals_congr hargs),
      h.context.lineAt x.offset x'.offset]
    simp only [h.fragments]
    rfl

/-- A chain of verbs is registered the same with and without type arguments before the
parentheses of its links. -/
theorem Related.chain?_links {m m' : MemberCall} (h : Related m m')
    (hargs : m.args.look = m'.args.look) {links : List ChainLink}
    (hlinks : ∀ l ∈ links, l.IsWritten) {rest : List Glyph}
    (htail : m.tail.glyphs = trimGlyphs (Token.glyphsOf (links.flatMap (·.untyped.tokens)) ++ rest))
    (htail' : m'.tail.glyphs = trimGlyphs (Token.glyphsOf (links.flatMap ChainLink.tokens) ++ rest)) :
    m.chain? = m'.chain? := by
  refine bind_congr_of_map (Args.positional?_congr hargs 0) fun path path' _ _ hpath => ?_
  rw [Expr.pathOf_congr hpath]
  exact h.chainFrom?_links hlinks _ htail htail' (Nat.lt_succ_self _) (Nat.lt_succ_self _)

/-- The member that starts a chain. -/
theorem register?_route {m : MemberCall} (hscript : m.context.language = .script) :
    m.register? "route".toList = m.chain? := by
  rw [register?, hscript]
  rfl

/-! ### Statements -/

/-- Type arguments are put before the parenthesis that opens `plain`, or before the parentheses of a
chain that starts with it. -/
inductive AddsTypeArgs (member : List Char) : List Token → List Token → Prop
  | call {types rest : List Token} (htypes : IsTypeArgs types) :
    AddsTypeArgs member (.code '(' :: rest) (types ++ .code '(' :: rest)
  | chain {types call rest : List Token} {links : List ChainLink} (hroute : member = "route".toList)
    (htypes : MayBeTypeArgs types) (hcall : Expr.IsArgs (Token.glyphsOf call))
    (hlinks : ∀ l ∈ links, l.IsWritten) :
    AddsTypeArgs member (call ++ (links.flatMap (·.untyped.tokens) ++ rest))
      (types ++ (call ++ (links.flatMap ChainLink.tokens ++ rest)))

variable {c : Context} {receiver member : List Char}

/-- The call of a member that is given type arguments is read from its parenthesis on. -/
theorem match?_typed (types : List Token) {call : List Token} (hscript : c.language = .script)
    (hreceiver : isDottedName receiver = true) (hmember : isDottedName member = true)
    (hdot : '.' ∉ member) (htypes : MayBeTypeArgs types)
    (hcall : (Token.maskedOf call).head? = some '(')
    (h : c.statement.tokens = (receiver ++ '.' :: member).map .code ++ (types ++ call)) : match? c =
      if acceptsReceiver c receiver then
        (callFrom? c (ownerOf c receiver) c.expr
          (glyphWidth (plainGlyphs (receiver ++ '.' :: member) ++ Token.glyphsOf types))).bind
          (·.register? member)
      else none := by
  have hopens : opensCall (Token.maskedOf (types ++ call)) = true := by
    obtain ⟨mark, more, hmark, hmore⟩ := htypes.exists_mark hcall
    rw [Token.maskedOf, Token.glyphsOf_append, hmore]
    rcases hmark with rfl | rfl <;> rfl
  have hglyphs := c.glyphs_of_tokens h
  have hparen : c.expr.callOpen? (glyphWidth (plainGlyphs (receiver ++ '.' :: member))) =
      some (glyphWidth (plainGlyphs (receiver ++ '.' :: member) ++ Token.glyphsOf types)) := by
    have hopen := (Expr.behind_of_glyphs hglyphs).callOpen? 0
    have htyped (offset : Nat) :=
      @Expr.callOpen?_of_mayBeTypeArgs ⟨Token.glyphsOf (types ++ call), offset⟩ [] _ _
        (by simp) htypes hcall (Token.glyphsOf_append _ _)
    rw [Nat.add_zero, htyped, Text.width_nil, Nat.zero_add, Option.map_some] at hopen
    rw [hopen, glyphWidth_append, Token.glyphWidth_glyphsOf]
  rw [match?_member hscript hreceiver hmember hdot hopens h, ofCall?_eq, hparen, Option.bind_some]

/-- The text of the call of a member, up to its type arguments and behind them. -/
theorem glyphs_typed (types call : List Token)
    (h : c.statement.tokens = (receiver ++ '.' :: member).map .code ++ (types ++ call)) :
    c.expr.glyphs = (plainGlyphs (receiver ++ '.' :: member) ++ Token.glyphsOf types) ++
      Token.glyphsOf call := by
  rw [c.glyphs_of_tokens h, Token.glyphsOf_append, List.append_assoc]

section Statements

variable {s s' : Statement} {line : Nat} (hscript : c.language = .script)
  (hreceiver : isDottedName receiver = true) (hmember : isDottedName member = true)
  (hdot : '.' ∉ member) (hs : s.OnLine line) (hs' : s'.OnLine line)

include hscript hreceiver hmember hdot hs hs'

/-- Type arguments before the parenthesis of a call change nothing of what it registers. -/
theorem match?_typedCall {types rest : List Token} (htypes : IsTypeArgs types)
    (hplain : s.tokens = (receiver ++ '.' :: member).map .code ++ .code '(' :: rest)
    (htyped : s'.tokens = (receiver ++ '.' :: member).map .code ++ (types ++ .code '(' :: rest)) :
    match? (c.withStatement s') = match? (c.withStatement s) := by
  have hopens : (Token.maskedOf (.code '(' :: rest)).head? = some '(' := rfl
  have hmatch : match? (c.withStatement s) = _ :=
    match?_typed [] hscript hreceiver hmember hdot (.inl rfl) hopens hplain
  have hmatch' : match? (c.withStatement s') = _ :=
    match?_typed types hscript hreceiver hmember hdot (.inr htypes) hopens htyped
  rw [hmatch, hmatch']
  refine congrArg (if acceptsReceiver c receiver then · else none) ?_
  have hfront : (c.withStatement s).expr.glyphs = _ := glyphs_typed [] _ hplain
  have hfront' : (c.withStatement s').expr.glyphs = _ := glyphs_typed types _ htyped
  refine callFrom?_congr (c.onOneLine hs' hs) hfront' hfront (fun m m' hmoved hm => ?_)
    (ownerOf c receiver) 0
  exact hmoved.register? (hm ▸ hscript) member

/-- Type arguments before the parentheses of a chain change nothing of what it registers. -/
theorem match?_typedChain {types call rest : List Token} {links : List ChainLink}
    (hroute : member = "route".toList) (htypes : MayBeTypeArgs types)
    (hcall : Expr.IsArgs (Token.glyphsOf call)) (hlinks : ∀ l ∈ links, l.IsWritten)
    (hplain : s.tokens =
      (receiver ++ '.' :: member).map .code ++ (call ++ (links.flatMap (·.untyped.tokens) ++ rest)))
    (htyped : s'.tokens =
      (receiver ++ '.' :: member).map .code ++
        (types ++ (call ++ (links.flatMap ChainLink.tokens ++ rest)))) :
    match? (c.withStatement s') = match? (c.withStatement s) := by
  have hopens (more : List Token) : (Token.maskedOf (call ++ more)).head? = some '(' := by
    rw [Token.maskedOf, Token.glyphsOf_append]
    exact hcall.head?_append _
  have hmatch : match? (c.withStatement s) = _ :=
    match?_typed [] hscript hreceiver hmember hdot (.inl rfl) (hopens _) hplain
  have hmatch' : match? (c.withStatement s') = _ :=
    match?_typed types hscript hreceiver hmember hdot htypes (hopens _) htyped
  rw [hmatch, hmatch']
  refine congrArg (if acceptsReceiver c receiver then · else none) ?_
  have hfront : (c.withStatement s).expr.glyphs = _ := 
    glyphs_typed [] (call ++ (links.flatMap (·.untyped.tokens) ++ rest)) hplain
  have hfront' : (c.withStatement s').expr.glyphs = _ := glyphs_typed types _ htyped
  rw [Token.glyphsOf_append, Token.glyphsOf_append] at hfront hfront'
  obtain ⟨m, hm, hcontext, hreads, hlook, htail⟩ :=
    exists_callFrom? hcall hfront (c.withStatement s) (ownerOf c receiver)
  obtain ⟨m', hm', hcontext', hreads', hlook', htail'⟩ :=
    exists_callFrom? hcall hfront' (c.withStatement s') (ownerOf c receiver)
  have hrelated : Related m m' := by
    refine ⟨?_, hreads.trans hreads'.symm⟩
    rw [hcontext, hcontext']
    exact c.onOneLine hs hs'
  have hargs : m.args.look = m'.args.look := Option.some.inj (hlook.symm.trans hlook')
  have hchain : m'.register? member = m.register? member := by
    rw [hroute, register?_route (hcontext' ▸ hscript), register?_route (hcontext ▸ hscript)]
    exact (hrelated.chain?_links hargs hlinks htail htail').symm
  have hbind := congrArg (Option.bind · (·.register? member)) hm
  have hbind' := congrArg (Option.bind · (·.register? member)) hm'
  exact hbind'.trans (hchain.trans hbind.symm)

end Statements

/-- Type arguments change nothing of what a call or a chain of calls registers. -/
theorem match?_addsTypeArgs {s s' : Statement} {plain typed : List Token} {line : Nat}
    (hscript : c.language = .script) (hreceiver : isDottedName receiver = true)
    (hmember : isDottedName member = true) (hdot : '.' ∉ member) (hs : s.OnLine line)
    (hs' : s'.OnLine line) (hadds : AddsTypeArgs member plain typed)
    (hplain : s.tokens = (receiver ++ '.' :: member).map .code ++ plain)
    (htyped : s'.tokens = (receiver ++ '.' :: member).map .code ++ typed) :
    match? (c.withStatement s') = match? (c.withStatement s) := by
  cases hadds with
  | call htypes => exact match?_typedCall hscript hreceiver hmember hdot hs hs' htypes hplain htyped
  | chain hroute htypes hcall hlinks =>
    exact match?_typedChain hscript hreceiver hmember hdot hs hs' hroute htypes hcall hlinks hplain
      htyped

/-- Type arguments with nested brackets, an arrow, an object, a literal and a tuple. -/
def nestedTypes : List Token :=
  "<Map<string, (u: \x7b id: ".toList.map .code ++
    .literal "'a>b'".toList :: " \x7d) => [A, B]>>".toList.map .code

/-- White space before and behind the names of two links, and type arguments of the second one. -/
def typedLinks : List ChainLink :=
  [⟨[], [], "get".toList, " ".toList, [], "(list)".toList.map .code⟩,
    ⟨" ".toList, [], "post".toList, [], "<A<B>>".toList.map .code, "(save)".toList.map .code⟩]

theorem isWritten_typedLinks : ∀ l ∈ typedLinks, l.IsWritten := by
  have hall {p : Char → Bool} {cs : List Char} (h : cs.all p = true) : ∀ c ∈ cs, p c = true :=
    List.all_eq_true.mp h
  refine List.forall_mem_cons.mpr ⟨?_, List.forall_mem_singleton.mpr ?_⟩
  · exact ⟨hall rfl, hall rfl, by decide, hall rfl, hall rfl, .inl rfl, by decide⟩
  · exact ⟨hall rfl, hall rfl, by decide, hall rfl, hall rfl, .inr (by decide), by decide⟩

/-- A call with nested brackets, an arrow, an object, a literal and a tuple among its type
arguments, and a chain with type arguments before its path and before one of its links. -/
theorem match?_addsTypeArgs_read :
    let context := fun (s : Statement) =>
      (⟨.script, s, [], none, [], [], .empty "app.js".toList .script⟩ : Context)
    ∃ s ∈ (readStatements .script "app.get('/u', list)".toList).statements,
    ∃ s' ∈ (readStatements .script
        "app.get<Map<string, (u: \x7b id: 'a>b' \x7d) => [A, B]>>('/u', list)".toList).statements,
    ∃ t ∈ (readStatements .script "api.route('/u').get (list) .post(save)".toList).statements,
    ∃ t' ∈ (readStatements .script
        "api.route<U>('/u').get (list) .post<A<B>>(save)".toList).statements,
      match? (context s') = match? (context s) ∧ match? (context t') = match? (context t) ∧
      match? (context s) = some
        [.fragment (some "app".toList) .get "/u".toList "list".toList (some "list".toList) 1 {}] ∧
      match? (context t) = some
        [.fragment (some "api".toList) .get "/u".toList "list".toList (some "list".toList) 1 {},
          .fragment (some "api".toList) .post "/u".toList "save".toList (some "save".toList) 1 {}] := by
  intro context
  let args : List Token := .code '(' :: .literal "'/u'".toList :: ", list)".toList.map .code
  let path : List Token := .code '(' :: .literal "'/u'".toList :: ")".toList.map .code
  obtain ⟨s, hs, hline, htokens, hmatch⟩ :
      ∃ s ∈ (readStatements .script "app.get('/u', list)".toList).statements,
      (s.startLine = 1 ∧ s.lineStarts = #[(0, 1)]) ∧
      s.tokens = ("app".toList ++ '.' :: "get".toList).map .code ++ args ∧
      match? (context s) = some
        [.fragment (some "app".toList) .get "/u".toList "list".toList (some "list".toList) 1 {}] := by
    decide +kernel
  obtain ⟨s', hs', hline', htokens'⟩ : ∃ s' ∈ (readStatements .script
      "app.get<Map<string, (u: \x7b id: 'a>b' \x7d) => [A, B]>>('/u', list)".toList).statements,
      (s'.startLine = 1 ∧ s'.lineStarts = #[(0, 1)]) ∧
      s'.tokens = ("app".toList ++ '.' :: "get".toList).map .code ++ (nestedTypes ++ args) := by
    decide +kernel
  obtain ⟨t, ht, hlineT, htokensT, hmatchT⟩ : ∃ t ∈ (readStatements .script
      "api.route('/u').get (list) .post(save)".toList).statements,
      (t.startLine = 1 ∧ t.lineStarts = #[(0, 1)]) ∧
      t.tokens = ("api".toList ++ '.' :: "route".toList).map .code ++
        (path ++ (typedLinks.flatMap (·.untyped.tokens) ++ [])) ∧
      match? (context t) = some
        [.fragment (some "api".toList) .get "/u".toList "list".toList (some "list".toList) 1 {},
          .fragment (some "api".toList) .post "/u".toList "save".toList (some "save".toList) 1 {}] := by
    decide +kernel
  obtain ⟨t', ht', hlineT', htokensT'⟩ : ∃ t' ∈ (readStatements .script
      "api.route<U>('/u').get (list) .post<A<B>>(save)".toList).statements,
      (t'.startLine = 1 ∧ t'.lineStarts = #[(0, 1)]) ∧
      t'.tokens = ("api".toList ++ '.' :: "route".toList).map .code ++
        ("<U>".toList.map .code ++ (path ++ (typedLinks.flatMap ChainLink.tokens ++ []))) := by
    decide +kernel
  have hcall : AddsTypeArgs "get".toList args (nestedTypes ++ args) := .call (by decide)
  have hchain : AddsTypeArgs "route".toList (path ++ (typedLinks.flatMap (·.untyped.tokens) ++ []))
      ("<U>".toList.map .code ++ (path ++ (typedLinks.flatMap ChainLink.tokens ++ []))) :=
    .chain rfl (.inr (by decide)) (by decide) isWritten_typedLinks
  refine ⟨s, hs, s', hs', t, ht, t', ht', ?_, ?_, hmatch, hmatchT⟩
  · exact match?_addsTypeArgs (c := context s) rfl (by decide) (by decide) (by decide)
      (Statement.onLine_of_lineStarts hline.1 hline.2)
      (Statement.onLine_of_lineStarts hline'.1 hline'.2) hcall htokens htokens'
  · exact match?_addsTypeArgs (c := context t) rfl (by decide) (by decide) (by decide)
      (Statement.onLine_of_lineStarts hlineT.1 hlineT.2)
      (Statement.onLine_of_lineStarts hlineT'.1 hlineT'.2) hchain htokensT htokensT'

end MemberCall

end EndpointCensus
