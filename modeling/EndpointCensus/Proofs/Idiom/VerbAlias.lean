import EndpointCensus.Proofs.Idiom.Registration
import EndpointCensus.Proofs.Idiom.Relocation

/-!
Verbs that are taken out of a router. A declaration that takes a router apart binds names to
its verbs, and a call of such a name registers what the call of the member registers: both
are read from the same glyphs behind the name, and the receiver was accepted and resolved
where the name was bound.
-/

namespace EndpointCensus

open Text

namespace Text

/-- An identifier ends where something follows that is no part of a name. -/
theorem identifier?_append {name rest : List Char} (hfirst : name.head?.any isNameStart = true)
    (hname : ∀ c ∈ name, isNamePart c = true) (hrest : rest.head?.any isNamePart = false) :
    identifier? (name ++ rest) = some (name, rest) := by
  obtain ⟨c, more, rfl, hc⟩ := exists_cons_of_head?_any hfirst
  have hmore : ∀ d ∈ more, isNamePart d = true := fun d hd => hname d (List.mem_cons_of_mem c hd)
  rw [List.cons_append, identifier?, if_pos hc, takeWhile_run hmore hrest, dropWhile_run hmore hrest]

/-- Name characters after the first one of a name make a dotted name without dots. -/
theorem isDottedName_of_parts {name : List Char} (hfirst : name.head?.any isNameStart = true)
    (hname : ∀ c ∈ name, isNamePart c = true) : isDottedName name = true := by
  have htail : ∀ cs : List Char, (∀ c ∈ cs, isNamePart c = true) → (dottedTail cs).2 = [] := by
    intro cs hcs
    induction cs with
    | nil => rfl
    | cons c cs ih =>
      obtain ⟨hc, hcs⟩ := List.forall_mem_cons.mp hcs
      rw [dottedTail, hc, if_pos (Bool.true_or _)]
      exact ih hcs
  exact isDottedName_iff.mpr ⟨hfirst, htail name hname⟩

end Text

namespace MemberCall

variable {c : Context} {e : Expr} {name owner verb receiver member : List Char} {rest : List Glyph}

theorem name_of_isAsciiName (h : isAsciiName name = true) :
    name.head?.any isNameStart = true ∧ (∀ d ∈ name, isNamePart d = true) ∧ '.' ∉ name := by
  obtain ⟨hfirst, hall⟩ := Bool.and_eq_true_iff.mp h
  have hparts : ∀ d ∈ name, isNamePart d = true := by
    intro d hd
    have hd := List.all_eq_true.mp hall d hd
    rw [Bool.or_eq_true] at hd
    rcases hd with hd | hd
    · rw [isNamePart, isWord_of_isAsciiWord hd, Bool.true_or]
    · rw [isNamePart, hd, Bool.or_true]
  refine ⟨hfirst, hparts, fun hdot => ?_⟩
  have hpart := hparts '.' hdot
  revert hpart
  decide

/-! ### Calls of members and of names -/

/-- The call of a member. -/
theorem registered?_member (hreceiver : isDottedName receiver = true)
    (hmember : isDottedName member = true) (hdot : '.' ∉ member)
    (hopens : opensCall (maskedText rest) = true)
    (h : e.glyphs = plainGlyphs (receiver ++ '.' :: member) ++ rest) : registered? c e =
      if acceptsReceiver c receiver then
        (ofCall? c e (ownerOf c receiver) (glyphWidth (plainGlyphs (receiver ++ '.' :: member)))).bind
          (·.register? member)
      else none := by
  have hname : callee? e.masked = some (receiver, member, maskedText rest) := by
    have hread :=
      dottedName?_append (isDottedName_member hreceiver hmember) (dottedTail_of_opensCall hopens)
    rw [callee?, Expr.masked_of_plainGlyphs h, hread]
    simp [splitLast?_append receiver hdot, hopens]
  have hfirst : e.chars 0 (Text.width receiver) = receiver := by
    have hchars := @Expr.chars_of_plainGlyphs e [] receiver ('.' :: member) rest h
    rwa [Text.width_nil, Nat.zero_add] at hchars
  have hsecond : e.chars (Text.width (receiver ++ '.' :: member) - Text.width member)
      (Text.width (receiver ++ '.' :: member)) = member := by
    have hchars :=
      @Expr.chars_of_plainGlyphs e (receiver ++ ['.']) member [] rest (by simpa using h)
    have hwidth : Text.width (receiver ++ '.' :: member) =
        Text.width (receiver ++ ['.']) + Text.width member := by
      simp [Nat.add_assoc]
    rwa [← hwidth, ← Nat.sub_eq_of_eq_add hwidth] at hchars
  rw [registered?, hname]
  dsimp only
  rw [Expr.offsetOf_append (Expr.masked_of_plainGlyphs h), hfirst, hsecond, glyphWidth_plainGlyphs]

/-- The call of a name that is bound to a verb. -/
theorem registered?_alias (hfirst : name.head?.any isNameStart = true)
    (hparts : ∀ d ∈ name, isNamePart d = true) (hdot : '.' ∉ name)
    (hopens : opensCall (maskedText rest) = true) (h : e.glyphs = plainGlyphs name ++ rest)
    (hlookup : c.verbAliases.lookup name = some ⟨owner, verb⟩) : registered? c e =
      (ofCall? c e owner (glyphWidth (plainGlyphs name))).bind fun m =>
        (verbMethod? verb).bind fun method => m.verbCall? method verb := by
  have hdotted := isDottedName_of_parts hfirst hparts
  have hcallee : callee? e.masked = none := by
    have hread := dottedName?_append hdotted (dottedTail_of_opensCall hopens)
    rw [callee?, Expr.masked_of_plainGlyphs h, hread]
    simp [splitLast?_eq_none hdot]
  have hname : identifier? e.masked = some (name, maskedText rest) := by
    rw [Expr.masked_of_plainGlyphs h]
    exact identifier?_append hfirst hparts (head?_of_opensCall hopens)
  have hbetween : e.between e.masked (maskedText rest) = name := by
    have hchars := @Expr.chars_of_plainGlyphs e [] name [] rest (by simpa using h)
    have hzero : e.offsetOf e.masked = 0 := by
      rw [Expr.offsetOf, Expr.masked, width_maskedText_eq]
      exact Nat.sub_self _
    rwa [Text.width_nil, Nat.zero_add, ← Expr.offsetOf_append (Expr.masked_of_plainGlyphs h),
      ← hzero] at hchars
  rw [registered?, hcallee]
  dsimp only
  rw [aliasCall?]
  simp [hname, hopens, hbetween, hlookup, Expr.offsetOf_append (Expr.masked_of_plainGlyphs h),
    glyphWidth_plainGlyphs]

/-- A statement that is the call of a member. -/
theorem match?_member {arguments : List Token} (hscript : c.language = .script)
    (hreceiver : isDottedName receiver = true) (hmember : isDottedName member = true)
    (hdot : '.' ∉ member) (hopens : opensCall (Token.maskedOf arguments) = true)
    (h : c.statement.tokens = (receiver ++ '.' :: member).map .code ++ arguments) : match? c =
      if acceptsReceiver c receiver then
        (ofCall? c c.expr (ownerOf c receiver)
          (glyphWidth (plainGlyphs (receiver ++ '.' :: member)))).bind (·.register? member)
      else none := by
  have hglyphs := c.glyphs_of_tokens h
  obtain ⟨mark, hmark, hcall⟩ :=
    opensWith_of_opensCall (parts_of_isDottedName (isDottedName_member hreceiver hmember)) hopens
  have hmasked : c.expr.masked = (receiver ++ '.' :: member) ++ Token.maskedOf arguments :=
    Expr.masked_of_plainGlyphs hglyphs
  rw [match?_of_opensWith hscript (hmasked ▸ hcall) hmark,
    registered?_member hreceiver hmember hdot hopens hglyphs]

/-- A statement that is the call of a name bound to a verb. -/
theorem match?_name {arguments : List Token} (hscript : c.language = .script)
    (hname : isAsciiName name = true) (hopens : opensCall (Token.maskedOf arguments) = true)
    (h : c.statement.tokens = name.map .code ++ arguments)
    (hlookup : c.verbAliases.lookup name = some ⟨owner, verb⟩) : match? c =
      (ofCall? c c.expr owner (glyphWidth (plainGlyphs name))).bind fun m =>
        (verbMethod? verb).bind fun method => m.verbCall? method verb := by
  have hglyphs := c.glyphs_of_tokens h
  obtain ⟨hfirst, hparts, hdot⟩ := name_of_isAsciiName hname
  obtain ⟨mark, hmark, hcall⟩ := opensWith_of_opensCall (fun d hd => .inl (hparts d hd)) hopens
  have hmasked : c.expr.masked = name ++ Token.maskedOf arguments :=
    Expr.masked_of_plainGlyphs hglyphs
  rw [match?_of_opensWith hscript (hmasked ▸ hcall) hmark,
    registered?_alias hfirst hparts hdot hopens hglyphs hlookup]

/-! ### Bindings -/

/-- The statement of a script takes a verb out of a receiver and binds a name to it. -/
structure Binds (c : Context) (name owner verb receiver : List Char) : Prop where
  script : c.language = .script
  dotted : isDottedName receiver = true
  takesApart : ∃ fields, destructured? c.expr = some (fields, receiver)
  emits : ∃ es, match? c = some es ∧ .verbAlias name owner verb ∈ es

theorem opensWith_of_destructured? {fields : List Char}
    (h : destructured? e = some (fields, receiver)) : OpensWith '\x7b' e.masked := by
  rw [destructured?] at h
  dsimp only at h
  obtain ⟨start, hstart, h⟩ := Option.bind_eq_some_iff.mp h
  obtain ⟨inner, hinner, -⟩ := Option.bind_eq_some_iff.mp h
  obtain ⟨word, hword, hafter⟩ := List.exists_of_findSome?_eq_some hstart
  obtain ⟨pad, hpad, rfl⟩ := (afterMark?_eq_some_iff (by decide)).mp hinner
  have hnames : ∀ w ∈ ["const", "let", "var"], IsNameText w := by decide
  exact ⟨by decide, word.toList, pad, inner, hnames word hword, hpad, after?_eq_some_iff.mp hafter⟩

/-- What a declaration binds is a verb of the receiver it accepts. -/
theorem Binds.cases (h : Binds c name owner verb receiver) : acceptsReceiver c receiver = true ∧
    owner = ownerOf c receiver ∧ (∃ method, verbMethod? verb = some method) ∧
    isAsciiName name = true := by
  obtain ⟨fields, hfields⟩ := h.takesApart
  obtain ⟨es, hes, hbinds⟩ := h.emits
  rw [match?_of_opensWith_brace h.script (opensWith_of_destructured? hfields), aliases?, hfields,
    Option.bind_eq_bind, Option.bind_some] at hes
  dsimp only at hes
  have hread (haccepts : acceptsReceiver c receiver = true) (v as : List Char)
      (h : (if (verbMethod? v).isSome && isAsciiName as
        then some (Emission.verbAlias as (ownerOf c receiver) v)
        else none) = some (.verbAlias name owner verb)) : acceptsReceiver c receiver = true ∧
      owner = ownerOf c receiver ∧ (∃ method, verbMethod? verb = some method) ∧
      isAsciiName name = true := by
    split at h
    · next hnames =>
      obtain ⟨hverb, hname⟩ := Bool.and_eq_true_iff.mp hnames
      obtain ⟨rfl, rfl, rfl⟩ := Emission.verbAlias.inj (Option.some.inj h)
      exact ⟨haccepts, rfl, Option.isSome_iff_exists.mp hverb, hname⟩
    · contradiction
  split at hes
  · contradiction
  · next haccepts =>
    split at hes
    · contradiction
    · next emissions hne =>
      obtain rfl := Option.some.inj hes
      obtain ⟨field, -, hfield⟩ := List.mem_filterMap.mp hbinds
      split at hfield <;> exact hread (by simpa using haccepts) _ _ hfield

variable {c₀ : Context} {s s' : Statement} {line : Nat}

/-- The call of a name that was bound to a verb registers what the call of the
receiver's member registers. -/
theorem match?_alias {arguments : List Token} (hbinds : Binds c₀ name owner verb receiver)
    (hscript : c.language = .script) (hrouters : ∀ router, router ∈ c.routers ↔ router ∈ c₀.routers)
    (hlookup : c.verbAliases.lookup name = some ⟨owner, verb⟩) (hs : s.OnLine line)
    (hs' : s'.OnLine line) (hopens : opensCall (Token.maskedOf arguments) = true)
    (halias : s.tokens = name.map .code ++ arguments)
    (hmember : s'.tokens = (receiver ++ '.' :: verb).map .code ++ arguments) :
    match? (c.withStatement s) = match? (c.withStatement s') := by
  obtain ⟨haccepts, howner, ⟨method, hverb⟩, hname⟩ := hbinds.cases
  obtain ⟨hverbName, hverbDot, hroute, huse⟩ := verb_name hverb
  have hcontains (router : List Char) : c.routers.contains router = c₀.routers.contains router := by
    rw [Bool.eq_iff_iff, List.contains_iff_mem, List.contains_iff_mem, hrouters]
  have haccepts' : acceptsReceiver (c.withStatement s') receiver = true := by
    rw [acceptsReceiver, Context.withStatement, hcontains]
    exact haccepts
  have howner' : ownerOf (c.withStatement s') receiver = owner := by
    rw [howner, ownerOf, ownerOf]
    simp only [Context.withStatement, hcontains]
  have hcall : match? (c.withStatement s) = _ := match?_name hscript hname hopens halias hlookup
  have hcall' : match? (c.withStatement s') = _ :=
    match?_member hscript hbinds.dotted hverbName hverbDot hopens hmember
  rw [hcall, hcall', if_pos haccepts', howner']
  have hglyphs := (c.withStatement s).glyphs_of_tokens halias
  have hglyphs' := (c.withStatement s').glyphs_of_tokens hmember
  refine ofCall?_congr (c.onOneLine hs hs') hglyphs hglyphs' (fun m m' hmoved hm => ?_) owner
  have hlanguage : m'.context.language = .script := by
    rw [← hmoved.context.language, hm]
    exact hscript
  rw [hverb, Option.bind_some, hmoved.verbCall?, register?, hlanguage]
  simp [hroute, huse, hverb]

/-- A verb of an application's router under another name, called with type arguments. -/
theorem match?_alias_read :
    let context := fun (s : Statement) (aliases : List (List Char × VerbAlias)) =>
      (⟨.script, s, [], none, ["api".toList], aliases, .empty "app.js".toList .script⟩ : Context)
    ∃ s₀ ∈ (readStatements .script "const { get: read, post } = api.router;".toList).statements,
    ∃ s ∈ (readStatements .script "read<User[]>('/users', list)".toList).statements,
    ∃ s' ∈ (readStatements .script "api.router.get<User[]>('/users', list)".toList).statements,
      Binds (context s₀ []) "read".toList "api".toList "get".toList "api.router".toList ∧
      match? (context s [("read".toList, ⟨"api".toList, "get".toList⟩)]) =
        match? (context s' [("read".toList, ⟨"api".toList, "get".toList⟩)]) ∧
      match? (context s [("read".toList, ⟨"api".toList, "get".toList⟩)]) =
        some [.fragment (some "api".toList) .get "/users".toList "list".toList
          (some "list".toList) 1 {}] := by
  intro context
  obtain ⟨s₀, hs₀, htakes, hemits⟩ : ∃ s₀ ∈
      (readStatements .script "const { get: read, post } = api.router;".toList).statements,
      destructured? (context s₀ []).expr = some (" get: read, post ".toList, "api.router".toList) ∧
        match? (context s₀ []) = some [.verbAlias "read".toList "api".toList "get".toList,
          .verbAlias "post".toList "api".toList "post".toList] := by
    decide +kernel
  obtain ⟨s, hs, hline, htokens, hmatch⟩ :
      ∃ s ∈ (readStatements .script "read<User[]>('/users', list)".toList).statements,
      (s.startLine = 1 ∧ s.lineStarts = #[(0, 1)]) ∧ s.tokens = "read".toList.map .code ++
        ("<User[]>(".toList.map .code ++ .literal "'/users'".toList :: ", list)".toList.map .code) ∧
      match? (context s [("read".toList, ⟨"api".toList, "get".toList⟩)]) =
        some [.fragment (some "api".toList) .get "/users".toList "list".toList
          (some "list".toList) 1 {}] := by
    decide +kernel
  obtain ⟨s', hs', hline', htokens'⟩ : ∃ s' ∈
      (readStatements .script "api.router.get<User[]>('/users', list)".toList).statements,
      (s'.startLine = 1 ∧ s'.lineStarts = #[(0, 1)]) ∧
        s'.tokens = ("api.router".toList ++ '.' :: "get".toList).map .code ++
          ("<User[]>(".toList.map .code ++ .literal "'/users'".toList ::
            ", list)".toList.map .code) := by
    decide +kernel
  have hbinds : Binds (context s₀ []) "read".toList "api".toList "get".toList "api.router".toList :=
    ⟨rfl, by decide, ⟨_, htakes⟩, ⟨_, hemits, List.mem_cons_self⟩⟩
  have hlookup : [("read".toList, (⟨"api".toList, "get".toList⟩ : VerbAlias))].lookup "read".toList =
      some ⟨"api".toList, "get".toList⟩ := by decide
  refine ⟨s₀, hs₀, s, hs, s', hs', hbinds, ?_, hmatch⟩
  exact match?_alias (c := context s [("read".toList, ⟨"api".toList, "get".toList⟩)]) hbinds rfl
    (fun _ => Iff.rfl) hlookup (Statement.onLine_of_lineStarts hline.1 hline.2)
    (Statement.onLine_of_lineStarts hline'.1 hline'.2) (by decide) htokens htokens'

end MemberCall

end EndpointCensus
