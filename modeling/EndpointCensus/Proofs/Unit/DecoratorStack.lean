import EndpointCensus.Proofs.Idiom.RouteArguments
import EndpointCensus.Proofs.Unit.Enclosure

/-!
Stacks of decorators. Each route decorator of a stack above a function makes fragments of its
own, one for each method that it names, whatever the other decorators of the stack are: its
target is found behind those below it, and the scope that gives the symbol its class is not
touched by those above it.
-/

namespace EndpointCensus

open Text

/-! ### Functions below a stack -/

namespace Statement

/-- The statement begins with the heading of a function: `def` or `async def`, a
name and a parenthesis. -/
def DeclaresFunction (s : Statement) (name : List Char) : Prop :=
  ∃ (lead gap pad : List Char) (rest : List Token),
    (lead = [] ∨ ∃ g, IsGap g ∧ lead = "async".toList ++ g) ∧ IsGap gap ∧
      (∀ c ∈ pad, isBlank c = true) ∧ name.head?.any isWordStart = true ∧
      (∀ c ∈ name, isWord c = true) ∧
      s.tokens = (lead ++ ("def".toList ++ (gap ++ (name ++ pad)))).map .code ++ .code '(' :: rest

variable {s : Statement} {name : List Char}

theorem DeclaresFunction.defName? (h : s.DeclaresFunction name) : s.defName? = some name := by
  obtain ⟨lead, gap, pad, rest, hlead, hgap, hpad, hfirst, hname, htokens⟩ := h
  obtain ⟨c, more, rfl, hc⟩ := exists_cons_of_head?_any hfirst
  have hglyphs := glyphs_of_tokens htokens
  have hparen : trimStart (pad ++ '(' :: Token.maskedOf rest) = '(' :: Token.maskedOf rest :=
    dropWhile_run hpad rfl
  generalize hbehind : pad ++ '(' :: Token.maskedOf rest = behind at hparen
  have hmasked : (Expr.ofStatement s).masked =
      lead ++ ("def".toList ++ (gap ++ (c :: more ++ behind))) := by
    have hshown : maskedText (Token.glyphsOf (.code '(' :: rest)) = '(' :: Token.maskedOf rest :=
      rfl
    rw [Expr.masked_of_plainGlyphs hglyphs, hshown, ← hbehind]
    simp
  have hstart : afterWord? ["def"] ((afterWord? ["async"] (Expr.ofStatement s).masked).getD
      (Expr.ofStatement s).masked) = some (c :: more ++ behind) := by
    have hdef :=
      @afterWord?_gap "def" _ (c :: more ++ behind) hgap
        (isBlank_of_isWord (hname c List.mem_cons_self))
    rcases hlead with rfl | ⟨g, hg, rfl⟩
    · rw [hmasked]
      exact hdef
    · rw [hmasked, List.append_assoc, afterWord?_gap "async" hg rfl]
      exact hdef
  have hword : word? (c :: more ++ behind) = some (c :: more, behind) := by
    have hend : behind.head?.any isWord = false := by
      rw [← hbehind]
      cases pad with
      | nil => rfl
      | cons d pad => exact isWord_of_isBlank (hpad d List.mem_cons_self)
    have hmore : ∀ d ∈ more, isWord d = true := fun d hd => hname d (List.mem_cons_of_mem c hd)
    rw [List.cons_append, word?, if_pos hc, takeWhile_run hmore hend, dropWhile_run hmore hend]
  have hbetween : (Expr.ofStatement s).between (c :: more ++ behind) behind = c :: more := by
    have hfront : (Expr.ofStatement s).glyphs =
        plainGlyphs ((lead ++ ("def".toList ++ gap)) ++ (c :: more ++ pad)) ++
          Token.glyphsOf (.code '(' :: rest) := by
      rw [hglyphs]
      simp
    have hfirst : (Expr.ofStatement s).offsetOf (c :: more ++ behind) =
        Text.width (lead ++ ("def".toList ++ gap)) :=
      Expr.offsetOf_append (by rw [hmasked]; simp)
    have hlast : (Expr.ofStatement s).offsetOf behind =
        Text.width (lead ++ ("def".toList ++ gap)) + Text.width (c :: more) := by
      rw [← Text.width_append]
      exact Expr.offsetOf_append (by rw [hmasked]; simp)
    rw [Expr.between, hfirst, hlast, Expr.chars_of_plainGlyphs hfront]
  rw [Statement.defName?, hstart, Option.bind_eq_bind, Option.bind_some, hword, Option.bind_eq_bind,
    Option.bind_some]
  dsimp only
  rw [hparen, hbetween]
  rfl

theorem DeclaresFunction.isDecorator (h : s.DeclaresFunction name) : s.isDecorator = false := by
  obtain ⟨lead, gap, pad, rest, hlead, -, -, -, -, htokens⟩ := h
  rw [Statement.isDecorator, Expr.isDecorator, Expr.masked_of_plainGlyphs (glyphs_of_tokens htokens)]
  rcases hlead with rfl | ⟨g, -, rfl⟩ <;> rfl

end Statement

/-- The declaration below a stack of decorators is found from each of them. -/
theorem decoratedBy?_stack {indent : Nat} {stack rest : List Statement} {f : Statement}
    {name : List Char} (hstack : ∀ s ∈ stack, s.indent = indent ∧ s.isDecorator = true)
    (hindent : f.indent = indent) (hf : f.DeclaresFunction name) :
    decoratedBy? indent (stack ++ f :: rest) = some ⟨name, false⟩ := by
  induction stack with
  | nil =>
    rw [List.nil_append, decoratedBy?, hindent, if_neg (by simp), hf.isDecorator,
      if_neg Bool.false_ne_true, hf.defName?]
  | cons s stack ih =>
    obtain ⟨hs, hstack⟩ := List.forall_mem_cons.mp hstack
    rw [List.cons_append, decoratedBy?, hs.1, if_neg (by simp), if_pos hs.2]
    exact ih hstack

/-! ### Symbols -/

/-- The symbol of a function, by the innermost scope around it: a member of a
class, or its bare name. -/
def symbolWithin (scope : Option Scope) (name : List Char) : List Char :=
  match scope with
  | some scope => if scope.kind == .classBody then scope.name ++ '.' :: name else name
  | none => name

theorem Reading.qualify_context (language : Language) (r : Reading) (s : Statement)
    (rest : List Statement) (name : List Char) :
    (r.context language s rest).qualify name = symbolWithin r.scopes.head? name := by
  rw [Context.qualify, Reading.context, Reading.owner?]
  cases r.scopes with
  | nil => rfl
  | cons scope scopes =>
    obtain ⟨indent, owner, kind⟩ := scope
    cases kind <;> rfl

/-! ### Fragments -/

/-- What a decorator is read as comes before what other idioms read. -/
theorem matches_decoratorCall {c : Context} {es : List Emission} (hpython : c.language = .python)
    (hmatch : Decorator.match? c = some es) (hne : es ≠ []) :
    ∃ others, c.matches = (.decoratorCall, es) :: others := by
  have hdecorator : Idiom.match? .decoratorCall c = some es := by
    rw [Idiom.match?, hpython]
    dsimp only
    rw [hmatch, Option.filter_some, if_pos (by simpa using hne)]
  have hall : Idiom.all.filter (·.appliesTo c.language) =
      [.decoratorCall, .urlPattern, .resourceRegistration, .classMethods, .callRegistration] := by
    rw [hpython]
    rfl
  rw [Context.matches, hall, List.filterMap_cons, hdecorator]
  exact ⟨_, rfl⟩

/-- A route decorator above a function adds one sighting for each method that it names. -/
theorem Reading.sighted_routeDecorator {u : SourceUnit} {r : Reading} {s : Statement}
    {rest : List Statement} {d : RouteDecorator} {name : List Char} (hpython : u.language = .python)
    (himports : r.imports.language = .python) (hd : d.IsWritten) (hs : s.tokens = d.tokens)
    (htarget : decoratedBy? s.indent rest = some ⟨name, false⟩) :
    r.sighted u s rest = d.methods.map fun method => (r.arriveAt u s).sighting .decoratorCall
      (d.emission (symbolWithin (r.arriveAt u s).scopes.head? name) name s.startLine method) := by
  have hhead : s.masked.head? = some '@' := by
    have hmasked : (Expr.ofStatement s).masked = s.masked := rfl
    rw [← hmasked, Expr.masked_of_plainGlyphs (Statement.glyphs_of_tokens hs)]
    rfl
  have hscan : (r.imports.scan s).2 = false := by
    rw [ImportTable.scan_python himports, Statement.scanPython_of_head? hhead (by decide)
      (by decide) (by decide)]
  let c := (r.arriveAt u s).context .python s rest
  have hmatch : Decorator.match? c = _ := Decorator.match?_written hd hs htarget
  obtain ⟨others, hmatches⟩ :=
    matches_decoratorCall rfl hmatch (by simp [RouteDecorator.methods_ne_nil])
  have hsighted : (d.methods.map (d.emission (c.qualify name) name c.line)).filter
      Emission.isSighted = d.methods.map (d.emission (c.qualify name) name c.line) :=
    List.filter_eq_self.mpr (List.forall_mem_map.mpr fun _ _ => rfl)
  rw [Reading.sighted, hscan, if_neg Bool.false_ne_true, hpython, hmatches]
  dsimp only
  rw [hsighted, List.map_map, qualify_context]
  rfl

/-- The fragment without the reference of its receiver. -/
def Fragment.unkeyed (f : Fragment) : Fragment := { f with key := none }

namespace SourceUnit

variable {u : SourceUnit}

/-- A route decorator above a function makes one fragment for each method that it names, wherever
it stands in its stack. -/
theorem fragmentsOf_routeDecorator (hpython : u.language = .python) (flag : Bool)
    {before above below after : List Statement} {s f : Statement} {d : RouteDecorator}
    {name : List Char}
    (hstatements : (readStatements u.language u.text.toList).statements =
      before ++ (above ++ s :: (below ++ f :: after)))
    (hstack : ∀ x ∈ above ++ s :: below, x.indent = f.indent ∧ x.isDecorator = true)
    (hf : f.DeclaresFunction name) (hd : d.IsWritten) (hs : s.tokens = d.tokens) :
    (u.fragmentsOf flag (before ++ above) s (below ++ f :: after)).map Fragment.unkeyed =
      d.methods.map fun method => {
        method, path := stored d.path
        symbol := stored (symbolWithin (enclosing? f.indent before.reverse) name),
        action := some (stored name)
        idiom := .decoratorCall, location := ⟨u.identity, s.startLine⟩, metadata := d.metadata,
        key := none } := by
  obtain ⟨habove, hstack⟩ := List.forall_mem_append.mp hstack
  obtain ⟨⟨hindent, -⟩, hbelow⟩ := List.forall_mem_cons.mp hstack
  generalize hrest : below ++ f :: after = rest at hstatements
  let r := u.readingBefore flag (before ++ above) (s :: rest)
  have htarget : decoratedBy? s.indent rest = some ⟨name, false⟩ := by
    rw [← hrest]
    exact decoratedBy?_stack (fun x hx => ⟨(hbelow x hx).1.trans hindent.symm, (hbelow x hx).2⟩)
      hindent.symm hf
  have hscope : (r.arriveAt u s).scopes.head? = enclosing? f.indent before.reverse := by
    have hinner : ∀ x ∈ above.reverse, f.indent ≤ x.indent :=
      fun x hx => (habove x (List.mem_reverse.mp hx)).1.ge
    rw [head?_arriveAt hpython, List.reverse_append, hindent, enclosing?_append hinner]
  have hsighted : r.sighted u s rest = _ :=
    Reading.sighted_routeDecorator hpython (language_readingBefore hpython flag _ _) hd hs htarget
  rw [hscope] at hsighted
  have hkind : (r.sighted u s rest).filter (fun s => s.emission.isFragment) =
      r.sighted u s rest := by
    rw [hsighted]
    exact List.filter_eq_self.mpr (List.forall_mem_map.mpr fun _ _ => rfl)
  have hfragments : List.Forall₂ _ ((r.sighted u s rest).filter fun s => s.emission.isFragment) _ :=
    forall₂_fragmentsOf flag (hstatements.trans (List.append_assoc _ _ _).symm)
  rw [hkind, hsighted, List.forall₂_map_left_iff] at hfragments
  rw [← List.forall₂_eq_eq_eq, List.forall₂_map_left_iff, List.forall₂_map_right_iff]
  refine (hfragments.imp fun method x hx => ?_).flip
  exact (congrArg Fragment.unkeyed (Option.some.inj hx.fields)).symm

/-- A unit of Python. -/
def pythonUnit (text : String) : SourceUnit := ⟨"a.py", .python, text⟩

/-- A member of a class below three decorators, the second one over two lines and a
comment before the third. -/
def stackUnit : SourceUnit :=
  pythonUnit ("class A:\n  @log\n  @app.route('/b', methods=['GET',\n    'post'])\n\n" ++
    "  # listed\n  @app.get('/a')\n  async def f(self):\n    pass\n")

theorem fragmentsOf_routeDecorator_second : ∃ before above s below f after,
    (readStatements .python stackUnit.text.toList).statements =
      before ++ (above ++ s :: (below ++ f :: after)) ∧ above.length = 1 ∧ below.length = 1 ∧
      (stackUnit.fragmentsOf true (before ++ above) s (below ++ f :: after)).map Fragment.unkeyed =
        [.get, .post].map fun method => ⟨method, "/b", "A.f", some "f", .decoratorCall, ⟨"a.py", 3⟩,
          {}, none⟩ := by
  let code (text : String) : List Token := text.toList.map .code
  let d : RouteDecorator :=
    ⟨[], "app".toList, "route".toList, [], .code '(' :: .literal "'/b'".toList ::
      (code ", methods=[" ++ .literal "'GET'".toList ::
        (code ", " ++ .literal "'post'".toList :: code "])"))⟩
  have hread : (readStatements .python stackUnit.text.toList).statements.map
      (fun s => (s.indent, s.startLine, s.isDecorator, s.scope?, s.tokens)) = [
      (0, 1, false, some ⟨0, "A".toList, .classBody⟩, code "class A:"),
      (2, 2, true, none, code "@log"), (2, 3, true, none, d.tokens),
      (2, 7, true, none, code "@app.get(" ++ .literal "'/a'".toList :: code ")"),
      (2, 8, false, some ⟨2, "f".toList, .functionBody⟩, code "async def f(self):"),
        (4, 9, false, none, code "pass")] := by
    have htext : stackUnit.text = String.ofList _ ++ String.ofList _ := rfl
    rw [htext, String.toList_append, String.toList_ofList, String.toList_ofList]
    decide +kernel
  obtain ⟨a, rest, hstatements, ha, hread⟩ := List.map_eq_cons_iff.mp hread
  obtain ⟨log, rest, rfl, hlog, hread⟩ := List.map_eq_cons_iff.mp hread
  obtain ⟨s, rest, rfl, hs, hread⟩ := List.map_eq_cons_iff.mp hread
  obtain ⟨get, rest, rfl, hget, hread⟩ := List.map_eq_cons_iff.mp hread
  obtain ⟨f, rest, rfl, hf, hread⟩ := List.map_eq_cons_iff.mp hread
  simp only [Prod.mk.injEq] at ha hlog hs hget hf
  obtain ⟨haindent, -, -, hscope, -⟩ := ha
  obtain ⟨hlogindent, -, hlogmark, -⟩ := hlog
  obtain ⟨hsindent, hsline, hsmark, -, hstokens⟩ := hs
  obtain ⟨hgetindent, -, hgetmark, -⟩ := hget
  obtain ⟨hfindent, -, -, -, hftokens⟩ := hf
  have hstack : ∀ x ∈ [log] ++ s :: [get], x.indent = f.indent ∧ x.isDecorator = true := by
    simp [hlogindent, hsindent, hgetindent, hfindent, hlogmark, hsmark, hgetmark]
  have hall {p : Char → Bool} {cs : List Char} (h : cs.all p = true) : ∀ c ∈ cs, p c = true :=
    List.all_eq_true.mp h
  have hfunction : f.DeclaresFunction "f".toList :=
    ⟨"async ".toList, " ".toList, [], code "self):", .inr ⟨" ".toList, ⟨by decide, hall rfl⟩, rfl⟩,
      ⟨by decide, hall rfl⟩, hall rfl, by decide, hall rfl, hftokens⟩
  have hd : d.IsWritten := ⟨hall rfl, by decide, .inr (.inl rfl), hall rfl, .inr (by decide)⟩
  have hfragments :=
    @fragmentsOf_routeDecorator stackUnit rfl true [a] [log]
      [get] rest s f d _ hstatements hstack hfunction hd hstokens
  have harguments : d.arguments = RouteDecorator.literalArguments (.quoted "/b".toList)
      (some [.quoted "GET".toList, .quoted "post".toList]) := by decide +kernel
  have hpath : (Quotation.quoted "/b".toList).IsWritten :=
    Quotation.isWritten_quoted (by decide) (by decide) (by decide)
  have hlisted : ∀ qs ∈ some [Quotation.quoted "GET".toList, .quoted "post".toList],
      ∀ q ∈ qs, q.IsWritten := by
    rintro _ ⟨⟩ q hq
    obtain rfl | rfl := List.mem_pair.mp hq
    all_goals exact Quotation.isWritten_quoted (by decide) (by decide) (by decide)
  have hmethods : d.methods = [.get, .post] :=
    (RouteDecorator.methods_literal harguments hpath hlisted (by decide)).trans (by decide)
  have hclass : symbolWithin (enclosing? f.indent [a].reverse) "f".toList = "A.f".toList := by
    simp [enclosing?, symbolWithin, haindent, hfindent, hscope]
  refine ⟨[a], [log], s, [get], f, rest, hstatements, rfl, rfl, ?_⟩
  rw [hfragments, hmethods, RouteDecorator.path_literal harguments hpath hlisted,
    RouteDecorator.metadata_literal harguments hpath hlisted, hclass, hsline]
  rfl

def seenFragments (text : String) : List (Method × String × String × Nat) :=
  ((pythonUnit text).report true).fragments.map fun f =>
    (f.method, f.path, f.symbol, f.location.line)

/-- Where a route decorator does not make just one fragment for each method, under the
symbol of its function. -/
theorem seenFragments_ne :
    -- A method that is listed twice is registered twice.
    seenFragments "@app.route('/x', methods=['GET', 'get'])\ndef f(): pass\n" =
      [(.get, "/x", "f", 1), (.get, "/x", "f", 1)] ∧
    -- Names of receivers and of functions begin with ASCII letters.
    seenFragments "@é.get('/x')\ndef f(): pass\n" = [] ∧
    seenFragments "@app.get('/x')\ndef é(): pass\n" = [] ∧
    -- A heading with type parameters opens no scope.
    seenFragments "class A[T]:\n  @app.get('/x')\n  def f(self): pass\n" = [(.get, "/x", "f", 2)] ∧
    seenFragments "class A:\n  def g[T](self):\n    @app.get('/x')\n    def f(): pass\n" =
      [(.get, "/x", "A.f", 3)] := by
  -- The characters of a text are given as they are, since decoding it takes most of the evaluation.
  have hchars {text : String} {cs : List Char} {seen : List (Method × String × String × Nat)}
      (htext : text = String.ofList cs) (h : seenFragments (String.ofList cs) = seen) :
      seenFragments text = seen := by
    rwa [htext]
  have htext (cs : List Char) : (pythonUnit (String.ofList cs)).text.toList = cs :=
    String.toList_ofList
  refine ⟨hchars rfl ?_, hchars rfl ?_, hchars rfl ?_, hchars rfl ?_, hchars rfl ?_⟩
  all_goals
    rw [seenFragments, report, htext]
    decide +kernel

end SourceUnit

end EndpointCensus
