import EndpointCensus.Idiom.MemberCall
import EndpointCensus.Proofs.Expr.Behind

/-!
Calls that are written elsewhere. What the call of a member registers is told by its receiver, by
what its arguments and its tail show and by what is known around the statement. Where on the line
the call stands plays no part.
-/

namespace EndpointCensus

namespace Expr

variable {x y : Expr}

theorem pathOf_congr (h : x.glyphs = y.glyphs) : pathOf (some x) = pathOf (some y) := by
  rw [pathOf, pathOf, stringValue?_congr h, text_congr h]

/-- What a call shows, wherever it stands. -/
def lookOfCall (c : Call) : List Char × List (Option (List Char) × List Glyph) :=
  (c.callee, c.args.look)

theorem call?_congr (h : x.glyphs = y.glyphs) :
    x.call?.map lookOfCall = y.call?.map lookOfCall := by
  have hprefix : x.callPrefix?.map (fun c => (lookOfCall c, c.args.stop)) =
      y.callPrefix?.map fun c => (lookOfCall c, c.args.stop) := by
    rw [callPrefix?, callPrefix?, masked_congr h]
    cases callHead? y.masked with
    | none => rfl
    | some head =>
      obtain ⟨start, stop, paren⟩ := head
      have hargs :=
        congrArg (Option.map fun a => ((y.chars start stop, a.1), a.2))
          (argsIn?_congr h y.masked paren)
      dsimp only
      rw [chars_congr h, Option.map_map, Option.map_map]
      rwa [Option.map_map, Option.map_map] at hargs
  have hfiltered (z : Expr) : z.call?.map lookOfCall =
      ((z.callPrefix?.map fun c => (lookOfCall c, c.args.stop)).filter (·.2 == z.width)).map
        Prod.fst := by
    rw [call?]
    cases z.callPrefix? with
    | none => rfl
    | some c =>
      simp only [Option.filter_some, Option.map_some]
      split <;> rfl
  rw [hfiltered, hfiltered, hprefix, width_congr h]

end Expr

/-! ### One line -/

/-- All of the statement stands on the line. -/
structure Statement.OnLine (line : Nat) (s : Statement) : Prop where
  startLine : s.startLine = line
  lineAt : ∀ offset, s.lineAt offset = line

theorem Statement.onLine_of_lineStarts {line : Nat} {s : Statement} (hstart : s.startLine = line)
    (hlines : s.lineStarts = #[(0, line)]) : s.OnLine line := by
  refine ⟨hstart, fun offset => ?_⟩
  rw [Statement.lineAt, hlines]
  have hsize : (#[(0, line)] : Array (Nat × Nat)).size = 1 := rfl
  have hfirst : Statement.halve #[(0, line)] offset 0 1 = 0 := by
    rw [Statement.halve, if_neg (by omega)]
  rw [hsize, hfirst]
  rfl

/-- The two contexts differ in their statements, which stand on the same line, and in
what calls do not look at. -/
structure Context.OnOneLine (c c' : Context) : Prop where
  language : c.language = c'.language
  routers : c.routers = c'.routers
  imports : c.imports = c'.imports
  line : c.line = c'.line
  lineAt : ∀ o o', c.statement.lineAt o = c'.statement.lineAt o'

def Context.withStatement (c : Context) (s : Statement) : Context := { c with statement := s }

theorem Context.onOneLine {s s' : Statement} {line : Nat} (h : s.OnLine line) (h' : s'.OnLine line)
    (c : Context) : (c.withStatement s).OnOneLine (c.withStatement s') where
  language := rfl
  routers := rfl
  imports := rfl
  line := h.startLine.trans h'.startLine.symm
  lineAt o o' := (h.lineAt o).trans (h'.lineAt o').symm

/-! ### Calls -/

namespace MemberCall

open Text

/-- The verb of a link and the byte at which it ends. -/
def linkHead? (e : Expr) : Option (List Char × Nat) :=
  (after? "." e.masked).bind fun rest => (identifier? (trimStart rest)).map fun r =>
    (e.between (trimStart rest) r.2, e.offsetOf r.2)

theorem linkHead?_congr {x y : Expr} (h : x.glyphs = y.glyphs) : linkHead? x = linkHead? y := by
  have hoffset (rest : List Char) : x.offsetOf rest = y.offsetOf rest := by
    rw [Expr.offsetOf, Expr.offsetOf, Expr.width_congr h]
  simp only [linkHead?, Expr.masked_congr h, Expr.between, hoffset, Expr.chars_congr h]

/-- One link of a chain and those behind it. -/
theorem chainFrom?_succ (m : MemberCall) (path : List Char) (fuel : Nat) (e : Expr) :
    m.chainFrom? path (fuel + 1) e = if e.isEmpty then some [] else
      (linkHead? e).bind fun head => (e.callOpen? head.2).bind fun paren =>
        (e.argsAt? paren).bind fun args =>
        (verbMethod? head.1).bind fun method =>
          (m.chainFrom? path fuel (e.tail args.stop)).bind fun links =>
          some (m.fragments [method] path (m.symbolOf args.positionals head.1)
            (m.context.statement.lineAt e.offset) {} ++ links) := by
  rw [MemberCall.chainFrom?, linkHead?]
  split
  · rfl
  · cases after? "." e.masked with
    | none => rfl
    | some rest =>
      cases hname : identifier? (trimStart rest) with
      | none => simp [hname]
      | some r => simp [hname, Option.bind_assoc]

/-- Calls of one receiver, with the same known around them. -/
structure Related (m m' : MemberCall) : Prop where
  context : m.context.OnOneLine m'.context
  receiver : m.receiver = m'.receiver

/-- The same call elsewhere. -/
structure Moved (m m' : MemberCall) : Prop extends Related m m' where
  args : m.args.look = m'.args.look
  tail : m.tail.glyphs = m'.tail.glyphs

variable {m m' : MemberCall} {x y : Expr}

namespace Related

theorem line (h : Related m m') : m.line = m'.line := h.context.line

theorem fragments (h : Related m m') (methods : List Method) (path symbol : List Char) (line : Nat)
    (metadata : Metadata) :
    m.fragments methods path symbol line metadata =
      m'.fragments methods path symbol line metadata := by
  rw [MemberCall.fragments, MemberCall.fragments, h.receiver]

theorem symbolOf (h : Related m m') {xs ys : List Expr}
    (hxs : xs.map Expr.glyphs = ys.map Expr.glyphs) (verb : List Char) :
    m.symbolOf xs verb = m'.symbolOf ys verb := by
  have hname : xs.getLast?.bind Expr.namePath? = ys.getLast?.bind Expr.namePath? :=
    bind_congr_of_map (getLast?_congr_of_map hxs) fun _ _ _ _ => Expr.namePath?_congr
  rw [MemberCall.symbolOf, MemberCall.symbolOf, h.receiver, hname]

/-- Links of a chain are read alike, and no more of them than there are glyphs. -/
theorem chainFrom? (h : Related m m') (path : List Char) {fuel fuel' : Nat}
    (hxy : x.glyphs = y.glyphs) (hfuel : x.glyphs.length < fuel)
    (hfuel' : y.glyphs.length < fuel') : m.chainFrom? path fuel x = m'.chainFrom? path fuel' y := by
  induction fuel generalizing fuel' x y with
  | zero => contradiction
  | succ fuel ih =>
    obtain ⟨fuel', rfl⟩ : ∃ n, fuel' = n + 1 := ⟨fuel' - 1, by omega⟩
    rw [chainFrom?_succ, chainFrom?_succ, Expr.isEmpty_congr hxy, linkHead?_congr hxy]
    split
    · rfl
    · next hempty =>
      have hne : y.glyphs ≠ [] := fun hnil => hempty (List.isEmpty_iff.mpr hnil)
      refine congrArg _ (funext fun head => ?_)
      rw [Expr.callOpen?_congr hxy]
      refine congrArg _ (funext fun paren => ?_)
      refine bind_congr_of_map (Expr.argsAt?_congr hxy paren) fun args args' hargs hargs' hsame =>
        ?_
      obtain ⟨hlook, hstop⟩ := Prod.mk.inj hsame
      have hshorter := Expr.length_tail_lt (Expr.stop_pos_of_argsAt? hargs) (hxy ▸ hne)
      have hshorter' := Expr.length_tail_lt (Expr.stop_pos_of_argsAt? hargs') hne
      have htail : (x.tail args.stop).glyphs = (y.tail args'.stop).glyphs := by
        rw [hstop]
        exact Expr.tail_congr hxy _
      rw [@ih _ _ fuel' htail (by omega) (by omega), h.symbolOf (Args.positionals_congr hlook),
        h.context.lineAt x.offset y.offset]
      simp only [h.fragments]

end Related

namespace Moved

theorem positional? (h : Moved m m') (n : Nat) :
    (m.args.positional? n).map Expr.glyphs = (m'.args.positional? n).map Expr.glyphs :=
  Args.positional?_congr h.args n

theorem handlers? (h : Moved m m') (method : Method) :
    (m.handlers? method).map (·.map Expr.glyphs) =
      (m'.handlers? method).map (·.map Expr.glyphs) := by
  have hgiven : (m.args.positionals.drop 1).map Expr.glyphs =
      (m'.args.positionals.drop 1).map Expr.glyphs := by
    rw [List.map_drop, List.map_drop, Args.positionals_congr h.args]
  have hempty : (m.args.positionals.drop 1).isEmpty = (m'.args.positionals.drop 1).isEmpty := by
    have hlook := congrArg List.isEmpty hgiven
    rwa [List.isEmpty_map, List.isEmpty_map] at hlook
  rw [MemberCall.handlers?, MemberCall.handlers?, Expr.isEmpty_congr h.tail]
  split
  · dsimp only
    rw [hempty, h.context.language]
    split
    · rfl
    · exact congrArg some hgiven
  · simp only [Option.bind_eq_bind, Option.map_bind]
    refine bind_congr_of_map (Expr.argsAt?_congr h.tail 0) fun inner inner' _ _ hinner => ?_
    obtain ⟨hlook, hstop⟩ := Prod.mk.inj hinner
    have hbehind : (m.tail.tail inner.stop).isEmpty = (m'.tail.tail inner'.stop).isEmpty := by
      rw [hstop]
      exact Expr.isEmpty_congr (Expr.tail_congr h.tail _)
    simp only [Function.comp, hbehind, Args.length_congr hlook]
    split
    · rfl
    · exact congrArg some (Args.positionals_congr hlook)

theorem verbCall? (h : Moved m m') (method : Method) (verb : List Char) :
    m.verbCall? method verb = m'.verbCall? method verb := by
  refine bind_congr_of_map (h.positional? 0) fun path path' _ _ hpath => ?_
  refine bind_congr_of_map (h.handlers? method) fun handlers handlers' _ _ hhandlers => ?_
  rw [h.fragments, h.symbolOf hhandlers, h.line, Expr.pathOf_congr hpath]

theorem chain? (h : Moved m m') : m.chain? = m'.chain? := by
  refine bind_congr_of_map (h.positional? 0) fun path path' _ _ hpath => ?_
  rw [Expr.pathOf_congr hpath]
  exact h.chainFrom? _ h.tail (Nat.lt_succ_self _) (Nat.lt_succ_self _)

theorem child? (h : Moved m m') (hxy : x.glyphs = y.glyphs) : m.child? x = m'.child? y := by
  rw [MemberCall.child?, MemberCall.child?, Expr.namePath?_congr hxy, h.context.routers,
    h.context.imports]
  split
  · rfl
  · refine bind_congr_of_map (Expr.call?_congr hxy) fun c c' _ _ hcall => ?_
    obtain ⟨hcallee, hlook⟩ := Prod.mk.inj hcall
    have hspec : (c.args.positional? 0).bind Expr.stringValue? =
        (c'.args.positional? 0).bind Expr.stringValue? :=
      bind_congr_of_map (Args.positional?_congr hlook 0) fun _ _ _ _ => Expr.stringValue?_congr
    rw [hcallee, hspec, Args.isEmpty_congr hlook]

theorem mount? (h : Moved m m') : m.mount? = m'.mount? := by
  rw [MemberCall.mount?, MemberCall.mount?, Expr.isEmpty_congr h.tail]
  split
  · rfl
  · refine bind_congr_of_map (h.positional? 0) fun first first' _ _ hfirst => ?_
    rw [Expr.stringValue?_congr hfirst]
    have hrest : (if first'.stringValue?.isSome then m.args.positionals.drop 1
        else m.args.positionals).map Expr.glyphs =
          (if first'.stringValue?.isSome then m'.args.positionals.drop 1
            else m'.args.positionals).map Expr.glyphs := by
      split
      · rw [List.map_drop, List.map_drop, Args.positionals_congr h.args]
      · exact Args.positionals_congr h.args
    have htarget := bind_congr_of_map (getLast?_congr_of_map hrest) fun _ _ _ _ => h.child?
    dsimp only
    rw [htarget, h.receiver, h.line]

/-- What the call registers in a script. -/
theorem register? (h : Moved m m') (hscript : m.context.language = .script) (member : List Char) :
    m.register? member = m'.register? member := by
  have hscript' : m'.context.language = .script := h.context.language ▸ hscript
  have hverb : ((verbMethod? member).bind fun method => m.verbCall? method member) =
      (verbMethod? member).bind fun method => m'.verbCall? method member := by
    simp only [h.verbCall?]
  rw [MemberCall.register?, MemberCall.register?, hscript, hscript']
  dsimp only
  rw [h.chain?, h.mount?, hverb]

end Moved

/-- The call whose parenthesis stands at a byte of an expression. -/
def callFrom? (c : Context) (receiver : List Char) (e : Expr) (paren : Nat) : Option MemberCall :=
  (e.argsAt? paren).map fun args => ⟨c, receiver, args, e.tail args.stop⟩

theorem ofCall?_eq (c : Context) (e : Expr) (receiver : List Char) (stop : Nat) :
    ofCall? c e receiver stop = (e.callOpen? stop).bind (callFrom? c receiver e) := by
  rw [ofCall?]
  cases e.callOpen? stop with
  | none => rfl
  | some paren =>
    rw [Option.bind_some, Option.bind_some, callFrom?]
    cases e.argsAt? paren <;> rfl

variable {c c' : Context} {e e' : Expr} {front front' rest : List Glyph}

/-- A call is read as the same one behind every beginning. -/
theorem callFrom?_congr {α : Type} {f f' : MemberCall → Option α} (hc : c.OnOneLine c')
    (he : e.glyphs = front ++ rest) (he' : e'.glyphs = front' ++ rest)
    (hf : ∀ m m', Moved m m' → m.context = c → f m = f' m') (receiver : List Char) (paren : Nat) :
    (callFrom? c receiver e (glyphWidth front + paren)).bind f =
      (callFrom? c' receiver e' (glyphWidth front' + paren)).bind f' := by
  have hbehind := Expr.behind_of_glyphs he
  have hbehind' := Expr.behind_of_glyphs he'
  have hsame : (⟨rest, e.offset + glyphWidth front⟩ : Expr).glyphs =
      (⟨rest, e'.offset + glyphWidth front'⟩ : Expr).glyphs :=
    rfl
  rw [callFrom?, callFrom?, hbehind.argsAt?, hbehind'.argsAt?, Option.map_map, Option.map_map,
    Option.bind_map, Option.bind_map]
  refine bind_congr_of_map (Expr.argsAt?_congr hsame paren) fun args args' _ _ hargs => ?_
  obtain ⟨hlook, hstop⟩ := Prod.mk.inj hargs
  have htail : (e.tail (args.moved (glyphWidth front)).stop).glyphs =
      (e'.tail (args'.moved (glyphWidth front')).stop).glyphs := by
    rw [Args.moved, Args.moved, hbehind.tail, hbehind'.tail, hstop]
    exact Expr.tail_congr hsame _
  exact hf _ _ ⟨⟨hc, rfl⟩, hlook, htail⟩ rfl

/-- What is read of a call whose argument list is closed. -/
theorem exists_callFrom? {call : List Glyph} (hcall : Expr.IsArgs call)
    (he : e.glyphs = front ++ (call ++ rest)) (c : Context) (receiver : List Char) :
    ∃ m, callFrom? c receiver e (glyphWidth front) = some m ∧ m.context = c ∧
      m.receiver = receiver ∧ ((⟨call, 0⟩ : Expr).argsAt? 0).map Args.look = some m.args.look ∧
      m.tail.glyphs = trimGlyphs rest := by
  have hbehind := Expr.behind_of_glyphs he
  obtain ⟨args, hown, hstop, hargs⟩ :=
    hcall.argsAt? (x := ⟨call ++ rest, e.offset + glyphWidth front⟩) rfl
  have hpaste := hbehind.argsAt? 0
  rw [Nat.add_zero, hargs, Option.map_some] at hpaste
  have hlook := Expr.argsAt?_congr (x := ⟨call, 0⟩) (y := ⟨call, e.offset + glyphWidth front⟩) rfl 0
  rw [hown] at hlook
  refine ⟨_, congrArg (Option.map _) hpaste, rfl, rfl, ?_, ?_⟩
  · have hfirst := congrArg (Option.map Prod.fst) hlook
    rwa [Option.map_map] at hfirst
  · have htail : (e.tail (glyphWidth front + args.stop)).glyphs = trimGlyphs rest := by
      rw [hbehind.tail, hstop, ← Nat.add_zero (glyphWidth call),
        (Expr.behind_of_glyphs (e := ⟨call ++ rest, _⟩) rfl).tail]
      exact Expr.glyphs_tail_zero _
    exact htail

theorem ofCall?_congr {α : Type} {f f' : MemberCall → Option α} (hc : c.OnOneLine c')
    (he : e.glyphs = front ++ rest) (he' : e'.glyphs = front' ++ rest)
    (hf : ∀ m m', Moved m m' → m.context = c → f m = f' m') (receiver : List Char) :
    (ofCall? c e receiver (glyphWidth front)).bind f =
      (ofCall? c' e' receiver (glyphWidth front')).bind f' := by
  have hopen := (Expr.behind_of_glyphs he).callOpen? 0
  have hopen' := (Expr.behind_of_glyphs he').callOpen? 0
  have hsame : (⟨rest, e.offset + glyphWidth front⟩ : Expr).callOpen? 0 =
      (⟨rest, e'.offset + glyphWidth front'⟩ : Expr).callOpen? 0 := rfl
  rw [Nat.add_zero] at hopen hopen'
  rw [ofCall?_eq, ofCall?_eq, hopen, hopen', hsame]
  cases (⟨rest, e'.offset + glyphWidth front'⟩ : Expr).callOpen? 0 with
  | none => rfl
  | some paren => exact callFrom?_congr hc he he' hf receiver paren

end MemberCall

end EndpointCensus
