import EndpointCensus.Proofs.Expr.Printing
import EndpointCensus.Proofs.Idiom.RouteDecorator
import EndpointCensus.Proofs.Idiom.TableRow

/-! Route decorators with literals for arguments: a path, and a list of methods if there is one.
They register their function for the path as it is written and for the methods as they are
listed. -/

namespace EndpointCensus

open Token (IsSolid IsTrimmed glyphsOf textOf bracketed listing)

namespace Quotation

variable {qs : List Quotation}

theorem forall_isSolid_tokens (h : ∀ q ∈ qs, q.IsWritten) : ∀ p ∈ qs.map tokens, IsSolid p :=
  List.forall_mem_map.mpr fun q hq => (h q hq).isSolid

/-- A list of literals has their contents for its strings. -/
theorem stringItems_listing (h : ∀ q ∈ qs, q.IsWritten) {e : Expr}
    (he : e.glyphs = glyphsOf (listing (qs.map tokens))) : e.stringItems = qs.map content := by
  obtain ⟨xs, hitems, hxs⟩ := Expr.items?_listing he (forall_isSolid_tokens h)
  rw [Expr.stringItems, hitems, Option.getD_some]
  clear hitems he
  induction qs generalizing xs with
  | nil =>
    cases hxs
    rfl
  | cons q qs ih =>
    obtain ⟨hq, hqs⟩ := List.forall_mem_cons.mp h
    cases hxs with
    | cons hx hrest =>
      rw [List.filterMap_cons, hq.stringValue? hx]
      exact congrArg (q.content :: ·) (ih hqs _ hrest)

end Quotation

namespace RouteDecorator

/-- A keyword with a list of literals for its value. -/
def literalMethods (qs : List Quotation) : List Token :=
  ("methods".toList ++ ['=']).map .code ++ listing (qs.map Quotation.tokens)

def literalArguments (path : Quotation) (methods : Option (List Quotation)) : List Token :=
  bracketed '(' ')' (path.tokens :: methods.toList.map literalMethods)

/-- The methods that a list of literals names, a plain request when it names none. -/
def listedMethods (methods : Option (List Quotation)) : List Method :=
  match (methods.getD []).filterMap (Method.ofVerb? ·.content) with
  | [] => [.get]
  | listed => listed

theorem isAsciiName_methods : Text.IsAsciiName "methods".toList := by decide

theorem isSolid_literalMethods {qs : List Quotation} (h : ∀ q ∈ qs, q.IsWritten) :
    IsSolid (literalMethods qs) :=
  have hsign := isAsciiName_methods.sign
  (Token.isSolid_listing (Quotation.forall_isSolid_tokens h)).behind hsign.1 hsign.2

/-- A list of methods is read as the strings that it lists. -/
theorem toArg_literalMethods {qs : List Quotation} (h : ∀ q ∈ qs, q.IsWritten) {e : Expr}
    (he : e.glyphs = glyphsOf (literalMethods qs)) :
    e.toArg.keyword = some "methods".toList ∧
      e.toArg.value.stringItems = qs.map Quotation.content := by
  have hsolid := Token.isSolid_listing (Quotation.forall_isSolid_tokens h)
  have hbracket : (textOf (listing (qs.map Quotation.tokens))).head? ≠ some '=' :=
    fun h => absurd (Option.some.inj h) (by decide)
  obtain ⟨hkeyword, hvalue⟩ := Expr.toArg_of_keyword isAsciiName_methods hsolid.part.sealed
    hsolid.trimmed hbracket he
  exact ⟨hkeyword, Quotation.stringItems_listing h hvalue⟩

variable {d : RouteDecorator} {path : Quotation} {methods : Option (List Quotation)}

/-- The path is the one value without a keyword, and the list has its own. -/
theorem items_literal (h : d.arguments = literalArguments path methods) (hpath : path.IsWritten)
    (hmethods : ∀ qs ∈ methods, ∀ q ∈ qs, q.IsWritten) :
    ∃ args first listed, d.args? = some args ∧ args.items = ⟨none, first⟩ :: listed ∧
      first.stringValue? = some path.content ∧
      listed.map (fun a : Arg => (a.keyword, a.value.stringItems)) =
        methods.toList.map fun qs => (some "methods".toList, qs.map Quotation.content) := by
  have hsolid : ∀ p ∈ path.tokens :: methods.toList.map literalMethods, IsSolid p := by
    refine List.forall_mem_cons.mpr ⟨hpath.isSolid, List.forall_mem_map.mpr fun qs hqs => ?_⟩
    exact isSolid_literalMethods (hmethods qs (Option.mem_toList.mp hqs))
  let e : Expr := ⟨glyphsOf d.arguments, Text.width d.head⟩
  have he : e.glyphs = glyphsOf ([] ++ .code '(' :: (Token.joined _ ++ .code ')' :: [])) :=
    congrArg glyphsOf h
  have hargs := Expr.argsAt?_of_parts (Expr.spaced_ne_nil _)
    (fun p hp => (Token.isLoose_spaced hsolid p hp).part) he
  have hitems := Expr.areWritten_spaced (fun p hp => (hsolid p hp).written)
    (e.offset + (Token.widthOf [] + 1))
  generalize List.filter _ _ = items at hargs hitems
  obtain ⟨first, listed, hfirst, hlisted, rfl⟩ := List.forall₂_cons_right_iff.mp hitems
  refine ⟨_, first, listed.map Expr.toArg, hargs, ?_, hpath.stringValue? hfirst, ?_⟩
  · rw [List.map_cons,
      Expr.toArg_of_tokens hpath.isSolid.part.sealed hfirst hpath.not_isKeyword]
  · cases methods with
    | none =>
      cases hlisted
      rfl
    | some qs =>
      obtain ⟨e, rfl, hqs⟩ := Expr.AreWritten.exists_singleton hlisted
      obtain ⟨hkeyword, hvalue⟩ := toArg_literalMethods (hmethods qs rfl) hqs
      rw [List.map_singleton, List.map_singleton, hkeyword, hvalue]
      rfl

section

variable (h : d.arguments = literalArguments path methods) (hpath : path.IsWritten)
  (hmethods : ∀ qs ∈ methods, ∀ q ∈ qs, q.IsWritten)

include h hpath hmethods

theorem path_literal : d.path = path.content := by
  obtain ⟨args, first, listed, hargs, hitems, hfirst, -⟩ := items_literal h hpath hmethods
  have hpositional : args.positional? 0 = some first := by
    rw [Args.positional?, Args.positionals, hitems]
    rfl
  rw [RouteDecorator.path, hargs, Decorator.positional?, Option.bind_some, hpositional,
    Option.some_or, Option.some_or, pathOf, hfirst, Option.getD_some]

theorem methods_literal (hmember : Method.ofVerb? d.member = none) :
    d.methods = listedMethods methods := by
  obtain ⟨args, first, listed, hargs, hitems, -, hlisted⟩ := items_literal h hpath hmethods
  have hread : methodsOf (args.keyword? "methods") =
      (methods.getD []).filterMap (Method.ofVerb? ·.content) := by
    rw [Args.keyword?, hitems, List.find?_cons_of_neg (by simp)]
    cases methods with
    | none =>
      rw [List.map_eq_nil_iff.mp hlisted]
      rfl
    | some qs =>
      obtain ⟨a, rest, rfl, ha, hrest⟩ := List.map_eq_cons_iff.mp hlisted
      obtain ⟨hkeyword, hstrings⟩ := Prod.mk.inj ha
      rw [List.find?_cons_of_pos (by rw [hkeyword, beq_self_eq_true]), Option.map_some, methodsOf,
        hstrings, List.filterMap_map]
      rfl
  rw [RouteDecorator.methods, hmember, hargs]
  dsimp only
  rw [Decorator.keyword?, Option.bind_some, methodsOrGet, hread]
  rfl

/-- Nothing but its path and its methods is said of the route. -/
theorem metadata_literal : d.metadata = {} := by
  obtain ⟨args, first, listed, hargs, hitems, -, hlisted⟩ := items_literal h hpath hmethods
  have hkeyword {name : String} (hname : name ≠ "methods") : args.keyword? name = none := by
    rw [Args.keyword?, hitems, Option.map_eq_none_iff, List.find?_eq_none]
    refine List.forall_mem_cons.mpr ⟨by simp, fun a ha => ?_⟩
    have hmem := List.mem_map_of_mem (f := fun a : Arg => (a.keyword, a.value.stringItems)) ha
    rw [hlisted] at hmem
    obtain ⟨qs, -, hqs⟩ := List.mem_map.mp hmem
    rw [← (Prod.mk.inj hqs).1, beq_iff_eq, Option.some.injEq, String.toList_inj]
    exact hname.symm
  rw [metadata, hargs, Option.map_some, Option.getD_some, Decorator.routeMetadata]
  simp only [hkeyword, ne_eq, String.reduceEq, not_false_eq_true]
  rfl

end

end RouteDecorator

/-- A route decorator with literal arguments above a function. -/
theorem Decorator.match?_literal {c : Context} {d : RouteDecorator} {path : Quotation}
    {methods : Option (List Quotation)} {name : List Char} (hd : d.IsWritten)
    (h : d.arguments = RouteDecorator.literalArguments path methods) (hpath : path.IsWritten)
    (hmethods : ∀ qs ∈ methods, ∀ q ∈ qs, q.IsWritten) (hmember : Method.ofVerb? d.member = none)
    (hs : c.statement.tokens = d.tokens) (htarget : c.decorated? = some ⟨name, false⟩) :
    match? c = some ((RouteDecorator.listedMethods methods).map fun method =>
      .fragment (some d.receiver) method path.content (c.qualify name) (some name) c.line {}) := by
  rw [match?_written hd hs htarget, RouteDecorator.methods_literal h hpath hmethods hmember]
  refine congrArg some (List.map_congr_left fun method _ => ?_)
  rw [RouteDecorator.emission, RouteDecorator.path_literal h hpath hmethods,
    RouteDecorator.metadata_literal h hpath hmethods]

end EndpointCensus
