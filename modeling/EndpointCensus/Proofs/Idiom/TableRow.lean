import EndpointCensus.Proofs.Idiom.Layout
import EndpointCensus.Proofs.Idiom.Quoted
import EndpointCensus.Proofs.Idiom.TableEntries

/-!
Tables of URL patterns as they are written on one line. An entry with a literal route and a dotted
name for its view links the table to the view; an entry that includes a list stands for the entries
of the list, and one that includes a name links the table to another one.
-/

namespace EndpointCensus

open Text (isDottedName isAsciiWord)
open Token (IsSolid glyphsOf textOf listing calling)
open EndpointCensus.Expr (AreWritten)

/-! ### Literals -/

/-- A string literal of Python: letters before it, its delimiter and its content. -/
structure Quotation where
  marks : List Char
  delimiter : List Char
  content : List Char

namespace Quotation

structure IsWritten (q : Quotation) : Prop where
  few : q.marks.length ≤ 2
  marks : ∀ c ∈ q.marks, isStringMark c = true
  delimits : Delimits q.delimiter
  quotes : ∀ c ∈ q.delimiter, isQuote c = true
  interior : Interior q.delimiter q.delimiter q.content
  line : '\n' ∉ q.content

def tokens (q : Quotation) : List Token :=
  q.marks.map .code ++ [.literal (q.delimiter ++ (q.content ++ q.delimiter))]

variable {q : Quotation}

theorem textOf_tokens (q : Quotation) :
    textOf q.tokens = q.marks ++ (q.delimiter ++ (q.content ++ q.delimiter)) := by
  rw [tokens, Token.textOf_append, Token.textOf_map_code, Token.textOf_cons, Token.textOf_nil,
    List.append_nil]
  rfl

/-- A mark is a letter. -/
theorem of_isStringMark {c : Char} (h : isStringMark c = true) :
    isAsciiWord c = true ∧ Text.isInert c = true ∧ Text.isBlank c = false := by
  have hall : ∀ c ∈ ['r', 'R', 'b', 'B', 'u', 'U', 'f', 'F'],
      (isAsciiWord c && (Text.isInert c && !Text.isBlank c)) = true :=
    List.all_eq_true.mp (by decide)
  rw [isStringMark, List.contains_iff_mem] at h
  have hc := hall c h
  rwa [Bool.and_eq_true, Bool.and_eq_true, Bool.not_eq_true'] at hc

theorem IsWritten.exists_delimiter (h : q.IsWritten) :
    ∃ d rest, q.delimiter = d :: rest ∧ isQuote d = true := by
  obtain ⟨hdelimits, hquotes⟩ := And.intro h.delimits h.quotes
  generalize q.delimiter = delimiter at hdelimits hquotes
  cases hdelimits with
  | once => exact ⟨_, [], rfl, hquotes _ List.mem_cons_self⟩
  | thrice hd => exact ⟨_, _, rfl, hd⟩

theorem IsWritten.isSolid (h : q.IsWritten) : IsSolid q.tokens := by
  have hliteral : IsSolid [.literal (q.delimiter ++ (q.content ++ q.delimiter))] := by
    refine ⟨⟨List.forall_mem_singleton.mpr ?_, .singleton _, rfl⟩, ⟨_, [], rfl, rfl⟩, rfl⟩
    exact ⟨q.delimiter, q.content, h.delimits, h.quotes, h.interior, h.line, rfl⟩
  refine hliteral.behind (fun c hc => (of_isStringMark (h.marks c hc)).2.1) ?_
  exact Text.head?_any_of_forall fun c hc => (of_isStringMark (h.marks c hc)).2.2

theorem IsWritten.not_isKeyword (h : q.IsWritten) : ¬Text.IsKeyword (textOf q.tokens) := by
  obtain ⟨d, rest, hdelimiter, hd⟩ := h.exists_delimiter
  rw [textOf_tokens, hdelimiter, List.cons_append]
  refine Text.not_isKeyword_of_word (fun c hc => (of_isStringMark (h.marks c hc)).1) ?_ ?_ ?_
  all_goals rcases isQuote_cases hd with rfl | rfl <;> decide

/-- A literal has its content for its value. -/
theorem IsWritten.stringValue? (h : q.IsWritten) {e : Expr} (he : e.glyphs = glyphsOf q.tokens) :
    e.stringValue? = some q.content := by
  obtain ⟨d, rest, hdelimiter, hd⟩ := h.exists_delimiter
  have hbody : (q.delimiter ++ (q.content ++ q.delimiter)).head?.any isDelimiter = true := by
    rw [hdelimiter]
    exact isDelimiter_of_isQuote hd
  have hbare := @stringLiteral?_append [] _ (by simp) (by simp) hbody
  rw [List.nil_append, stringLiteral?_of_interior h.delimits h.interior] at hbare
  rw [Expr.stringValue?, Expr.text_eq he, textOf_tokens, stringLiteral?_append h.few h.marks hbody,
    hbare]

/-- A literal without marks in single quotes. -/
def quoted (content : List Char) : Quotation := ⟨[], ['\x27'], content⟩

theorem isWritten_quoted {content : List Char} (hslash : '\\' ∉ content) (hquote : '\x27' ∉ content)
    (hline : '\n' ∉ content) : (quoted content).IsWritten where
  few := Nat.zero_le _
  marks := List.forall_mem_nil _
  delimits := .once rfl
  quotes := List.forall_mem_singleton.mpr rfl
  interior := .of_plain hslash hquote
  line := hline

end Quotation

/-! ### Entries -/

inductive EntryKind where
  | path
  | rePath
  | url
  deriving DecidableEq

namespace EntryKind

def callee : EntryKind → List Char
  | path => "path".toList
  | rePath => "re_path".toList
  | url => "url".toList

theorem callee_spec (k : EntryKind) :
    isDottedName k.callee = true ∧ Text.lastSegment k.callee = k.callee ∧
    isOneOf ["path", "re_path", "url"] k.callee = true := by cases k <;> decide

end EntryKind

/-- An entry with a literal route and a dotted name for its view, and further
arguments if it has any. -/
structure TableEntry where
  kind : EntryKind
  route : Quotation
  view : List Char
  more : List (List Token)

namespace TableEntry

structure IsWritten (e : TableEntry) : Prop where
  route : e.route.IsWritten
  view : isDottedName e.view = true
  more : ∀ p ∈ e.more, IsSolid p

def tokens (e : TableEntry) : List Token :=
  calling e.kind.callee ([e.route.tokens, e.view.map .code] ++ e.more)

/-- The route as the table has it: only a regular expression has anchors. -/
def given (e : TableEntry) : List Char :=
  match e.kind with
  | .path => e.route.content
  | .rePath | .url => UrlTable.stripAnchors e.route.content

def link (table outer : List Char) (line : Nat) (e : TableEntry) (metadata : Metadata) : Emission :=
  .link table (.name e.view) .handler (outer ++ e.given) metadata line

variable {e : TableEntry}

theorem IsWritten.isSolid (h : e.IsWritten) : IsSolid e.tokens := by
  refine Token.isSolid_calling e.kind.callee_spec.1 (List.forall_mem_append.mpr ⟨?_, h.more⟩)
  exact List.forall_mem_cons.mpr ⟨h.route.isSolid,
    List.forall_mem_singleton.mpr (Token.isSolid_dottedName h.view)⟩

end TableEntry

/-- An entry that includes a part under a route. -/
def including (r : Quotation) (p : List Token) : List Token :=
  calling "path".toList [r.tokens, calling "include".toList [p]]

theorem isSolid_including {r : Quotation} (hr : r.IsWritten) {p : List Token} (hp : IsSolid p) :
    IsSolid (including r p) := by
  refine Token.isSolid_calling rfl (List.forall_mem_cons.mpr
    ⟨hr.isSolid, List.forall_mem_singleton.mpr ?_⟩)
  exact Token.isSolid_calling rfl (List.forall_mem_singleton.mpr hp)

namespace UrlTable.Site

variable {s : Site} {x : Expr} {line : Nat}

/-- The route and the view that an entry is called with. -/
theorem exists_call {kind : EntryKind} {r : Quotation} (hr : r.IsWritten) {view : List Token}
    (hview : IsSolid view) (hvalue : ¬Text.IsKeyword (textOf view)) {more : List (List Token)}
    (hmore : ∀ p ∈ more, IsSolid p)
    (h : x.glyphs = glyphsOf (calling kind.callee ([r.tokens, view] ++ more))) :
    ∃ c route v, x.call? = some c ∧ c.callee = kind.callee ∧ c.args.positional? 0 = some route ∧
      c.args.positional? 1 = some v ∧ route.stringValue? = some r.content ∧
      v.glyphs = glyphsOf view := by
  have hparts : ∀ p ∈ [r.tokens, view], IsSolid p :=
    List.forall_mem_cons.mpr ⟨hr.isSolid, List.forall_mem_singleton.mpr hview⟩
  have hvalues : ∀ p ∈ [r.tokens, view], ¬Text.IsKeyword (textOf p) :=
    List.forall_mem_cons.mpr ⟨hr.not_isKeyword, List.forall_mem_singleton.mpr hvalue⟩
  obtain ⟨c, xs, ys, hc, hcallee, hxs, hpositionals⟩ :=
    Expr.call?_calling h kind.callee_spec.1 hparts hvalues hmore
  obtain ⟨route, _, hroute, hrest, rfl⟩ := List.forall₂_cons_right_iff.mp hxs
  obtain ⟨v, rfl, hv⟩ := AreWritten.exists_singleton hrest
  refine ⟨c, route, v, hc, hcallee, ?_, ?_, hr.stringValue? hroute, hv⟩
  all_goals
    rw [Args.positional?, hpositionals]
    rfl

/-- An entry links its table to its view. -/
theorem entry_written {e : TableEntry} (he : e.IsWritten) (h : x.glyphs = glyphsOf e.tokens)
    (fuel : Nat) (outer : List Char) :
    ∃ m, s.entry (fuel + 1) outer x = [e.link s.table outer (s.lineOf x) m] := by
  have hname := he.view
  have hvalue : ¬Text.IsKeyword (textOf (e.view.map .code)) := by
    rw [Token.textOf_map_code]
    exact Text.not_isKeyword_dottedName hname
  obtain ⟨c, route, v, hc, hcallee, hfirst, hsecond, hstringRoute, hv⟩ :=
    exists_call he.route (Token.isSolid_dottedName hname) hvalue he.more h
  obtain ⟨-, hlast, hkind⟩ := e.kind.callee_spec
  have htext : v.text = e.view := by rw [Expr.text_eq hv, Token.textOf_map_code]
  have hpath : v.namePath? = some e.view := by rw [Expr.namePath?, htext, if_pos hname]
  have hstring : v.stringValue? = none := by
    rw [Expr.stringValue?, htext]
    exact stringLiteral?_dottedName hname
  have hbare : v.call? = none := by
    refine Expr.call?_eq_none fun hparen => ?_
    rw [Expr.masked_eq hv, Token.maskedOf_map_code] at hparen
    have hinert := Text.isInert_of_isDottedName hname '(' hparen
    contradiction
  have hroute : (outer ++ if isOneOf ["path"] e.kind.callee then e.route.content
      else stripAnchors e.route.content) = outer ++ e.given := by
    rw [TableEntry.given]
    cases e.kind <;> rfl
  refine ⟨{ name := ((c.args.keyword? "name").bind Expr.stringValue?).map stored }, ?_⟩
  rw [entry, hc]
  dsimp only
  rw [hsecond, hcallee, hlast, hfirst, Option.some_or, Option.some_or, Option.bind_some,
    hstringRoute]
  dsimp only
  rw [if_pos hkind, hbare]
  dsimp only
  rw [viewEntry, hstring, hpath]
  exact congrArg (fun route => [Emission.link s.table _ _ route _ _]) hroute

/-- Entries one after the other, with what their metadata are. -/
theorem flatMap_entry_written {entries : List TableEntry} (hentries : ∀ e ∈ entries, e.IsWritten)
    {xs : List Expr} (h : AreWritten xs (entries.map TableEntry.tokens))
    (hline : ∀ x, s.lineOf x = line) (fuel : Nat) (outer : List Char) : ∃ ps :
    List (TableEntry × Metadata), ps.map Prod.fst = entries ∧
      xs.flatMap (s.entry (fuel + 1) outer) = ps.map fun p => p.1.link s.table outer line p.2 := by
  induction entries generalizing xs with
  | nil =>
    cases h
    exact ⟨[], rfl, rfl⟩
  | cons e entries ih =>
    obtain ⟨he, hentries⟩ := List.forall_mem_cons.mp hentries
    cases h with
    | @cons x _ xs _ hx hxs =>
      obtain ⟨m, hm⟩ := entry_written (s := s) he hx fuel outer
      obtain ⟨ps, rfl, hps⟩ := ih hentries hxs
      exact ⟨(e, m) :: ps, rfl, by rw [List.flatMap_cons, hm, hps, hline]; rfl⟩

/-- An inclusion is given what stands in its parentheses. -/
theorem entry_including {r : Quotation} (hr : r.IsWritten) {p : List Token} (hp : IsSolid p)
    (hvalue : ¬Text.IsKeyword (textOf p)) (h : x.glyphs = glyphsOf (including r p)) (fuel : Nat)
    (outer : List Char) : ∃ first : Expr, first.glyphs = glyphsOf p ∧
      s.entry (fuel + 1) outer x = s.included fuel first (outer ++ r.content) (s.lineOf x) := by
  have hargs := List.forall_mem_singleton.mpr hp
  have hword : ∀ c ∈ "include".toList, isAsciiWord c = true := List.all_eq_true.mp (by decide)
  obtain ⟨c, route, v, hc, hcallee, hfirst, hsecond, hroute, hv⟩ :=
    @exists_call x .path r hr _ (Token.isSolid_calling rfl hargs)
      (Token.not_isKeyword_calling hword [p]) [] (by simp) h
  obtain ⟨-, hlast, hkind⟩ := EntryKind.path.callee_spec
  obtain ⟨d, ys, zs, hd, hdcallee, hys, hpositionals⟩ :=
    @Expr.call?_calling v [p] "include".toList [] hv rfl hargs
      (List.forall_mem_singleton.mpr hvalue) (by simp)
  obtain ⟨first, rfl, hgiven⟩ := AreWritten.exists_singleton hys
  have hposition : d.args.positional? 0 = some first := by
    rw [Args.positional?, hpositionals]
    rfl
  refine ⟨first, hgiven, ?_⟩
  rw [entry, hc]
  dsimp only
  rw [hsecond, hcallee, hlast, hfirst, Option.some_or, Option.some_or, Option.bind_some, hroute]
  dsimp only
  rw [if_pos hkind, hd]
  dsimp only
  rw [hdcallee, if_pos (by decide), hposition]
  rfl

/-- An inclusion of a list stands for the entries of the list. -/
theorem included_listing {first : Expr} {items : List (List Token)}
    (hitems : ∀ p ∈ items, IsSolid p) (h : first.glyphs = glyphsOf (listing items)) (fuel : Nat)
    (route : List Char) (line : Nat) :
    ∃ xs, AreWritten xs items ∧ s.included (fuel + 1) first route line =
      xs.flatMap (s.entry fuel route) := by
  obtain ⟨xs, hxs, hwritten⟩ := Expr.items?_listing h hitems
  have hhead : (first.masked.head? == some '(') = false := by
    rw [Expr.masked_eq h]
    rfl
  refine ⟨xs, hwritten, ?_⟩
  rw [included, Expr.stringValue?_of_items? hxs, hxs]
  dsimp only
  rw [hhead, if_neg Bool.false_ne_true]

/-- A list is read to the depth of an inclusion. -/
theorem operand_listing {e : Expr} {items : List (List Token)} (hitems : ∀ p ∈ items, IsSolid p)
    (h : e.glyphs = glyphsOf (listing items)) :
    ∃ xs fuel, AreWritten xs items ∧ s.operand e = xs.flatMap (s.entry (fuel + 3) []) := by
  obtain ⟨xs, hxs, hwritten⟩ := Expr.items?_listing h hitems
  obtain ⟨fuel, hfuel⟩ : ∃ fuel, e.glyphs.length + 1 = fuel + 3 := by
    have hlong : 2 ≤ e.glyphs.length := by
      rw [h, listing, Token.bracketed]
      simp [Token.glyphs]
    exact ⟨e.glyphs.length - 2, by omega⟩
  refine ⟨xs, fuel, hwritten, ?_⟩
  rw [operand, hxs, hfuel]

end UrlTable.Site

/-! ### Tables -/

/-- A list that is assigned to a name. -/
def assigning (name : List Char) (items : List (List Token)) : List Token :=
  (name ++ " = ".toList).map .code ++ listing items

def tableNames : List (List Char) := ["urlpatterns".toList, "sub_patterns".toList]

theorem masked_assigning (name : List Char) (items : List (List Token)) :
    Token.maskedOf (assigning name items) = name ++ ' ' :: '=' :: ' ' ::
      Token.maskedOf (listing items) := by
  rw [assigning, Token.maskedOf_append, Token.maskedOf_map_code, List.append_assoc]
  rfl

section Assigning

variable {name : List Char} (hname : name ∈ tableNames) {items : List (List Token)}
  (hitems : ∀ p ∈ items, IsSolid p)

theorem Statement.masked_of_assigning {s : Statement} (h : s.tokens = assigning name items) :
    s.masked = name ++ ' ' :: '=' :: ' ' :: Token.maskedOf (listing items) :=
  (congrArg maskedText (h ▸ s.glyphs_eq)).trans (masked_assigning name items)

theorem UrlTable.chars_assigning {e : Expr} (h : e.glyphs = glyphsOf (assigning name items)) :
    e.chars 0 (Text.width name) = name := by
  have hchars := @Expr.chars_append e [] (" = ".toList.map .code ++ listing items) (name.map .code)
    (by rw [h, assigning, List.map_append, List.append_assoc, List.nil_append])
  rwa [Token.widthOf_nil, Nat.zero_add, MemberCall.widthOf_map_code, Token.textOf_map_code]
    at hchars

include hitems in
/-- What is assigned stands behind a blank. -/
theorem UrlTable.tail_assigning {e : Expr} (h : e.glyphs = glyphsOf (assigning name items)) :
    (e.tail (e.offsetOf (' ' :: Token.maskedOf (listing items)))).glyphs =
      glyphsOf (listing items) := by
  have hfront : e.glyphs =
      glyphsOf ((name ++ " =".toList).map .code ++ ((.code ' ' :: listing items) ++ [])) := by
    rw [h, assigning]
    simp
  have hsolid := Token.isSolid_listing hitems
  have hsealed : ∀ t ∈ Token.code ' ' :: listing items, t.Sealed :=
    List.forall_mem_cons.mpr ⟨trivial, hsolid.part.sealed⟩
  have hslice := Expr.slice_append hfront hsealed
  have hwidth : Token.widthOf ((name ++ " =".toList).map .code) +
      Token.widthOf (.code ' ' :: listing items) = e.width := by
    rw [Expr.width_eq hfront, Token.widthOf_append, List.append_nil]
  have hoffset : e.offsetOf (' ' :: Token.maskedOf (listing items)) =
      Token.widthOf ((name ++ " =".toList).map .code) := by
    rw [Expr.offsetOf, ← Token.maskedOf_code, Token.width_maskedOf, ← hwidth, Nat.add_sub_cancel]
  rw [Expr.tail, hoffset, Nat.min_eq_left (by omega), ← hwidth, hslice, hsolid.trimmed.trim_blank]

include hname

theorem tableNames_spec :
    name.head?.any Text.isWordStart = true ∧ (∀ c ∈ name, Text.isWord c = true) ∧
    Text.endsWith name "patterns" = true ∧ 8 < name.length := by
  have hall : ∀ name ∈ tableNames, name.head?.any Text.isWordStart = true ∧
      name.all Text.isWord = true ∧ Text.endsWith name "patterns" = true ∧ 8 < name.length := by
        decide
  obtain ⟨hstart, hword, hends⟩ := hall name hname
  exact ⟨hstart, List.all_eq_true.mp hword, hends⟩

include hitems in
theorem isRow_assigning : Token.IsRow (assigning name items) := by
  have hall : ∀ name ∈ tableNames, (name ++ " = ".toList).all Text.isInert = true ∧
      name.head?.any Text.isBlank = false ∧ name ≠ [] := by decide
  obtain ⟨hinert, hblank, hne⟩ := hall name hname
  have hsolid := (Token.isSolid_listing hitems).behind (List.all_eq_true.mp hinert)
    (by rwa [Text.head?_any_append hne])
  obtain ⟨c, rest, rfl⟩ := List.exists_cons_of_ne_nil hne
  exact hsolid.isRow

namespace UrlTable

theorem assigned?_assigning {s : Statement} (h : s.tokens = assigning name items) :
    assigned? s.masked = some (name, ' ' :: Token.maskedOf (listing items)) := by
  obtain ⟨hstart, hword, hends, hlength⟩ := tableNames_spec hname
  have hread : Text.word? s.masked =
      some (name, ' ' :: '=' :: ' ' :: Token.maskedOf (listing items)) :=
    Text.word?_eq_some_iff.mpr
      ⟨⟨hstart, hword⟩, Statement.masked_of_assigning h, by rw [List.head?_cons]; rfl⟩
  have hshort : ¬((decide (name.length ≤ 8) || !Text.endsWith name "patterns") = true) := by
    rw [hends, Bool.not_true, Bool.or_false, decide_eq_true_eq]
    omega
  rw [assigned?, hread]
  exact if_neg hshort

include hitems in
/-- A list that is assigned to the name of a table is read as a table of the items. -/
theorem match?_assigning {c : Context} (h : c.statement.tokens = assigning name items) :
    ∃ e : Expr, e.glyphs = glyphsOf (listing items) ∧
      match? c = some (.node name .urlTable [] {} [] c.line :: Site.operand ⟨c, name⟩ e) := by
  have hglyphs : c.expr.glyphs = glyphsOf (assigning name items) := h ▸ c.statement.glyphs_eq
  have hassigned : assigned? c.expr.masked = some (name, ' ' :: Token.maskedOf (listing items)) :=
    assigned?_assigning hname h
  have hvalue := tail_assigning hitems hglyphs
  generalize hsum : c.expr.tail (c.expr.offsetOf (' ' :: Token.maskedOf (listing items))) = sum
    at hvalue
  have hhead : sum.masked.head? = some '[' := by
    rw [Expr.masked_eq hvalue]
    rfl
  have hfilled : (sum.isEmpty || sum.masked.head? == some '=') = false := by
    rw [hhead, Expr.isEmpty, hvalue]
    rfl
  obtain ⟨e, hsplit, he⟩ := Expr.split_listing hvalue hitems '+'
  refine ⟨e, he, ?_⟩
  have hmatch : match? c = if (sum.isEmpty || sum.masked.head? == some '=') = true then none else
      some (.node (c.expr.chars 0 (Text.width name)) .urlTable [] {} [] c.line ::
        (sum.split '+' 0 sum.width).flatMap
          (Site.operand ⟨c, c.expr.chars 0 (Text.width name)⟩)) := by
    rw [match?, hassigned, Option.bind_eq_bind, Option.bind_some, ← hsum]
  rw [hmatch, hfilled, if_neg Bool.false_ne_true, hsplit, chars_assigning hglyphs,
    List.flatMap_singleton]

variable {c : Context} {line : Nat} (hline : ∀ n, c.statement.lineAt n = line)
  {entries : List TableEntry}
    (hentries : ∀ e ∈ entries, e.IsWritten) {r : Quotation} (hr : r.IsWritten)

include hline

include hentries in
/-- A table has a link for each entry. -/
theorem match?_entries (h : c.statement.tokens = assigning name (entries.map TableEntry.tokens)) :
    ∃ ps : List (TableEntry × Metadata), ps.map Prod.fst = entries ∧ match? c =
      some (.node name .urlTable [] {} [] c.line :: ps.map fun p => p.1.link name [] line p.2) := by
  have hitems := List.forall_mem_map.mpr fun e he => (hentries e he).isSolid
  obtain ⟨e, he, hmatch⟩ := match?_assigning hname hitems h
  obtain ⟨xs, fuel, hxs, hoperand⟩ := Site.operand_listing (s := ⟨c, name⟩) hitems he
  obtain ⟨ps, hps, hlinks⟩ :=
    Site.flatMap_entry_written (s := ⟨c, name⟩) hentries hxs (fun x => hline x.offset) (fuel + 2) []
  exact ⟨ps, hps, by rw [hmatch, hoperand, hlinks]⟩

include hentries hr in
/-- A table that includes a list has a link for each entry of the list, with
both routes run together. -/
theorem match?_inline
    (h : c.statement.tokens = assigning name
      [including r (listing (entries.map TableEntry.tokens))]) :
    ∃ ps : List (TableEntry × Metadata), ps.map Prod.fst = entries ∧ match? c =
      some (.node name .urlTable [] {} [] c.line :: ps.map fun p =>
        p.1.link name r.content line p.2) := by
  have hlisted : ∀ p ∈ entries.map TableEntry.tokens, IsSolid p :=
    List.forall_mem_map.mpr fun e he => (hentries e he).isSolid
  have hpart := Token.isSolid_listing hlisted
  have hitems := List.forall_mem_singleton.mpr (isSolid_including hr hpart)
  obtain ⟨e, he, hmatch⟩ := match?_assigning hname hitems h
  obtain ⟨xs, fuel, hxs, hoperand⟩ := Site.operand_listing (s := ⟨c, name⟩) hitems he
  obtain ⟨x, rfl, hx⟩ := AreWritten.exists_singleton hxs
  obtain ⟨first, hfirst, hentry⟩ := Site.entry_including (s := ⟨c, name⟩) hr hpart
    (Token.not_isKeyword_listing _) hx (fuel + 2) []
  obtain ⟨ys, hys, hincluded⟩ :=
    Site.included_listing (s := ⟨c, name⟩) hlisted hfirst (fuel + 1) ([] ++ r.content)
      (Site.lineOf ⟨c, name⟩ x)
  obtain ⟨ps, hps, hlinks⟩ :=
    Site.flatMap_entry_written (s := ⟨c, name⟩) hentries hys (fun x => hline x.offset) fuel
      ([] ++ r.content)
  exact ⟨ps, hps,
    by rw [hmatch, hoperand, List.flatMap_singleton, hentry, hincluded, hlinks, List.nil_append]⟩

include hr in
/-- A table that includes a name is linked to the table of that name. -/
theorem match?_named {sub : List Char} (hsub : isDottedName sub = true) (hdot : '.' ∉ sub)
    (h : c.statement.tokens = assigning name [including r (sub.map .code)]) :
    match? c = some [.node name .urlTable [] {} [] c.line,
      .link name (.table sub) .inclusion r.content {} line] := by
  have hpart := Token.isSolid_dottedName hsub
  have hvalue : ¬Text.IsKeyword (textOf (sub.map .code)) := by
    rw [Token.textOf_map_code]
    exact Text.not_isKeyword_dottedName hsub
  have hitems := List.forall_mem_singleton.mpr (isSolid_including hr hpart)
  obtain ⟨e, he, hmatch⟩ := match?_assigning hname hitems h
  obtain ⟨xs, fuel, hxs, hoperand⟩ := Site.operand_listing (s := ⟨c, name⟩) hitems he
  obtain ⟨x, rfl, hx⟩ := AreWritten.exists_singleton hxs
  obtain ⟨first, hfirst, hentry⟩ :=
    Site.entry_including (s := ⟨c, name⟩) hr hpart hvalue hx (fuel + 2) []
  have hpath : first.namePath? = some sub := by
    rw [Expr.namePath?, Expr.text_eq hfirst, Token.textOf_map_code, if_pos hsub]
  have hincluded :=
    Site.included_name ⟨c, name⟩ (fuel + 1) hpath ([] ++ r.content) (Site.lineOf ⟨c, name⟩ x)
  rw [hmatch, hoperand, List.flatMap_singleton, hentry, hincluded, includedName_of_not_mem hdot,
    Site.inclusion, Site.lineOf, hline, List.nil_append]

end UrlTable

/-! ### What a table is not -/

/-- No word of a declaration or an import stands in front. -/
theorem after?_tableName {word : String}
    (hword : word.toList.head?.any (fun c => !(['u', 's'].contains c)) = true) (rest : List Char) :
    Text.after? word (name ++ rest) = none := by
  have hall : ∀ name ∈ tableNames, ∃ c more, name = c :: more ∧ ['u', 's'].contains c = true :=
    List.forall_mem_cons.mpr ⟨⟨'u', _, rfl, rfl⟩, List.forall_mem_singleton.mpr ⟨'s', _, rfl, rfl⟩⟩
  obtain ⟨c, more, rfl, hc⟩ := hall name hname
  rcases hafter : Text.after? word (c :: more ++ rest) with _ | behind
  · rfl
  · have heq := Text.after?_eq_some_iff.mp hafter
    obtain ⟨d, ds, hd, hno⟩ := Text.exists_cons_of_head?_any hword
    rw [hd] at heq
    obtain ⟨rfl, -⟩ := List.cons.inj heq
    rw [hc] at hno
    contradiction

theorem afterWord?_tableName {words : List String}
    (hwords : ∀ w ∈ words, w.toList.head?.any (fun c => !(['u', 's'].contains c)) = true)
    (rest : List Char) : Text.afterWord? words (name ++ rest) = none := by
  refine List.findSome?_eq_none_iff.mpr fun w hw => ?_
  rw [after?_tableName hname (hwords w hw), Option.bind_none]

theorem scanPython_assigning {s : Statement} (h : s.tokens = assigning name items)
    (t : ImportTable) : t.scanPython s = (t, false) := by
  have hmasked := Statement.masked_of_assigning h
  obtain ⟨rest, hrest⟩ : ∃ rest, Text.trim s.masked = name ++ rest := by
    have hends : ∀ name ∈ tableNames, name.head?.any Text.isBlank = false ∧
        name.getLast?.any Text.isBlank = false ∧ name ≠ [] := by decide
    obtain ⟨hfirst, hlast, hne⟩ := hends name hname
    rw [hmasked, Text.trim, Text.trimStart, Text.dropWhile_of_head?
      (by rwa [Text.head?_any_append hne]), Text.trimEnd,
      Text.dropEndWhile_append_of_getLast? hlast hne]
    exact ⟨_, rfl⟩
  have hfrom : ImportTable.fromImport? (name ++ rest) = none := by
    rw [ImportTable.fromImport?, after?_tableName hname (by decide), Option.bind_none]
  have himport : ImportTable.afterImport? (name ++ rest) = none := by
    rw [ImportTable.afterImport?, afterWord?_tableName hname (by decide), Option.filter_none]
  rw [ImportTable.scanPython, hrest, hfrom, himport]

theorem scope?_assigning {s : Statement} (h : s.tokens = assigning name items) :
    s.scope? = none := by
  have hmasked : (Expr.ofStatement s).masked = name ++ ' ' :: '=' :: ' ' ::
      Token.maskedOf (listing items) :=
    Statement.masked_of_assigning h
  have hdef : s.defName? = none := by
    rw [Statement.defName?]
    dsimp only
    rw [hmasked, afterWord?_tableName hname (by decide), Option.getD_none,
      afterWord?_tableName hname (by decide)]
    rfl
  have hclass : s.className? = none := by
    rw [Statement.className?]
    dsimp only
    rw [hmasked, afterWord?_tableName hname (by decide)]
    rfl
  rw [Statement.scope?, hdef, hclass]
  rfl

/-- A list is no call, so nothing is constructed. -/
theorem assignment?_assigning {s : Statement} (h : s.tokens = assigning name items) :
    (Expr.ofStatement s).assignment? = none := by
  have hmasked : (Expr.ofStatement s).masked = _ := Statement.masked_of_assigning h
  obtain ⟨hstart, hword, -⟩ := tableNames_spec hname
  obtain ⟨d, more, rfl, hd⟩ := Text.exists_cons_of_head?_any hstart
  have hread : Text.identifier? ((d :: more) ++ ' ' :: '=' :: ' ' ::
      Token.maskedOf (listing items)) =
        some (d :: more, ' ' :: '=' :: ' ' :: Token.maskedOf (listing items)) := by
    have hpart : ∀ x ∈ more, Text.isNamePart x = true := fun x hx => by
      rw [Text.isNamePart, hword x (List.mem_cons_of_mem d hx), Bool.true_or]
    have hstop : (' ' :: '=' :: ' ' :: Token.maskedOf (listing items)).head?.any
        Text.isNamePart = false := by
      rw [List.head?_cons]
      rfl
    have hnameStart : Text.isNameStart d = true := by
      rw [Text.isNameStart]
      exact Bool.or_eq_true_iff.mpr (.inl hd)
    rw [List.cons_append, Text.identifier?, if_pos hnameStart, Text.takeWhile_run hpart hstop,
      Text.dropWhile_run hpart hstop]
  have hparts : Assignment.parts? (Expr.ofStatement s).masked = none := by
    have hcallee : Assignment.callee? (' ' :: Token.maskedOf (listing items)) = none := rfl
    have hvalue : Assignment.value? (' ' :: '=' :: ' ' :: Token.maskedOf (listing items)) =
        some (' ' :: Token.maskedOf (listing items)) := rfl
    rw [Assignment.parts?, hmasked, afterWord?_tableName hname (by decide), Option.toList_none,
      List.nil_append, List.flatMap_singleton, afterWord?_tableName hname (by decide),
      Option.toList_none, List.nil_append, List.findSome?_cons, hread]
    simp [hvalue, hcallee]
  rw [Expr.assignment?, hparts]
  rfl

/-- The name of a table has no dot, so no member is called. -/
theorem Decorator.memberCall?_assigning {s : Statement} (h : s.tokens = assigning name items)
    (members : List String) : memberCall? members (Expr.ofStatement s) = none := by
  have hmasked : (Expr.ofStatement s).masked = _ := Statement.masked_of_assigning h
  obtain ⟨hstart, hword, -⟩ := tableNames_spec hname
  obtain ⟨d, more, rfl, hd⟩ := Text.exists_cons_of_head?_any hstart
  have hrun : memberRun? (Expr.ofStatement s).masked = none := by
    have hdot : ∀ name ∈ tableNames, '.' ∉ name := by decide
    have hmore : ∀ x ∈ more, (Text.isWord x || x == '.') = true := fun x hx => by
      rw [hword x (List.mem_cons_of_mem d hx), Bool.true_or]
    have hstop : (' ' :: '=' :: ' ' :: Token.maskedOf (listing items)).head?.any
        (fun x => Text.isWord x || x == '.') = false := by
      rw [List.head?_cons]
      rfl
    rw [hmasked, List.cons_append, memberRun?, if_pos hd, Text.takeWhile_run hmore hstop,
      Text.splitLast?_eq_none (hdot _ hname), Option.bind_none]
  rw [memberCall?, hrun]
  rfl

/-- No router is constructed, included or applied where a table is assigned. -/
theorem Decorator.match?_assigning {c : Context} (h : c.statement.tokens = assigning name items) :
    Decorator.match? c = none := by
  have hdecorator : c.expr.isDecorator = false := by
    obtain ⟨hstart, -⟩ := tableNames_spec hname
    obtain ⟨d, more, rfl, hd⟩ := Text.exists_cons_of_head?_any hstart
    have hmasked : c.expr.masked = _ := Statement.masked_of_assigning h
    rw [Expr.isDecorator, hmasked]
    refine beq_eq_false_iff_ne.mpr fun heq => ?_
    obtain rfl : d = '@' := Option.some.inj heq
    contradiction
  have hassignment : c.expr.assignment? = none := assignment?_assigning hname h
  have hmember (members : List String) : memberCall? members c.expr = none :=
    memberCall?_assigning hname h members
  rw [match?, hdecorator, if_neg Bool.false_ne_true, constructed?, included?, applied?, hassignment,
    hmember, hmember]
  rfl

/-- A table is the first match of its statement. -/
theorem matches_assigning {c : Context} (hpython : c.language = .python)
    (h : c.statement.tokens = assigning name items) {e : Emission} {es : List Emission}
    (hmatch : UrlTable.match? c = some (e :: es)) :
    ∃ others, c.matches = (.urlPattern, e :: es) :: others := by
  have hdecorator : Idiom.match? .decoratorCall c = none := by
    rw [Idiom.match?, hpython]
    dsimp only
    rw [Decorator.match?_assigning hname h]
    rfl
  have htable : Idiom.match? .urlPattern c = some (e :: es) := by
    rw [Idiom.match?, hmatch]
    rfl
  have hall : Idiom.all.filter (·.appliesTo c.language) = .decoratorCall :: .urlPattern ::
      [.resourceRegistration, .classMethods, .callRegistration] := by
    rw [hpython]
    rfl
  refine ⟨[Idiom.resourceRegistration, .classMethods, .callRegistration].filterMap fun i =>
    (i.match? c).map fun emissions => (i, emissions), ?_⟩
  rw [Context.matches, hall, List.filterMap_cons, hdecorator, Option.map_none, List.filterMap_cons,
    htable]
  rfl

end Assigning

end EndpointCensus
