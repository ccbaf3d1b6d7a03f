import EndpointCensus.Proofs.Expr.Keyword
import EndpointCensus.Proofs.Idiom.Opening
import EndpointCensus.Proofs.Idiom.UrlTable

/-! Routes that scripts register by calling a verb of a router. Such a statement is read as nothing
but a call, its arguments are the parts between the commas, and the route is named after the last
handler among them. What is no handler is an argument that reads as a keyword with a value: scripts
have none, but an arrow whose parameter stands without parentheses reads so. -/

namespace EndpointCensus

open Text

/-! ### Statements that begin with a call -/

/-- Name characters and dots, and a parenthesis behind them. -/
def IsCallText (cs : List Char) : Prop :=
  ∃ name rest, (∀ c ∈ name, isNamePart c = true ∨ c = '.') ∧ cs = name ++ '(' :: rest

namespace IsCallText

variable {cs rest : List Char}

theorem opensWith (h : IsCallText cs) : OpensWith '(' cs := by
  obtain ⟨name, rest, hname, rfl⟩ := h
  exact ⟨by decide, name, [], rest, hname, by simp, rfl⟩

theorem head?_isBlank (h : IsCallText cs) : cs.head?.any isBlank = false := by
  obtain ⟨name, rest, hname, rfl⟩ := h
  cases name with
  | nil => rfl
  | cons c name => exact isBlank_of_part (hname c List.mem_cons_self)

theorem blanks? (h : IsCallText cs) : Text.blanks? cs = none := by
  rw [Text.blanks?, h.head?_isBlank]
  rfl

theorem after? {word : String} (h : IsCallText cs) (hword : '(' ∉ word.toList)
    (hafter : Text.after? word cs = some rest) : IsCallText rest := by
  obtain ⟨name, more, hname, rfl⟩ := h
  rcases List.append_eq_append_iff.mp (after?_eq_some_iff.mp hafter) with
    ⟨front, hfront, hrest⟩ | ⟨front, rfl, rfl⟩
  · cases front with
    | nil => exact ⟨[], more, by simp, by simpa using hrest.symm⟩
    | cons d front =>
      obtain rfl : '(' = d := (List.cons.inj hrest).1
      exact absurd (by simp [hfront]) hword
  · exact ⟨front, more, fun c hc => hname c (List.mem_append_right _ hc), rfl⟩

end IsCallText

/-! ### Names of members -/

namespace Text

variable {name member : List Char}

theorem dottedTail_append {cs : List Char} (h : (dottedTail cs).2 = []) (rest : List Char) :
    dottedTail (cs ++ rest) = (cs ++ (dottedTail rest).1, (dottedTail rest).2) := by
  induction cs with
  | nil => rfl
  | cons c cs ih =>
    rw [dottedTail] at h
    split at h
    · next hc =>
      -- A dot in the name stands before another character of it, which the rest does not change.
      have hc' : (isNamePart c || (c == '.' && (cs ++ rest).head?.any isNameStart)) = true := by
        cases cs with
        | nil => simp at hc; simp [hc]
        | cons d cs => exact hc
      rw [List.cons_append, dottedTail, if_pos hc', ih h]
      rfl
    · contradiction

theorem isDottedName_iff {cs : List Char} :
    isDottedName cs = true ↔ cs.head?.any isNameStart = true ∧ (dottedTail cs).2 = [] := by
  cases cs with
  | nil => simp [isDottedName, dottedName?]
  | cons c cs =>
    by_cases hc : isNameStart c = true
    · have hpart := isNamePart_of_isNameStart hc
      cases hrest : (dottedTail cs).2 <;> simp [isDottedName, dottedName?, dottedTail, hc, hpart,
        hrest]
    · simp [isDottedName, dottedName?, hc]

/-- A dotted name ends where something follows that is no part of a name. -/
theorem dottedName?_append (h : isDottedName name = true) {rest : List Char}
    (hrest : dottedTail rest = ([], rest)) : dottedName? (name ++ rest) = some (name, rest) := by
  obtain ⟨hhead, htail⟩ := isDottedName_iff.mp h
  obtain ⟨c, more, rfl, hc⟩ := exists_cons_of_head?_any hhead
  rw [dottedTail, if_pos (by rw [isNamePart_of_isNameStart hc, Bool.true_or])] at htail
  have hread := dottedTail_append htail rest
  rw [hrest, List.append_nil] at hread
  rw [List.cons_append, dottedName?, if_pos hc, hread]

theorem isDottedName_member (hname : isDottedName name = true)
    (hmember : isDottedName member = true) : isDottedName (name ++ '.' :: member) = true := by
  obtain ⟨hhead, htail⟩ := isDottedName_iff.mp hname
  obtain ⟨hfirst, hrest⟩ := isDottedName_iff.mp hmember
  have hdot : (dottedTail ('.' :: member)).2 = [] := by
    rw [dottedTail, hfirst, if_pos (by simp)]
    exact hrest
  refine isDottedName_iff.mpr ⟨?_, ?_⟩
  · obtain ⟨c, more, rfl, hc⟩ := exists_cons_of_head?_any hhead
    exact hc
  · rw [dottedTail_append htail]
    exact hdot

theorem parts_of_isDottedName (h : isDottedName name = true) :
    ∀ d ∈ name, isNamePart d = true ∨ d = '.' := by
  intro d hd
  rcases (isDottedName_chars h).2 d hd with hstart | hpart
  · exact .inl (isNamePart_of_isNameStart hstart)
  · exact hpart

end Text

namespace Expr

theorem callOpen?_of_masked {e : Expr} {name rest : List Char}
    (h : e.masked = name ++ '(' :: rest) :
    e.callOpen? (Text.width name) = some (Text.width name) := by
  have hparen : charAt? e.masked (Text.width name) = some '(' := by rw [h, charAt?_append]
  have hskip : skipAsciiBlanks e.masked (Text.width name) = Text.width name := by
    rw [skipAsciiBlanks, hparen, h, dropBytes_append]
    rfl
  unfold callOpen?
  dsimp only
  rw [hskip, hparen, if_neg (by decide)]
  simp [hparen]

end Expr

/-! ### Calls of verbs -/

namespace MemberCall

open Token (glyphsOf maskedOf widthOf joined IsPart)

/-- The statement `receiver.verb(part, …)` of a script, the receiver being one that registers. -/
structure Calls (c : Context) (receiver verb : List Char) (method : Method)
    (parts : List (List Token)) : Prop where
  script : c.language = .script
  dotted : isDottedName receiver = true
  accepted : acceptsReceiver c receiver = true
  bare : ¬".router".toList <:+ receiver
  names : verbMethod? verb = some method
  part : ∀ p ∈ parts, IsPart p
  tokens : c.statement.tokens =
    (receiver ++ '.' :: verb).map .code ++ .code '(' :: (joined parts ++ [.code ')'])

variable {receiver verb : List Char} {method : Method} {parts : List (List Token)}

theorem verb_mem (h : verbMethod? verb = some method) :
    verb ∈ ("all" :: httpVerbs).map String.toList := by
  rw [verbMethod?] at h
  refine List.mem_map.mpr ⟨String.ofList verb, ?_, String.toList_ofList⟩
  split at h
  · next hall => exact List.mem_cons.mpr (.inl (by simpa [isOneOf] using hall))
  · split at h
    · next hverb => exact List.mem_cons_of_mem _ (List.contains_iff_mem.mp hverb)
    · contradiction

/-- A verb is one name, and no other member of a router. -/
theorem verb_name (h : verbMethod? verb = some method) :
    isDottedName verb = true ∧ '.' ∉ verb ∧ isOneOf ["route"] verb = false ∧
    isOneOf ["use"] verb = false := by
  have hall : ∀ v ∈ ("all" :: httpVerbs).map String.toList,
      isDottedName v = true ∧ '.' ∉ v ∧ isOneOf ["route"] v = false ∧
      isOneOf ["use"] v = false := by decide
  exact hall verb (verb_mem h)

theorem ownerOf_of_not_suffix (h : ¬".router".toList <:+ receiver) :
    ownerOf c receiver = receiver := by
  have hnone : before? ".router" receiver = none := by
    rw [before?, endsWith, if_neg]
    exact fun hsuffix => h (List.isSuffixOf_iff_suffix.mp hsuffix)
  rw [ownerOf, hnone]

theorem widthOf_map_code (cs : List Char) : widthOf (cs.map .code) = Text.width cs := by
  rw [widthOf, Token.textOf_map_code]

namespace Calls

theorem glyphs (h : Calls c receiver verb method parts) : c.expr.glyphs =
    glyphsOf ((receiver ++ '.' :: verb).map .code ++ .code '(' ::
      (joined parts ++ .code ')' :: [])) := by
  rw [← h.tokens]
  exact c.statement.glyphs_eq

theorem masked (h : Calls c receiver verb method parts) :
    c.expr.masked = (receiver ++ '.' :: verb) ++ '(' :: (maskedOf (joined parts) ++ [')']) := by
  rw [Expr.masked_eq h.glyphs]
  simp

theorem isDottedName (h : Calls c receiver verb method parts) :
    Text.isDottedName (receiver ++ '.' :: verb) = true :=
  isDottedName_member h.dotted (verb_name h.names).1

theorem isCallText (h : Calls c receiver verb method parts) : IsCallText c.expr.masked :=
  ⟨_, _, parts_of_isDottedName h.isDottedName, h.masked⟩

theorem callee? (h : Calls c receiver verb method parts) :
    MemberCall.callee? c.expr.masked =
      some (receiver, verb, '(' :: (maskedOf (joined parts) ++ [')'])) := by
  have hread := @dottedName?_append _ h.isDottedName ('(' :: (maskedOf (joined parts) ++ [')'])) rfl
  have hcut := splitLast?_append receiver (verb_name h.names).2.1
  have hopens : opensCall ('(' :: (maskedOf (joined parts) ++ [')'])) = true := rfl
  have hcallee : MemberCall.callee? c.expr.masked = (dottedName? c.expr.masked).bind fun r =>
      (splitLast? '.' r.1).bind fun s => if opensCall r.2 then some (s.1, s.2, r.2) else none := rfl
  rw [hcallee, h.masked, hread, Option.bind_some, hcut, Option.bind_some, if_pos hopens]

theorem offsetOf (h : Calls c receiver verb method parts) :
    c.expr.offsetOf ('(' :: (maskedOf (joined parts) ++ [')'])) =
      Text.width (receiver ++ '.' :: verb) := by
  rw [Expr.offsetOf, Expr.width_eq h.glyphs, ← Token.width_maskedOf, ← Expr.masked_eq h.glyphs,
    h.masked, Text.width_append, Nat.add_sub_cancel]

theorem chars_receiver (h : Calls c receiver verb method parts) :
    c.expr.chars 0 (Text.width receiver) = receiver := by
  have hchars :=
    @Expr.chars_append c.expr [] (('.' :: verb).map .code ++ .code '(' ::
      (joined parts ++ [.code ')'])) (receiver.map .code) (by rw [h.glyphs]; simp)
  rwa [Token.widthOf_nil, Nat.zero_add, widthOf_map_code, Token.textOf_map_code] at hchars

theorem chars_verb (h : Calls c receiver verb method parts) :
    c.expr.chars (Text.width (receiver ++ '.' :: verb) - Text.width verb)
      (Text.width (receiver ++ '.' :: verb)) =
      verb := by
  have hchars :=
    @Expr.chars_append c.expr ((receiver ++ ['.']).map .code)
      (.code '(' :: (joined parts ++ [.code ')'])) (verb.map .code) (by rw [h.glyphs]; simp)
  have hbehind : Text.width (receiver ++ '.' :: verb) =
      Text.width (receiver ++ ['.']) + Text.width verb := by
    simp [Nat.add_assoc]
  rwa [widthOf_map_code, widthOf_map_code, Token.textOf_map_code, ← hbehind,
    ← Nat.sub_eq_of_eq_add hbehind] at hchars

/-- Nothing follows the arguments. -/
theorem tail (h : Calls c receiver verb method parts) :
    c.expr.tail (Text.width (receiver ++ '.' :: verb) + 1 + widthOf (joined parts) + 1) =
      ⟨[], c.expr.width⟩ := by
  have hparen : ('(' : Char).utf8Size = 1 ∧ (')' : Char).utf8Size = 1 := ⟨rfl, rfl⟩
  have hwidth : c.expr.width = Text.width (receiver ++ '.' :: verb) + 1 + widthOf (joined parts) +
      1 := by
    rw [Expr.width_eq h.glyphs, Token.widthOf_append, widthOf_map_code, Token.widthOf_code,
      Token.widthOf_append, Token.widthOf_code, Token.widthOf_nil]
    omega
  rw [Expr.tail, ← hwidth, Nat.min_self, Expr.slice_of_le (Nat.le_refl _)]
  exact congrArg (Expr.mk []) (Nat.zero_add _)

theorem ofCall? (h : Calls c receiver verb method parts) (hne : parts ≠ []) : ∃ pos stop,
    MemberCall.ofCall? c c.expr receiver (Text.width (receiver ++ '.' :: verb)) = some ⟨c, receiver,
      ⟨((Expr.partsFrom pos parts).filter (!·.isEmpty)).map Expr.toArg, stop⟩,
        ⟨[], c.expr.width⟩⟩ := by
  have hargs := Expr.argsAt?_of_parts hne h.part h.glyphs
  rw [widthOf_map_code] at hargs
  have hof : MemberCall.ofCall? c c.expr receiver (Text.width (receiver ++ '.' :: verb)) =
      ((c.expr.callOpen? (Text.width (receiver ++ '.' :: verb))).bind c.expr.argsAt?).bind fun args =>
        some ⟨c, receiver, args, c.expr.tail args.stop⟩ := rfl
  rw [Expr.callOpen?_of_masked h.masked, Option.bind_some, hargs, Option.bind_some, h.tail] at hof
  exact ⟨_, _, hof⟩

/-- The statement is read as the call of a verb. -/
theorem match?_eq (h : Calls c receiver verb method parts) (hne : parts ≠ []) :
    ∃ pos stop, match? c =
      verbCall? ⟨c, receiver, ⟨((Expr.partsFrom pos parts).filter (!·.isEmpty)).map Expr.toArg,
        stop⟩, ⟨[], c.expr.width⟩⟩ method verb := by
  obtain ⟨pos, stop, hof⟩ := h.ofCall? hne
  obtain ⟨-, -, hroute, huse⟩ := verb_name h.names
  refine ⟨pos, stop, ?_⟩
  have hregister (m : MemberCall) (hm : m.context = c) : m.register? verb =
      m.verbCall? method verb := by
    rw [register?, hm, h.script]
    dsimp only
    rw [hroute, huse, h.names]
    rfl
  rw [match?_of_opensWith h.script h.isCallText.opensWith (by decide), registered?, h.callee?]
  dsimp only
  rw [h.offsetOf, h.chars_receiver, if_pos h.accepted, ownerOf_of_not_suffix h.bare, hof,
    Option.bind_some, h.chars_verb]
  exact hregister _ rfl

end Calls

/-- A call of a verb with nothing behind it. -/
theorem verbCall?_eq {m : MemberCall} {first : Expr} {handlers : List Expr}
    (hscript : m.context.language = .script) (htail : m.tail.isEmpty = true)
    (hargs : m.args.positionals = first :: handlers) :
    m.verbCall? method verb =
      if method == .get && handlers.isEmpty then none
      else some
        (m.fragments [method] (pathOf (some first)) (m.symbolOf handlers verb) m.line {}) := by
  have hfirst : m.args.positional? 0 = some first := by rw [Args.positional?, hargs]; rfl
  have hneeded : (m.context.language == .python || method == .get) = (method == .get) := by
    rw [hscript]; rfl
  have hhandlers : m.handlers? method = if method == .get && handlers.isEmpty then none
      else some handlers := by
    rw [handlers?, if_pos htail, hargs]
    dsimp only
    rw [hneeded]
    rfl
  have hcall : m.verbCall? method verb = (m.args.positional? 0).bind fun path =>
      (m.handlers? method).bind fun handlers =>
        some (m.fragments [method] (pathOf (some path)) (m.symbolOf handlers verb) m.line {}) := rfl
  rw [hcall, hfirst, Option.bind_some, hhandlers]
  split <;> rfl

theorem symbolOf_eq (m : MemberCall) (handlers : List Expr) (verb : List Char) :
    m.symbolOf handlers verb = ((handlers.getLast?.map Expr.text).filter Text.isDottedName).getD
      (m.receiver ++ '.' :: verb) := by
  rw [symbolOf]
  cases handlers.getLast? with
  | none => rfl
  | some e => rw [Option.bind_some, Option.map_some, Option.filter_some, Expr.namePath?]

end MemberCall

/-! ### Registrations -/

open Token (textOf IsPart)

/-- The text of an argument. -/
def written (ts : List Token) : List Char := textOf (Token.trim ts)

/-- The statement `receiver.verb('path', handler, …)` of a script. -/
structure Registers (c : Context) (receiver verb path : List Char) (method : Method)
    (handlers : List (List Token)) : Prop where
  call : ∃ first delimiter, MemberCall.Calls c receiver verb method (first :: handlers) ∧
    Token.trim first = [.literal (delimiter ++ (path ++ delimiter))] ∧ Delimits delimiter ∧
    Interior delimiter delimiter path
  handled : handlers ≠ []
  shown : ∀ h ∈ handlers, Token.trim h ≠ []

/-- The route that a verb registers for a handler. The member stands for a
handler that is no name. -/
def Context.registration (c : Context) (receiver verb path : List Char) (method : Method)
    (handler : Option (List Char)) : Emission :=
  let symbol := (handler.filter isDottedName).getD (receiver ++ '.' :: verb)
  .fragment (some receiver) method path symbol (some (lastSegment symbol)) c.statement.startLine {}

namespace Registers

variable {c : Context} {receiver verb path : List Char} {method : Method}
  {handlers : List (List Token)}

/-- The arguments without a keyword, blank ones left out. -/
def given (pos : Nat) (parts : List (List Token)) : List Expr :=
  (Expr.partsFrom pos parts).filter fun x => x.toArg.keyword.isNone && !x.isEmpty

theorem positionals_parts (pos stop : Nat) (parts : List (List Token)) :
    Args.positionals ⟨((Expr.partsFrom pos parts).filter (!·.isEmpty)).map Expr.toArg, stop⟩ =
      given pos parts := by
  rw [Expr.positionals_eq, List.filter_filter]
  rfl

theorem given_append (pos : Nat) (ps qs : List (List Token)) :
    ∃ pos', given pos (ps ++ qs) = given pos ps ++ given pos' qs := by
  obtain ⟨pos', hparts⟩ := Expr.partsFrom_append pos ps qs
  refine ⟨pos', ?_⟩
  rw [given, hparts, List.filter_append]
  rfl

theorem given_cons (pos : Nat) (p : List Token) (parts : List (List Token)) :
    ∃ x : Expr, x.glyphs = Token.glyphsOf (Token.trim p) ∧ given pos (p :: parts) =
      (if x.toArg.keyword.isNone && !x.isEmpty then [x] else []) ++
        given (pos + Token.widthOf p + 1) parts := by
  refine ⟨⟨Token.glyphsOf (Token.trim p), pos + Token.widthOf (p.takeWhile Token.isBlank)⟩, rfl, ?_⟩
  rw [given, Expr.partsFrom, List.filter_cons]
  split <;> rfl

variable {p : List Token}

theorem given_keyword (hpart : IsPart p) (hkeyword : IsKeyword (written p)) (pos : Nat)
    (parts : List (List Token)) :
    given pos (p :: parts) = given (pos + Token.widthOf p + 1) parts := by
  obtain ⟨x, hx, hgiven⟩ := given_cons pos p parts
  have hsome := Expr.keyword_toArg_of_tokens hpart.sealed_trim hx hkeyword
  rw [hgiven, if_neg (by simp [hsome]), List.nil_append]

theorem given_value (hpart : IsPart p) (hshown : Token.trim p ≠ [])
    (hkeyword : ¬IsKeyword (written p)) (pos : Nat) (parts : List (List Token)) : ∃ x :
    Expr, x.glyphs = Token.glyphsOf (Token.trim p) ∧
      given pos (p :: parts) = x :: given (pos + Token.widthOf p + 1) parts := by
  obtain ⟨x, hx, hgiven⟩ := given_cons pos p parts
  have harg := Expr.toArg_of_tokens hpart.sealed_trim hx hkeyword
  have hfilled : x.isEmpty = false := by
    rw [Expr.isEmpty, hx, List.isEmpty_eq_false_iff, Ne, Token.glyphsOf_eq_nil hpart.sealed_trim]
    exact hshown
  refine ⟨x, hx, ?_⟩
  rw [hgiven, harg, hfilled]
  rfl

theorem given_keywords {parts : List (List Token)} (hparts : ∀ p ∈ parts, IsPart p)
    (hkeywords : ∀ p ∈ parts, IsKeyword (written p)) (pos : Nat) : given pos parts = [] := by
  induction parts generalizing pos with
  | nil => rfl
  | cons p parts ih =>
    obtain ⟨hpart, hparts⟩ := List.forall_mem_cons.mp hparts
    obtain ⟨hkeyword, hkeywords⟩ := List.forall_mem_cons.mp hkeywords
    rw [given_keyword hpart hkeyword, ih hparts hkeywords]

/-- A literal is no keyword with a value. -/
theorem not_isKeyword_literal {delimiter rest : List Char} (h : Delimits delimiter) :
    ¬IsKeyword (delimiter ++ rest) := by
  rintro ⟨name, spaces, more, htext, hfirst, hname, -, -⟩
  obtain ⟨d, name, rfl, -⟩ := exists_cons_of_head?_any hfirst
  have hd := Token.isDelimiter_of_isAsciiWord (hname d List.mem_cons_self)
  cases h with
  | once hq =>
    rw [← (List.cons.inj htext).1, hq] at hd
    contradiction
  | thrice hq =>
    rw [← (List.cons.inj htext).1, isDelimiter_of_isQuote hq] at hd
    contradiction

/-- What a call of a verb registers is told by the handlers without a keyword. -/
theorem match?_eq (h : Registers c receiver verb path method handlers) :
    ∃ pos, MemberCall.match? c =
    if method == .get && (given pos handlers).isEmpty then none
    else some [c.registration receiver verb path method
      ((given pos handlers).getLast?.map Expr.text)] := by
  obtain ⟨first, delimiter, hcall, hfirst, hdelimits, hinterior⟩ := h.call
  obtain ⟨pos, stop, hmatch⟩ := hcall.match?_eq (List.cons_ne_nil _ _)
  have hpart := hcall.part first List.mem_cons_self
  have hwritten : written first = delimiter ++ (path ++ delimiter) := by
    rw [written, hfirst]
    simp [textOf, Token.chars]
  have hplain : ¬IsKeyword (written first) := by
    rw [hwritten]
    exact not_isKeyword_literal hdelimits
  obtain ⟨x, hx, hgiven⟩ :=
    given_value hpart (by rw [hfirst]; exact List.cons_ne_nil _ _) hplain pos handlers
  have hpath : pathOf (some x) = path := by
    have htext : x.text = delimiter ++ (path ++ delimiter) := (Expr.text_eq hx).trans hwritten
    rw [pathOf, Expr.stringValue?, htext, stringLiteral?_of_interior hdelimits hinterior]
    rfl
  refine ⟨pos + Token.widthOf first + 1, ?_⟩
  rw [hmatch, MemberCall.verbCall?_eq hcall.script rfl ((positionals_parts _ _ _).trans hgiven),
    hpath, MemberCall.symbolOf_eq]
  rfl

end Registers

/-- A verb's route is named after the last handler that does not read as a keyword with a
value. Where all of them read so, a plain request is not registered, and another one is
named after the member. -/
theorem MemberCall.registers_last_handler {c : Context} {receiver verb path : List Char}
    {method : Method} {handlers : List (List Token)}
    (h : Registers c receiver verb path method handlers) :
    (∀ before last after, handlers = before ++ last :: after → ¬IsKeyword (written last) →
      (∀ p ∈ after, IsKeyword (written p)) →
      MemberCall.match? c = some [c.registration receiver verb path method (some (written last))]) ∧
    ((∀ p ∈ handlers, IsKeyword (written p)) → MemberCall.match? c =
      if method = .get then none else some [c.registration receiver verb path method none]) := by
  obtain ⟨pos, hmatch⟩ := h.match?_eq
  have hpart : ∀ p ∈ handlers, IsPart p := by
    obtain ⟨first, delimiter, hcall, -⟩ := h.call
    exact fun p hp => hcall.part p (List.mem_cons_of_mem first hp)
  refine ⟨fun before last after hhandlers hlast hafter => ?_, fun hkeywords => ?_⟩
  · subst hhandlers
    have hmem : last ∈ before ++ last :: after := List.mem_append_right _ List.mem_cons_self
    obtain ⟨pos', happend⟩ := Registers.given_append pos before (last :: after)
    obtain ⟨x, hx, hvalue⟩ :=
      Registers.given_value (hpart last hmem) (h.shown last hmem) hlast pos' after
    have hbehind : ∀ p ∈ after, IsPart p := fun p hp =>
      hpart p (List.mem_append_right _ (List.mem_cons_of_mem _ hp))
    rw [hvalue, Registers.given_keywords hbehind hafter] at happend
    have hsome : (Registers.given pos (before ++ last :: after)).isEmpty = false := by
      simp [happend]
    have hgetLast : (Registers.given pos (before ++ last :: after)).getLast?.map Expr.text =
        some (written last) := by
      rw [happend, List.getLast?_concat, Option.map_some, Expr.text_eq hx, written]
    rw [hmatch, hsome, Bool.and_false, if_neg Bool.false_ne_true, hgetLast]
  · have hnone := Registers.given_keywords hpart hkeywords pos
    rw [hmatch, hnone]
    simp

/-- Handlers in which there are no literals. -/
theorem Registers.of_texts {c : Context} {receiver verb path delimiter : List Char}
    {method : Method} {texts : List (List Char)} (hscript : c.language = .script)
    (hdotted : isDottedName receiver = true)
    (haccepted : MemberCall.acceptsReceiver c receiver = true)
    (hbare : ¬".router".toList <:+ receiver) (hnames : MemberCall.verbMethod? verb = some method)
    (hdelimits : Delimits delimiter) (hinterior : Interior delimiter delimiter path)
    (hne : texts ≠ []) (htexts : ∀ cs ∈ texts, IsArgument 0 cs)
    (hshown : ∀ cs ∈ texts, Token.trim (cs.map .code) ≠ [])
    (htokens : c.statement.tokens = (receiver ++ '.' :: verb).map .code ++ .code '(' ::
      (Token.joined ([.literal (delimiter ++ (path ++ delimiter))] :: texts.map (·.map .code)) ++
        [.code ')'])) :
    Registers c receiver verb path method (texts.map (·.map .code)) := by
  have hliteral : IsPart [.literal (delimiter ++ (path ++ delimiter))] :=
    ⟨List.forall_mem_singleton.mpr (IsClosed.sealed ⟨delimiter, path, hdelimits, hinterior, rfl⟩),
      rfl⟩
  have hparts : ∀ p ∈ texts.map (·.map Token.code), IsPart p :=
    List.forall_mem_map.mpr fun cs hcs => Token.isPart_map_code (htexts cs hcs)
  have hcalls : MemberCall.Calls c receiver verb method (_ :: texts.map (·.map .code)) :=
    ⟨hscript, hdotted, haccepted, hbare, hnames, List.forall_mem_cons.mpr ⟨hliteral, hparts⟩,
      htokens⟩
  exact ⟨⟨_, delimiter, hcalls, rfl, hdelimits, hinterior⟩, by simpa using hne,
    List.forall_mem_map.mpr hshown⟩

namespace MemberCall

theorem acceptsReceiver_app (c : Context) : acceptsReceiver c "app".toList = true := by
  have happ : isOneOf conventionalReceivers "app".toList = true := by decide
  rw [acceptsReceiver, happ, Bool.or_true, Bool.true_or]

/-- The arrow behind the handler is passed over, and the middleware before it is not the handler. -/
theorem registers_last_handler_arrow :
    let context :=
      fun s : Statement => (⟨.script, s, [], none, [], [], .empty "app.js".toList .script⟩ : Context)
    let handlers := [" auth".toList, " users.list".toList, " err => err".toList].map fun cs =>
      cs.map Token.code
    ∃ s ∈ (readStatements .script "app.get('/a', auth, users.list, err => err)".toList).statements,
      Registers (context s) "app".toList "get".toList "/a".toList .get handlers ∧
      match? (context s) =
        some [(context s).registration "app".toList "get".toList "/a".toList .get
          (some "users.list".toList)] := by
  intro context handlers
  obtain ⟨s, hs, htokens⟩ : ∃ s ∈
      (readStatements .script "app.get('/a', auth, users.list, err => err)".toList).statements,
      s.tokens = "app.get".toList.map .code ++ .code '(' ::
        (Token.joined ([.literal "'/a'".toList] :: handlers) ++ [.code ')']) := by
    decide +kernel
  have hregisters : Registers (context s) "app".toList "get".toList "/a".toList .get handlers :=
    .of_texts rfl (by decide) (acceptsReceiver_app _) (by decide) (by decide) (.once rfl)
      (.of_plain (by decide) (by decide)) (by decide) (by decide) (by decide) htokens
  have hplain : ¬IsKeyword (written (" users.list".toList.map .code)) := by
    rintro ⟨name, spaces, rest, htext, -⟩
    have hsign : '=' ∈ written (" users.list".toList.map .code) := by
      rw [htext]
      simp
    revert hsign
    decide
  have harrow : IsKeyword (written (" err => err".toList.map Token.code)) :=
    ⟨"err".toList, [' '], "> err".toList, by decide, by decide, List.all_eq_true.mp (by decide),
      List.forall_mem_singleton.mpr rfl, by decide⟩
  exact ⟨s, hs, hregisters,
    (registers_last_handler hregisters).1 [_] _ [_] rfl hplain
      (List.forall_mem_singleton.mpr harrow)⟩

/-- The sign of an arrow is taken for that of a keyword, so that no handler is left
and the route is lost. -/
theorem arrow_not_registered :
    let context :=
      fun s : Statement => (⟨.script, s, [], none, [], [], .empty "app.js".toList .script⟩ : Context)
    ∃ s ∈ (readStatements .script "app.get('/a', req => 1)".toList).statements,
      Registers (context s) "app".toList "get".toList "/a".toList .get
        [" req => 1".toList.map .code] ∧ match? (context s) = none := by
  intro context
  obtain ⟨s, hs, htokens, hmatch⟩ :
      ∃ s ∈ (readStatements .script "app.get('/a', req => 1)".toList).statements,
      s.tokens = "app.get".toList.map .code ++ .code '(' ::
        (Token.joined [[.literal "'/a'".toList], " req => 1".toList.map .code] ++ [.code ')']) ∧
        match? (context s) = none := by
    decide +kernel
  have hregisters :=
    @Registers.of_texts (context s) "app".toList "get".toList "/a".toList _ .get
      [" req => 1".toList]
    rfl (by decide) (acceptsReceiver_app _) (by decide) (by decide) (.once rfl)
    (.of_plain (by decide) (by decide)) (by decide) (by decide) (by decide) htokens
  exact ⟨s, hs, hregisters, hmatch⟩

end MemberCall

end EndpointCensus
