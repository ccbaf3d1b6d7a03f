import EndpointCensus.Expr.Value
import EndpointCensus.Proofs.Statement.Token

/-!
Expressions as runs of tokens. Expressions are cut at commas, colons, equals signs and brackets of
the masked text. Where all literals are closed these are characters of the code, so an expression
that is reached from a statement by arguments, items, keys and values consists of whole tokens of
the statement, and its offset is theirs.
-/

namespace EndpointCensus

namespace Text

/-! ### Places of separators and brackets -/

/-- The ranges between separators begin and end at separators, but for the first
and the last one. -/
theorem forall_mem_splitFrom {P : Nat → Prop} {sep : Char} {stop first pos depth : Nat}
    {cs : List Char} (hfirst : P first) (hstop : P stop)
    (hsep : ∀ us vs, cs = us ++ sep :: vs → P (pos + width us) ∧
      P (pos + width us + sep.utf8Size)) :
    ∀ r ∈ splitFrom sep stop first pos depth cs, P r.1 ∧ P r.2 := by
  induction cs generalizing first pos depth with
  | nil =>
    intro r hr
    rw [List.mem_singleton.mp hr]
    exact ⟨hfirst, hstop⟩
  | cons c cs ih =>
    have hrest : ∀ us vs, cs = us ++ sep :: vs →
        P (pos + c.utf8Size + width us) ∧ P (pos + c.utf8Size + width us + sep.utf8Size) := by
      intro us vs hcs
      have h := hsep (c :: us) vs (by rw [hcs]; rfl)
      rwa [width_cons, ← Nat.add_assoc] at h
    unfold splitFrom
    dsimp only
    split
    · intro r hr
      rw [List.mem_singleton.mp hr]
      exact ⟨hfirst, hstop⟩
    · split
      · exact ih hfirst hrest
      · split
        · exact ih hfirst hrest
        · split
          · next hc =>
            obtain ⟨hc, -⟩ := Bool.and_eq_true_iff.mp hc
            obtain rfl : c = sep := beq_iff_eq.mp hc
            obtain ⟨hbefore, hafter⟩ := hsep [] cs rfl
            intro r hr
            rcases List.mem_cons.mp hr with rfl | hr
            · exact ⟨hfirst, hbefore⟩
            · exact ih hafter hrest r hr
          · exact ih hfirst hrest

/-- The search for a closer ends at one. -/
theorem exists_closer_of_closingFrom {pos depth n : Nat} {cs : List Char}
    (h : closingFrom pos depth cs = some n) :
    ∃ us c vs, cs = us ++ c :: vs ∧ isCloser c = true ∧ n = pos + width us := by
  induction cs generalizing pos depth with
  | nil => contradiction
  | cons c cs ih =>
    have hrest {depth' : Nat} (h : closingFrom (pos + c.utf8Size) depth' cs = some n) :
        ∃ us d vs, c :: cs = us ++ d :: vs ∧ isCloser d = true ∧ n = pos + width us := by
      obtain ⟨us, d, vs, rfl, hd, rfl⟩ := ih h
      exact ⟨c :: us, d, vs, rfl, hd, by rw [width_cons, Nat.add_assoc]⟩
    unfold closingFrom at h
    split at h
    · exact hrest h
    · split at h
      · next hcloser =>
        split at h
        · contradiction
        · exact ⟨[], c, cs, rfl, hcloser, (Option.some.inj h).symm⟩
        · exact hrest h
      · exact hrest h

/-- What closes the bracket at a place stands behind it. -/
theorem exists_closer_of_findMatching {c : Char} (hc : isOpener c = true) {xs ys : List Char}
    {n : Nat} (h : findMatching (xs ++ c :: ys) (width xs) = some n) :
    ∃ us d vs, xs ++ c :: ys = us ++ d :: vs ∧ isCloser d = true ∧ n = width us := by
  rw [findMatching_append hc] at h
  obtain ⟨us, d, vs, rfl, hd, rfl⟩ := exists_closer_of_closingFrom h
  refine ⟨xs ++ c :: us, d, vs, by simp, hd, ?_⟩
  rw [width_append, width_cons, utf8Size_of_isOpener hc]
  omega

end Text

/-! ### Glyphs between places -/

theorem dropGlyphs_append (gs hs : List Glyph) : dropGlyphs (glyphWidth gs) (gs ++ hs) = hs := by
  induction gs with
  | nil => cases hs <;> rfl
  | cons g gs ih =>
    have hpos := g.char.utf8Size_pos
    obtain ⟨n, hn⟩ : ∃ n, g.char.utf8Size + glyphWidth gs = n + 1 :=
      ⟨g.char.utf8Size + glyphWidth gs - 1, by omega⟩
    rw [glyphWidth, List.cons_append, hn, dropGlyphs, ← hn, Nat.add_sub_cancel_left, ih]
    exact fun h => by contradiction

theorem takeGlyphs_append (gs hs : List Glyph) : takeGlyphs (glyphWidth gs) (gs ++ hs) = gs := by
  induction gs with
  | nil => cases hs <;> rfl
  | cons g gs ih =>
    have hpos := g.char.utf8Size_pos
    obtain ⟨n, hn⟩ : ∃ n, g.char.utf8Size + glyphWidth gs = n + 1 :=
      ⟨g.char.utf8Size + glyphWidth gs - 1, by omega⟩
    rw [glyphWidth, List.cons_append, hn, takeGlyphs, ← hn, Nat.add_sub_cancel_left, ih]
    exact fun h => by contradiction

namespace Token

variable {ts : List Token} {n : Nat}

/-- Byte `n` lies between two tokens, or at either end of them. -/
def IsCut (ts : List Token) (n : Nat) : Prop := ∃ xs ys, ts = xs ++ ys ∧ widthOf xs = n

theorem isCut_zero (ts : List Token) : IsCut ts 0 := ⟨[], ts, rfl, rfl⟩

theorem isCut_width (ts : List Token) :
    IsCut ts (widthOf ts) := ⟨ts, [], (List.append_nil ts).symm, rfl⟩

/-- A character that shows and is no delimiter lies between two cuts. -/
theorem isCut_of_maskedOf (hts : ∀ t ∈ ts, t.Sealed) {us vs : List Char} {c : Char}
    (h : maskedOf ts = us ++ c :: vs) (hdelimiter : isDelimiter c = false) (hveil : c ≠ '_') :
    IsCut ts (Text.width us) ∧ IsCut ts (Text.width us + c.utf8Size) := by
  obtain ⟨xs, ys, rfl, rfl, rfl⟩ := exists_code_of_maskedOf hts h hdelimiter hveil
  rw [width_maskedOf]
  refine ⟨⟨xs, _, rfl, rfl⟩, ⟨xs ++ [code c], ys, by simp, ?_⟩⟩
  rw [widthOf_append, widthOf_code]
  rfl

theorem isCut_of_closer (hts : ∀ t ∈ ts, t.Sealed) {us vs : List Char} {c : Char}
    (h : maskedOf ts = us ++ c :: vs) (hc : Text.isCloser c = true) : IsCut ts (Text.width us) := by
  unfold Text.isCloser at hc
  simp only [Bool.or_eq_true, beq_iff_eq] at hc
  rcases hc with (rfl | rfl) | rfl <;> exact (isCut_of_maskedOf hts h rfl (by decide)).1

/-- Tokens are split between them. -/
theorem isCut_splitTopLevel (hts : ∀ t ∈ ts, t.Sealed) {sep : Char}
    (hdelimiter : isDelimiter sep = false) (hveil : sep ≠ '_') {start stop : Nat}
    (hstart : IsCut ts start) (hstop : IsCut ts stop) :
    ∀ r ∈ Text.splitTopLevel sep (maskedOf ts) start stop, IsCut ts r.1 ∧ IsCut ts r.2 := by
  obtain ⟨xs, ys, rfl, rfl⟩ := hstart
  have hseek : Text.seek 0 (widthOf xs) (maskedOf (xs ++ ys)) = (widthOf xs, maskedOf ys) := by
    rw [maskedOf_append, ← width_maskedOf xs, Text.seek_append, Nat.zero_add]
  unfold Text.splitTopLevel
  rw [hseek]
  apply Text.forall_mem_splitFrom ⟨xs, ys, rfl, rfl⟩ hstop
  intro us vs hys
  have hmasked : maskedOf (xs ++ ys) = (maskedOf xs ++ us) ++ sep :: vs := by
    rw [maskedOf_append, hys, List.append_assoc]
  have hcuts := isCut_of_maskedOf hts hmasked hdelimiter hveil
  rwa [Text.width_append, width_maskedOf] at hcuts

theorem exists_trim (ts : List Token) : ∃ back, ts = ts.takeWhile isBlank ++ (trim ts ++ back) := by
  obtain ⟨back, hback⟩ := Text.dropEndWhile_prefix isBlank (ts.dropWhile isBlank)
  refine ⟨back, ?_⟩
  rw [trim, hback, List.takeWhile_append_dropWhile]

end Token

open Token (widthOf maskedOf textOf glyphsOf IsCut isCut_zero isCut_width)

namespace Expr

/-! ### Slices -/

section Slices

variable {e : Expr} {ts xs ys zs : List Token}

theorem masked_eq (h : e.glyphs = glyphsOf ts) : e.masked = maskedOf ts := by
  rw [masked, h]
  rfl

theorem text_eq (h : e.glyphs = glyphsOf ts) : e.text = textOf ts := by
  rw [text, h, Token.plainText_glyphsOf]

theorem width_eq (h : e.glyphs = glyphsOf ts) : e.width = widthOf ts := by
  rw [width, h, Token.glyphWidth_glyphsOf]

/-- A slice between tokens consists of tokens. -/
theorem slice_append (h : e.glyphs = glyphsOf (xs ++ (zs ++ ys))) (hzs : ∀ t ∈ zs, t.Sealed) :
    e.slice (widthOf xs) (widthOf xs + widthOf zs) =
      ⟨glyphsOf (Token.trim zs), e.offset + widthOf xs + widthOf (zs.takeWhile Token.isBlank)⟩ := by
  have hdrop : dropGlyphs (widthOf xs) e.glyphs = glyphsOf zs ++ glyphsOf ys := by
    rw [h, Token.glyphsOf_append, Token.glyphsOf_append, ← Token.glyphWidth_glyphsOf,
      dropGlyphs_append]
  have htake : takeGlyphs (widthOf zs) (glyphsOf zs ++ glyphsOf ys) = glyphsOf zs := by
    rw [← Token.glyphWidth_glyphsOf, takeGlyphs_append]
  have hdropped : ∀ t ∈ zs.dropWhile Token.isBlank, t.Sealed :=
    fun t ht => hzs t (List.dropWhile_subset _ ht)
  unfold slice
  dsimp only
  rw [Nat.add_sub_cancel_left, hdrop, htake, Token.dropWhile_glyphsOf hzs,
    Token.dropEndWhile_glyphsOf hdropped, Token.takeWhile_glyphsOf hzs, Token.glyphWidth_glyphsOf]
  rfl

theorem chars_append (h : e.glyphs = glyphsOf (xs ++ (zs ++ ys))) :
    e.chars (widthOf xs) (widthOf xs + widthOf zs) = textOf zs := by
  rw [chars, h, Token.glyphsOf_append, Token.glyphsOf_append, Nat.add_sub_cancel_left,
    ← Token.glyphWidth_glyphsOf xs, dropGlyphs_append, ← Token.glyphWidth_glyphsOf zs,
    takeGlyphs_append, Token.plainText_glyphsOf]

theorem slice_of_le {start stop : Nat} (h : stop ≤ start) :
    e.slice start stop = ⟨[], e.offset + start⟩ := by
  have htake (gs : List Glyph) : takeGlyphs (stop - start) gs = [] := by
    rw [Nat.sub_eq_zero_of_le h]
    cases gs <;> rfl
  unfold slice
  rw [htake]
  rfl

end Slices

/-! ### Spans -/

/-- The expression is a run of tokens of the statement, in its place. -/
def Spans (s : Statement) (ts : List Token) (e : Expr) : Prop :=
  ∃ before after, s.tokens = before ++ (ts ++ after) ∧ e.glyphs = glyphsOf ts ∧
  e.offset = widthOf before

namespace Spans

variable {s : Statement} {e : Expr} {ts : List Token}

theorem glyphs (h : e.Spans s ts) : e.glyphs = glyphsOf ts := by
  obtain ⟨-, -, -, hglyphs, -⟩ := h
  exact hglyphs

theorem sealed (h : e.Spans s ts) (hs : ∀ t ∈ s.tokens, t.Sealed) : ∀ t ∈ ts, t.Sealed := by
  obtain ⟨before, after, htokens, -, -⟩ := h
  intro t ht
  apply hs t
  rw [htokens]
  exact List.mem_append_right _ (List.mem_append_left _ ht)

theorem slice (h : e.Spans s ts) (hs : ∀ t ∈ s.tokens, t.Sealed) {start stop : Nat}
    (hstart : IsCut ts start) (hstop : IsCut ts stop) : ∃ zs, (e.slice start stop).Spans s zs := by
  have hts := h.sealed hs
  obtain ⟨before, after, htokens, hglyphs, hoffset⟩ := h
  obtain ⟨xs, ys, hxs, rfl⟩ := hstart
  by_cases hle : stop ≤ widthOf xs
  · refine ⟨[], before ++ xs, ys ++ after, ?_, ?_, ?_⟩
    · rw [htokens, hxs]
      simp
    · rw [slice_of_le hle]
      rfl
    · rw [slice_of_le hle, Token.widthOf_append, hoffset]
  · obtain ⟨xs', ys', hxs', rfl⟩ := hstop
    -- The second cut lies behind the first one, so there are tokens between them.
    have hsplit : ∃ zs, ts = xs ++ (zs ++ ys') ∧ widthOf xs' = widthOf xs + widthOf zs := by
      rcases List.append_eq_append_iff.mp (hxs.symm.trans hxs') with ⟨zs, rfl, rfl⟩ | ⟨zs, rfl, -⟩
      · exact ⟨zs, hxs, Token.widthOf_append xs zs⟩
      · rw [Token.widthOf_append] at hle
        omega
    obtain ⟨zs, rfl, hwidth⟩ := hsplit
    obtain ⟨back, hback⟩ := Token.exists_trim zs
    have hzs : ∀ t ∈ zs, t.Sealed :=
      fun t ht => hts t (List.mem_append_right _ (List.mem_append_left _ ht))
    rw [hwidth, slice_append hglyphs hzs]
    refine ⟨Token.trim zs, before ++ (xs ++ zs.takeWhile Token.isBlank), back ++ (ys' ++ after), ?_,
      rfl, ?_⟩
    · rw [htokens]
      conv => lhs; rw [hback]
      simp
    · simp only [Token.widthOf_append, hoffset]
      omega

theorem split (h : e.Spans s ts) (hs : ∀ t ∈ s.tokens, t.Sealed) {sep : Char}
    (hdelimiter : isDelimiter sep = false) (hveil : sep ≠ '_') {start stop : Nat}
    (hstart : IsCut ts start) (hstop : IsCut ts stop) {x : Expr} (hx : x ∈ e.split sep start stop) :
    ∃ zs, x.Spans s zs := by
  obtain ⟨r, hr, rfl⟩ := List.mem_map.mp hx
  rw [masked_eq h.glyphs] at hr
  obtain ⟨hfirst, hlast⟩ :=
    Token.isCut_splitTopLevel (h.sealed hs) hdelimiter hveil hstart hstop r hr
  exact h.slice hs hfirst hlast

/-- The value of an argument, behind its keyword if it has one. -/
theorem toArg (h : e.Spans s ts) (hs : ∀ t ∈ s.tokens, t.Sealed) :
    ∃ zs, e.toArg.value.Spans s zs := by
  have hmasked := masked_eq h.glyphs
  unfold Expr.toArg
  dsimp only
  split
  · next c name rest hname hafter =>
    split
    · -- The equals sign is a character of the code, and the value begins behind it.
      have hparts :=
        (List.take_append_drop (e.masked.takeWhile Text.isAsciiWord).length e.masked).symm
      have hblanks := List.takeWhile_append_dropWhile (p := (· == ' '))
        (l := e.masked.drop (e.masked.takeWhile Text.isAsciiWord).length)
      rw [hafter] at hblanks
      rw [← hblanks, ← List.append_assoc, hmasked] at hparts
      obtain ⟨-, hcut⟩ := Token.isCut_of_maskedOf (h.sealed hs) hparts rfl (by decide)
      have hwidth := congrArg Text.width hparts
      rw [Token.width_maskedOf, Text.width_append, Text.width_cons] at hwidth
      rw [width_eq h.glyphs]
      refine h.slice hs ?_ (isCut_width ts)
      rwa [hwidth, ← Nat.add_assoc, Nat.add_sub_cancel]
    · exact ⟨ts, h⟩
  · exact ⟨ts, h⟩

theorem argsAt? (h : e.Spans s ts) (hs : ∀ t ∈ s.tokens, t.Sealed) {start : Nat} {args : Args}
    (hargs : e.argsAt? start = some args) {a : Arg} (ha : a ∈ args.items) :
    ∃ zs, a.value.Spans s zs := by
  have hts := h.sealed hs
  have hmasked := masked_eq h.glyphs
  unfold Expr.argsAt? argsIn? at hargs
  split at hargs
  · next hparen =>
    obtain ⟨close, hclose, rfl⟩ := Option.map_eq_some_iff.mp hargs
    obtain ⟨part, hpart, rfl⟩ := List.mem_map.mp ha
    obtain ⟨hpart, -⟩ := List.mem_filter.mp hpart
    obtain ⟨us, vs, hchars, rfl⟩ := Text.eq_of_charAt? (beq_iff_eq.mp hparen)
    rw [hmasked] at hchars
    rw [hmasked, hchars] at hclose
    obtain ⟨us', d, vs', hcloser, hd, rfl⟩ := Text.exists_closer_of_findMatching rfl hclose
    obtain ⟨-, hopen⟩ := Token.isCut_of_maskedOf hts hchars rfl (by decide)
    obtain ⟨zs, hzs⟩ :=
      h.split hs rfl (by decide) hopen (Token.isCut_of_closer hts (hchars.trans hcloser) hd) hpart
    exact hzs.toArg hs
  · contradiction

theorem items? (h : e.Spans s ts) (hs : ∀ t ∈ s.tokens, t.Sealed) {items : List Expr}
    (hitems : e.items? = some items) {x : Expr} (hx : x ∈ items) : ∃ zs, x.Spans s zs := by
  have hts := h.sealed hs
  have hmasked := masked_eq h.glyphs
  unfold Expr.items? at hitems
  dsimp only at hitems
  split at hitems
  · next closer stop hcloser hstop =>
    split at hitems
    · obtain rfl := Option.some.inj hitems
      obtain ⟨hx, -⟩ := List.mem_filter.mp hx
      obtain ⟨c, hhead, hc⟩ := Option.bind_eq_some_iff.mp hcloser
      have hopener : Text.isOpener c = true ∧ c.utf8Size = 1 ∧ isDelimiter c = false ∧ c ≠ '_' := by
        unfold closerOf? at hc
        repeat' split at hc
        all_goals first | contradiction | skip
        all_goals rename_i hopen; rw [beq_iff_eq.mp hopen]; decide
      obtain ⟨hopen, hsize, hdelimiter, hveil⟩ := hopener
      obtain ⟨vs, hchars⟩ := List.head?_eq_some_iff.mp hhead
      rw [hmasked] at hchars
      rw [hmasked, hchars] at hstop
      obtain ⟨us', d, vs', hcloses, hd, rfl⟩ :=
        @Text.exists_closer_of_findMatching _ hopen [] _ _ hstop
      obtain ⟨-, hfirst⟩ := @Token.isCut_of_maskedOf _ hts [] _ _ hchars hdelimiter hveil
      rw [Text.width_nil, Nat.zero_add, hsize] at hfirst
      exact h.split hs rfl (by decide) hfirst (Token.isCut_of_closer hts (hchars.trans hcloses) hd) hx
    · contradiction
  · contradiction

theorem dictItems? (h : e.Spans s ts) (hs : ∀ t ∈ s.tokens, t.Sealed) {entries : List (Expr × Expr)}
    (hentries : e.dictItems? = some entries) {key value : Expr} (hmem : (key, value) ∈ entries) :
    (∃ zs, key.Spans s zs) ∧ ∃ zs, value.Spans s zs := by
  unfold Expr.dictItems? at hentries
  split at hentries
  · obtain ⟨items, hitems, rfl⟩ := Option.map_eq_some_iff.mp hentries
    obtain ⟨item, hitem, hpair⟩ := List.mem_filterMap.mp hmem
    obtain ⟨zs, hzs⟩ := h.items? hs hitems hitem
    split at hpair
    · next key' value' hsplit =>
      obtain ⟨rfl, rfl⟩ := Prod.mk.inj (Option.some.inj hpair)
      rw [width_eq hzs.glyphs] at hsplit
      have hpart {x : Expr} (hx : x ∈ item.split ':' 0 (widthOf zs)) : ∃ zs, x.Spans s zs :=
        hzs.split hs rfl (by decide) (isCut_zero zs) (isCut_width zs) hx
      exact ⟨hpart (by rw [hsplit]; simp), hpart (by rw [hsplit]; simp)⟩
    · contradiction
  · contradiction

end Spans

/-! ### Expressions of a statement -/

/-- The expressions that are reached from a statement by call arguments, keywords, list items and
the keys and values of dictionaries. -/
inductive Reached (s : Statement) : Expr → Prop
  | whole : Reached s (ofStatement s)
  | argument {e : Expr} {start : Nat} {args : Args} {a : Arg} (he : Reached s e)
      (hargs : e.argsAt? start = some args) (ha : a ∈ args.items) : Reached s a.value
  | item {e x : Expr} {items : List Expr} (he : Reached s e) (hitems : e.items? = some items)
      (hx : x ∈ items) : Reached s x
  | key {e key value : Expr} {entries : List (Expr × Expr)} (he : Reached s e)
      (hentries : e.dictItems? = some entries) (hmem : (key, value) ∈ entries) : Reached s key
  | value {e key value : Expr} {entries : List (Expr × Expr)} (he : Reached s e)
      (hentries : e.dictItems? = some entries) (hmem : (key, value) ∈ entries) : Reached s value

/-- The arguments of a call. -/
theorem Reached.of_callPrefix? {s : Statement} {e : Expr} (he : Reached s e) {c : Call}
    (hc : e.callPrefix? = some c) {a : Arg} (ha : a ∈ c.args.items) : Reached s a.value := by
  unfold callPrefix? at hc
  dsimp only at hc
  split at hc
  · next start stop paren _ =>
    obtain ⟨args, hargs, rfl⟩ := Option.map_eq_some_iff.mp hc
    exact .argument he hargs ha
  · contradiction

/-- Every expression that is reached consists of whole tokens. -/
theorem Reached.spans {s : Statement} (hs : ∀ t ∈ s.tokens, t.Sealed) {e : Expr} (h : Reached s e) :
    ∃ ts, e.Spans s ts := by
  induction h with
  | whole => exact ⟨s.tokens, [], [], by simp, s.glyphs_eq, rfl⟩
  | argument _ hargs ha ih =>
    obtain ⟨ts, hts⟩ := ih
    exact hts.argsAt? hs hargs ha
  | item _ hitems hx ih =>
    obtain ⟨ts, hts⟩ := ih
    exact hts.items? hs hitems hx
  | key _ hentries hmem ih =>
    obtain ⟨ts, hts⟩ := ih
    exact (hts.dictItems? hs hentries hmem).1
  | value _ hentries hmem ih =>
    obtain ⟨ts, hts⟩ := ih
    exact (hts.dictItems? hs hentries hmem).2

end Expr

end EndpointCensus
