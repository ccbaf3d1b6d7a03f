import EndpointCensus.Proofs.Expr.Span

/-!
Expressions as parts of others. Separators and brackets are read from the masked text, where a
hidden character shows as underscores only, so they are characters of the code whatever the
statement is, and cuts are between characters. Items and arguments are therefore parts of their
expression, in the order in which they are written and without overlap.
-/

namespace EndpointCensus

open Text (width)

/-! ### Cuts between glyphs -/

namespace Glyph

/-- Byte `n` lies between two glyphs, or at either end of them. -/
def IsCut (gs : List Glyph) (n : Nat) : Prop := ∃ xs ys, gs = xs ++ ys ∧ glyphWidth xs = n

theorem isCut_width (gs : List Glyph) :
    IsCut gs (glyphWidth gs) := ⟨gs, [], (List.append_nil gs).symm, rfl⟩

theorem isCut_zero (gs : List Glyph) : IsCut gs 0 := ⟨[], gs, rfl, rfl⟩

end Glyph

open Glyph (IsCut isCut_zero isCut_width)

theorem glyphWidth_append (gs hs : List Glyph) :
    glyphWidth (gs ++ hs) = glyphWidth gs + glyphWidth hs := by
  rw [Token.glyphWidth_eq, plainText, List.map_append, Text.width_append, Token.glyphWidth_eq,
    Token.glyphWidth_eq]
  rfl

theorem width_maskedText_eq (gs : List Glyph) : width (maskedText gs) = glyphWidth gs := by
  rw [width_maskedText, Token.glyphWidth_eq]

/-- A character that shows, other than a veil, is one of the code. -/
theorem exists_glyph_of_maskedText {gs : List Glyph} {us vs : List Char} {c : Char}
    (h : maskedText gs = us ++ c :: vs) (hveil : c ≠ '_') :
    ∃ xs ys, gs = xs ++ ⟨c, false⟩ :: ys ∧ maskedText xs = us ∧ maskedText ys = vs := by
  induction gs generalizing us with
  | nil => exact absurd h (by simp [maskedText])
  | cons g gs ih =>
    obtain ⟨d, veiled⟩ := g
    rw [maskedText] at h
    rcases List.append_eq_append_iff.mp h with ⟨us', rfl, hrest⟩ | ⟨zs, hshown, hrest⟩
    · obtain ⟨xs, ys, rfl, rfl, rfl⟩ := ih hrest
      exact ⟨⟨d, veiled⟩ :: xs, ys, rfl, rfl, rfl⟩
    · cases zs with
      | nil =>
        have hrest : maskedText gs = [] ++ c :: vs := hrest.symm
        obtain ⟨xs, ys, rfl, hxs, rfl⟩ := ih hrest
        exact ⟨⟨d, veiled⟩ :: xs, ys, rfl,
          by rw [maskedText, hxs, hshown, List.append_nil, List.append_nil], rfl⟩
      | cons z zs =>
        obtain ⟨rfl, rfl⟩ := List.cons.inj hrest
        cases veiled with
        | true =>
          have hmem : c ∈ Glyph.shown ⟨d, true⟩ :=
            hshown ▸ List.mem_append_right _ List.mem_cons_self
          exact absurd (List.eq_of_mem_replicate hmem) hveil
        | false =>
          have hone : [d] = us ++ c :: zs := hshown
          cases us with
          | nil =>
            obtain ⟨rfl, rfl⟩ := List.cons.inj hone
            exact ⟨[], gs, rfl, rfl, rfl⟩
          | cons u us => simp at hone

theorem Glyph.isCut_of_maskedText {gs : List Glyph} {us vs : List Char} {c : Char}
    (h : maskedText gs = us ++ c :: vs) (hveil : c ≠ '_') :
    IsCut gs (width us) ∧ IsCut gs (width us + c.utf8Size) := by
  obtain ⟨xs, ys, rfl, rfl, rfl⟩ := exists_glyph_of_maskedText h hveil
  rw [width_maskedText_eq]
  refine ⟨⟨xs, _, rfl, rfl⟩, ⟨xs ++ [⟨c, false⟩], ys, by simp, ?_⟩⟩
  rw [glyphWidth_append]
  rfl

theorem Glyph.isCut_of_closer {gs : List Glyph} {us vs : List Char} {c : Char}
    (h : maskedText gs = us ++ c :: vs) (hc : Text.isCloser c = true) : IsCut gs (width us) := by
  refine (isCut_of_maskedText h ?_).1
  rintro rfl
  contradiction

/-! ### Ranges in order -/

namespace Text

theorem le_of_mem_splitFrom {sep : Char} {stop first pos depth : Nat} {cs : List Char}
    (hfirst : first ≤ pos) : ∀ r ∈ splitFrom sep stop first pos depth cs, first ≤ r.1 := by
  induction cs generalizing first pos depth with
  | nil => exact fun r hr => (List.mem_singleton.mp hr) ▸ Nat.le_refl _
  | cons c cs ih =>
    unfold splitFrom
    dsimp only
    split
    · exact fun r hr => (List.mem_singleton.mp hr) ▸ Nat.le_refl _
    · split
      · exact ih (by omega)
      · split
        · exact ih (by omega)
        · split
          · intro r hr
            rcases List.mem_cons.mp hr with rfl | hr
            · exact Nat.le_refl _
            · exact (ih (Nat.le_refl _) r hr).trans' (by omega)
          · exact ih (by omega)

/-- A range ends before the separator behind which the next one begins. -/
theorem pairwise_splitFrom {sep : Char} {stop first pos depth : Nat} {cs : List Char} :
    (splitFrom sep stop first pos depth cs).Pairwise fun r r' => r.2 < r'.1 := by
  induction cs generalizing first pos depth with
  | nil => exact List.pairwise_singleton ..
  | cons c cs ih =>
    unfold splitFrom
    dsimp only
    split
    · exact List.pairwise_singleton ..
    · split
      · exact ih
      · split
        · exact ih
        · split
          · have hpos := c.utf8Size_pos
            refine List.pairwise_cons.mpr ⟨fun r hr => ?_, ih⟩
            have hle := le_of_mem_splitFrom (Nat.le_refl _) r hr
            dsimp only
            omega
          · exact ih

end Text

theorem Glyph.isCut_splitTopLevel {gs : List Glyph} {sep : Char} (hveil : sep ≠ '_')
    {start stop : Nat} (hstart : IsCut gs start) (hstop : IsCut gs stop) :
    (∀ r ∈ Text.splitTopLevel sep (maskedText gs) start stop, start ≤ r.1 ∧ IsCut gs r.1 ∧
      IsCut gs r.2) ∧ (Text.splitTopLevel sep (maskedText gs) start stop).Pairwise fun r r' =>
        r.2 < r'.1 := by
  obtain ⟨xs, ys, rfl, rfl⟩ := hstart
  have hseek : Text.seek 0 (glyphWidth xs) (maskedText (xs ++ ys)) =
      (glyphWidth xs, maskedText ys) := by
    rw [Draft.maskedText_append, ← width_maskedText_eq xs, Text.seek_append, Nat.zero_add]
  unfold Text.splitTopLevel
  rw [hseek]
  refine ⟨fun r hr => ⟨Text.le_of_mem_splitFrom (Nat.le_refl _) r hr, ?_⟩, Text.pairwise_splitFrom⟩
  refine Text.forall_mem_splitFrom ⟨xs, ys, rfl, rfl⟩ hstop (fun us vs hys => ?_) r hr
  have hmasked : maskedText (xs ++ ys) = (maskedText xs ++ us) ++ sep :: vs := by
    rw [Draft.maskedText_append, hys, List.append_assoc]
  have hcuts := isCut_of_maskedText hmasked hveil
  rwa [Text.width_append, width_maskedText_eq] at hcuts

/-! ### Parts -/

namespace Expr

variable {e x y : Expr}

/-- The expression is a stretch of another one, in its place. -/
def Part (x e : Expr) : Prop :=
  ∃ before after, e.glyphs = before ++ (x.glyphs ++ after) ∧ x.offset = e.offset + glyphWidth before

def Before (x y : Expr) : Prop := x.offset + x.width ≤ y.offset

namespace Part

theorem refl (e : Expr) : e.Part e := ⟨[], [], (List.append_nil _).symm, rfl⟩

theorem trans (hx : x.Part y) (hy : y.Part e) : x.Part e := by
  obtain ⟨before, after, hglyphs, hoffset⟩ := hx
  obtain ⟨before', after', hglyphs', hoffset'⟩ := hy
  refine ⟨before' ++ before, after ++ after', ?_, ?_⟩
  · rw [hglyphs', hglyphs]
    simp
  · rw [hoffset, hoffset', glyphWidth_append, Nat.add_assoc]

theorem offset_le (h : x.Part e) : e.offset ≤ x.offset := by
  obtain ⟨before, after, -, hoffset⟩ := h
  omega

theorem stop_le (h : x.Part e) : x.offset + x.width ≤ e.offset + e.width := by
  obtain ⟨before, after, hglyphs, hoffset⟩ := h
  rw [hoffset, width, width, hglyphs, glyphWidth_append, glyphWidth_append]
  omega

theorem length_le (h : x.Part e) : x.glyphs.length ≤ e.glyphs.length := by
  obtain ⟨before, after, hglyphs, -⟩ := h
  rw [hglyphs]
  simp only [List.length_append]
  omega

/-- A part that begins later is shorter. -/
theorem length_lt (h : x.Part e) (hlt : e.offset < x.offset) :
    x.glyphs.length < e.glyphs.length := by
  obtain ⟨before, after, hglyphs, hoffset⟩ := h
  cases before with
  | nil => simp [hoffset, glyphWidth] at hlt
  | cons g before =>
    rw [hglyphs]
    simp only [List.cons_append, List.length_cons, List.length_append]
    omega

end Part

/-- Parts of what comes first come first. -/
theorem Before.mono {x' y' : Expr} (h : x.Before y) (hx : x'.Part x) (hy : y'.Part y) :
    x'.Before y' :=
  hx.stop_le.trans (Nat.le_trans h hy.offset_le)

/-! ### Slices -/

theorem slice_eq {xs zs ys : List Glyph} (h : e.glyphs = xs ++ (zs ++ ys)) :
    e.slice (glyphWidth xs) (glyphWidth xs + glyphWidth zs) =
      ⟨Text.dropEndWhile Glyph.isBlank (zs.dropWhile Glyph.isBlank),
        e.offset + glyphWidth xs + glyphWidth (zs.takeWhile Glyph.isBlank)⟩ := by
  rw [slice, Nat.add_sub_cancel_left, h, dropGlyphs_append, takeGlyphs_append]

/-- A slice between cuts is a part, and it lies between them. -/
theorem slice_part {start stop : Nat} (hstart : IsCut e.glyphs start)
    (hstop : IsCut e.glyphs stop) :
    (e.slice start stop).Part e ∧ e.offset + start ≤ (e.slice start stop).offset ∧
      ((e.slice start stop).isEmpty = false →
        (e.slice start stop).offset + (e.slice start stop).width ≤ e.offset + stop) := by
  obtain ⟨xs, rest, hxs, rfl⟩ := hstart
  by_cases hle : stop ≤ glyphWidth xs
  · rw [slice_of_le hle]
    exact ⟨⟨xs, rest, hxs, rfl⟩, Nat.le_refl _, fun h => by simp [isEmpty] at h⟩
  · obtain ⟨xs', ys, hxs', rfl⟩ := hstop
    obtain ⟨zs, hzs, hwidth⟩ : ∃ zs, e.glyphs = xs ++ (zs ++ ys) ∧
        glyphWidth xs' = glyphWidth xs + glyphWidth zs := by
      rcases List.append_eq_append_iff.mp (hxs.symm.trans hxs') with ⟨zs, rfl, rfl⟩ | ⟨zs, rfl, -⟩
      · exact ⟨zs, hxs, glyphWidth_append xs zs⟩
      · rw [glyphWidth_append] at hle
        omega
    obtain ⟨back, hback⟩ := Text.dropEndWhile_prefix Glyph.isBlank (zs.dropWhile Glyph.isBlank)
    have hzs' : zs = zs.takeWhile Glyph.isBlank ++
        (Text.dropEndWhile Glyph.isBlank (zs.dropWhile Glyph.isBlank) ++ back) := by
      rw [hback, List.takeWhile_append_dropWhile]
    have hparts := congrArg glyphWidth hzs'
    rw [glyphWidth_append, glyphWidth_append] at hparts
    rw [hwidth, slice_eq hzs]
    refine ⟨⟨xs ++ zs.takeWhile Glyph.isBlank, back ++ ys, ?_, ?_⟩, ?_, fun _ => ?_⟩
    · rw [hzs]
      conv => lhs; rw [hzs']
      simp
    · rw [glyphWidth_append, Nat.add_assoc]
    · dsimp only
      omega
    · dsimp only [width]
      omega

/-- What is split off lies between cuts, in order. -/
theorem split_part {sep : Char} (hveil : sep ≠ '_') {start stop : Nat}
    (hstart : IsCut e.glyphs start) (hstop : IsCut e.glyphs stop) :
    (∀ x ∈ e.split sep start stop, x.Part e ∧ e.offset + start ≤ x.offset) ∧
      ((e.split sep start stop).filter (!·.isEmpty)).Pairwise Before := by
  obtain ⟨hcuts, hpairwise⟩ := Glyph.isCut_splitTopLevel hveil hstart hstop
  refine ⟨fun x hx => ?_, ?_⟩
  · obtain ⟨r, hr, rfl⟩ := List.mem_map.mp hx
    obtain ⟨hle, hfirst, hlast⟩ := hcuts r hr
    obtain ⟨hpart, hoffset, -⟩ := slice_part hfirst hlast
    exact ⟨hpart, by omega⟩
  · rw [List.pairwise_filter]
    refine List.pairwise_map.mpr (hpairwise.imp_of_mem fun {r r'} hr hr' hlt hx _ => ?_)
    obtain ⟨-, hfirst, hlast⟩ := hcuts r hr
    obtain ⟨-, hfirst', hlast'⟩ := hcuts r' hr'
    obtain ⟨-, -, hstop⟩ := slice_part hfirst hlast
    obtain ⟨-, hoffset, -⟩ := slice_part hfirst' hlast'
    have hend := hstop (by simpa using hx)
    exact Nat.le_trans hend (by omega)

/-! ### Items and arguments -/

/-- Shorter parts of an expression that come one after the other. -/
structure Parts (e : Expr) (xs : List Expr) : Prop where
  part : ∀ x ∈ xs, x.Part e
  shorter : ∀ x ∈ xs, x.glyphs.length < e.glyphs.length
  ordered : xs.Pairwise Before

theorem Parts.sublist {xs ys : List Expr} (h : e.Parts ys) (hxs : xs.Sublist ys) : e.Parts xs :=
  ⟨fun x hx => h.part x (hxs.subset hx), fun x hx => h.shorter x (hxs.subset hx),
    h.ordered.sublist hxs⟩

theorem parts_split {sep : Char} (hveil : sep ≠ '_') {start stop : Nat} (hpos : 0 < start)
    (hstart : IsCut e.glyphs start) (hstop : IsCut e.glyphs stop) :
    e.Parts ((e.split sep start stop).filter (!·.isEmpty)) := by
  obtain ⟨hparts, hordered⟩ := split_part (e := e) hveil hstart hstop
  refine ⟨fun x hx => (hparts x (List.mem_filter.mp hx).1).1, fun x hx => ?_, hordered⟩
  obtain ⟨hpart, hoffset⟩ := hparts x (List.mem_filter.mp hx).1
  exact hpart.length_lt (by omega)

theorem opener_of_closerOf? {c closer : Char} (h : closerOf? c = some closer) :
    Text.isOpener c = true ∧ c.utf8Size = 1 ∧ c ≠ '_' := by
  unfold closerOf? at h
  repeat' split at h
  all_goals first | contradiction | skip
  all_goals rename_i hopen; rw [beq_iff_eq.mp hopen]; decide

theorem parts_items? {items : List Expr} (h : e.items? = some items) : e.Parts items := by
  unfold items? at h
  dsimp only at h
  split at h
  next closer stop hcloser hstop =>
    split at h
    next =>
      obtain rfl := Option.some.inj h
      obtain ⟨c, hhead, hc⟩ := Option.bind_eq_some_iff.mp hcloser
      obtain ⟨hopen, hsize, hveil⟩ := opener_of_closerOf? hc
      obtain ⟨vs, hchars⟩ := List.head?_eq_some_iff.mp hhead
      rw [hchars] at hstop
      obtain ⟨us', d, vs', hcloses, hd, rfl⟩ :=
        @Text.exists_closer_of_findMatching _ hopen [] _ _ hstop
      have hstart : IsCut e.glyphs 1 := by
        obtain ⟨-, hcut⟩ := @Glyph.isCut_of_maskedText _ [] _ _ hchars hveil
        rwa [Text.width_nil, Nat.zero_add, hsize] at hcut
      exact parts_split (by decide) Nat.one_pos hstart
        (Glyph.isCut_of_closer (hchars.trans hcloses) hd)
    next => contradiction
  next => contradiction

theorem toArg_part (e : Expr) : e.toArg.value.Part e := by
  unfold toArg
  dsimp only
  split
  next c name rest hname hafter =>
    split
    next =>
      -- The equals sign is a character of the code, and the value begins behind it.
      have hparts :=
        (List.take_append_drop (e.masked.takeWhile Text.isAsciiWord).length e.masked).symm
      have hblanks := List.takeWhile_append_dropWhile (p := (· == ' '))
        (l := e.masked.drop (e.masked.takeWhile Text.isAsciiWord).length)
      rw [hafter] at hblanks
      rw [← hblanks, ← List.append_assoc] at hparts
      obtain ⟨-, hcut⟩ := Glyph.isCut_of_maskedText hparts (by decide)
      have hwidth := congrArg Text.width hparts
      rw [masked, width_maskedText_eq, Text.width_append, Text.width_cons] at hwidth
      refine (slice_part ?_ (isCut_width e.glyphs)).1
      rw [Expr.width, hwidth, ← Nat.add_assoc, Nat.add_sub_cancel]
      exact hcut
    next => exact .refl e
  next => exact .refl e

theorem toArg_of_positional (h : e.toArg.keyword = none) : e.toArg.value = e := by
  unfold toArg at h ⊢
  dsimp only at h ⊢
  split at h
  next =>
    split at h
    next => contradiction
    next hno => rw [if_neg hno]
  next => rfl

/-- Positional arguments stay as they are, and every argument is a part. -/
theorem Parts.args {parts : List Expr} (h : e.Parts parts) (stop : Nat) :
    e.Parts (Args.positionals ⟨parts.map toArg, stop⟩) ∧
      ∀ a ∈ parts.map toArg, a.value.Part e ∧ a.value.glyphs.length < e.glyphs.length := by
  refine ⟨h.sublist ?_, fun a ha => ?_⟩
  · have hpositionals : Args.positionals ⟨parts.map toArg, stop⟩ = parts.filter fun p =>
        p.toArg.keyword.isNone := by
      rw [Args.positionals, List.filter_map, List.map_map]
      refine (List.map_congr_left fun p hp => ?_).trans (List.map_id _)
      exact toArg_of_positional (Option.isNone_iff_eq_none.mp (List.mem_filter.mp hp).2)
    rw [hpositionals]
    exact List.filter_sublist
  · obtain ⟨p, hp, rfl⟩ := List.mem_map.mp ha
    exact ⟨p.toArg_part.trans (h.part p hp), Nat.lt_of_le_of_lt p.toArg_part.length_le
      (h.shorter p hp)⟩

theorem parts_argsIn? {start : Nat} {args : Args} (h : e.argsIn? e.masked start = some args) :
    e.Parts args.positionals ∧
      ∀ a ∈ args.items, a.value.Part e ∧ a.value.glyphs.length < e.glyphs.length := by
  unfold argsIn? at h
  split at h
  next hparen =>
    obtain ⟨close, hclose, rfl⟩ := Option.map_eq_some_iff.mp h
    obtain ⟨us, vs, hchars, rfl⟩ := Text.eq_of_charAt? (beq_iff_eq.mp hparen)
    rw [hchars] at hclose
    obtain ⟨us', d, vs', hcloser, hd, rfl⟩ := Text.exists_closer_of_findMatching rfl hclose
    obtain ⟨-, hopen⟩ := Glyph.isCut_of_maskedText hchars (by decide)
    have hparts := parts_split (e := e) (by decide : ',' ≠ '_') (Nat.succ_pos _) hopen
      (Glyph.isCut_of_closer (hchars.trans hcloser) hd)
    exact hparts.args _
  next => contradiction

theorem parts_call? {c : Call} (h : e.call? = some c) :
    e.Parts c.args.positionals ∧
      ∀ a ∈ c.args.items, a.value.Part e ∧ a.value.glyphs.length < e.glyphs.length := by
  have hprefix := (Option.filter_eq_some_iff.mp h).1
  unfold callPrefix? at hprefix
  dsimp only at hprefix
  split at hprefix
  next =>
    obtain ⟨args, hargs, rfl⟩ := Option.map_eq_some_iff.mp hprefix
    exact parts_argsIn? hargs
  next => contradiction

theorem parts_positional? {c : Call} (h : e.call? = some c) {n : Nat} {x : Expr}
    (hx : c.args.positional? n = some x) : x.Part e ∧ x.glyphs.length < e.glyphs.length := by
  have hparts := (parts_call? h).1
  have hmem := List.mem_of_getElem? hx
  exact ⟨hparts.part x hmem, hparts.shorter x hmem⟩

theorem parts_keyword? {c : Call} (h : e.call? = some c) {name : String} {x : Expr}
    (hx : c.args.keyword? name = some x) : x.Part e ∧ x.glyphs.length < e.glyphs.length := by
  obtain ⟨a, ha, rfl⟩ := Option.map_eq_some_iff.mp hx
  exact (parts_call? h).2 a (List.mem_of_find?_eq_some ha)

end Expr

end EndpointCensus
