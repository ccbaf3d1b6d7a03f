import EndpointCensus.Idiom.Heading
import EndpointCensus.Proofs.Expr.Part
import EndpointCensus.Proofs.Text.Behind

/-!
Expressions with something written before them or behind them. An expression behind a beginning is
read like the expression by itself, at places that are moved. Where an expression stands shows in
the offsets of its parts and in nothing else, and what is written behind the parenthesis that closes
an argument list does not change the list.
-/

namespace EndpointCensus

open Text (width)

/-! ### Glyphs -/

theorem dropGlyphs_behind (gs hs : List Glyph) (n : Nat) :
    dropGlyphs (glyphWidth gs + n) (gs ++ hs) = dropGlyphs n hs := by
  induction gs with
  | nil => rw [glyphWidth, Nat.zero_add, List.nil_append]
  | cons g gs ih =>
    have hpos := g.char.utf8Size_pos
    obtain ⟨m, hm⟩ : ∃ m, g.char.utf8Size + (glyphWidth gs + n) = m + 1 :=
      ⟨g.char.utf8Size + (glyphWidth gs + n) - 1, by omega⟩
    rw [List.cons_append, glyphWidth, Nat.add_assoc, hm, dropGlyphs, ← hm, Nat.add_sub_cancel_left,
      ih]
    exact fun h => by contradiction

theorem length_dropGlyphs_le (n : Nat) (gs : List Glyph) :
    (dropGlyphs n gs).length ≤ gs.length := by
  induction gs generalizing n with
  | nil => cases n <;> exact Nat.le_refl _
  | cons g gs ih =>
    cases n with
    | zero => exact Nat.le_refl _
    | succ n =>
      rw [dropGlyphs]
      · exact (ih _).trans (Nat.le_succ _)
      · exact fun h => by contradiction

theorem length_takeGlyphs_le (n : Nat) (gs : List Glyph) :
    (takeGlyphs n gs).length ≤ gs.length := by
  induction gs generalizing n with
  | nil => cases n <;> exact Nat.le_refl _
  | cons g gs ih =>
    cases n with
    | zero => exact Nat.zero_le _
    | succ n =>
      rw [takeGlyphs]
      · exact Nat.succ_le_succ (ih _)
      · exact fun h => by contradiction

/-- The glyphs of code. -/
def plainGlyphs (cs : List Char) : List Glyph := cs.map (⟨·, false⟩)

theorem maskedText_plainGlyphs (cs : List Char) : maskedText (plainGlyphs cs) = cs := by
  induction cs with
  | nil => rfl
  | cons c cs ih => exact congrArg (c :: ·) ih

theorem glyphWidth_plainGlyphs (cs : List Char) : glyphWidth (plainGlyphs cs) = width cs := by
  rw [← width_maskedText_eq, maskedText_plainGlyphs]

theorem plainText_plainGlyphs (cs : List Char) : plainText (plainGlyphs cs) = cs := by
  rw [plainText, plainGlyphs, List.map_map]
  exact List.map_id _

theorem plainGlyphs_append (xs ys : List Char) :
    plainGlyphs (xs ++ ys) = plainGlyphs xs ++ plainGlyphs ys :=
  List.map_append

theorem glyphsOf_map_code (cs : List Char) : Token.glyphsOf (cs.map .code) = plainGlyphs cs := by
  induction cs with
  | nil => rfl
  | cons c cs ih => exact congrArg (⟨c, false⟩ :: ·) ih

/-- The glyphs of a statement that begins with characters of code. -/
theorem Statement.glyphs_of_tokens {s : Statement} {cs : List Char} {rest : List Token}
    (h : s.tokens = cs.map .code ++ rest) :
    (Expr.ofStatement s).glyphs = plainGlyphs cs ++ Token.glyphsOf rest := by
  rw [← glyphsOf_map_code, ← Token.glyphsOf_append, ← h]
  exact s.glyphs_eq

theorem Context.glyphs_of_tokens (c : Context) {cs : List Char} {rest : List Token}
    (h : c.statement.tokens = cs.map .code ++ rest) :
    c.expr.glyphs = plainGlyphs cs ++ Token.glyphsOf rest :=
  Statement.glyphs_of_tokens h

/-- The glyphs without white space at either end. -/
def trimGlyphs (gs : List Glyph) : List Glyph :=
  Text.dropEndWhile Glyph.isBlank (gs.dropWhile Glyph.isBlank)

section Trimming

variable {α : Type} {p : α → Bool}

theorem dropEndWhile_dropEndWhile (xs : List α) :
    Text.dropEndWhile p (Text.dropEndWhile p xs) = Text.dropEndWhile p xs := by
  induction xs with
  | nil => rfl
  | cons a xs ih =>
    rw [Text.dropEndWhile]
    split
    · rfl
    · next hkept => rw [Text.dropEndWhile, ih, if_neg hkept]

theorem dropWhile_dropEndWhile (xs : List α) :
    (Text.dropEndWhile p xs).dropWhile p = Text.dropEndWhile p (xs.dropWhile p) := by
  induction xs with
  | nil => rfl
  | cons a xs ih =>
    rw [Text.dropEndWhile, List.dropWhile_cons]
    split
    · next hend =>
      obtain ⟨hempty, ha⟩ := Bool.and_eq_true_iff.mp hend
      rw [if_pos ha, ← ih, List.isEmpty_iff.mp hempty]
    · next hkept =>
      rw [List.dropWhile_cons]
      split
      · exact ih
      · rw [Text.dropEndWhile, if_neg hkept]

theorem getLast?_dropEndWhile (p : α → Bool) (xs : List α) :
    (Text.dropEndWhile p xs).getLast?.any p = false := by
  induction xs with
  | nil => rfl
  | cons a xs ih =>
    rw [Text.dropEndWhile]
    split
    · rfl
    · next hkept =>
      cases hrest : Text.dropEndWhile p xs with
      | nil => simpa [hrest] using hkept
      | cons b bs =>
        rw [List.getLast?_cons_cons, ← hrest]
        exact ih

/-- White space at the end is trimmed away once. -/
theorem trimGlyphs_dropEndWhile (gs : List Glyph) :
    trimGlyphs (Text.dropEndWhile Glyph.isBlank gs) = trimGlyphs gs := by
  rw [trimGlyphs, trimGlyphs, dropWhile_dropEndWhile, dropEndWhile_dropEndWhile]

/-- What stands between white space and more, itself not ending in white space at either side. -/
theorem trimGlyphs_append {pads core : List Glyph} (hpads : ∀ g ∈ pads, g.isBlank = true)
    (hne : core ≠ []) (hfirst : core.head?.any Glyph.isBlank = false)
    (hlast : core.getLast?.any Glyph.isBlank = false) (more : List Glyph) :
    trimGlyphs (pads ++ (core ++ more)) = core ++ Text.dropEndWhile Glyph.isBlank more := by
  have hstart : (core ++ more).dropWhile Glyph.isBlank = core ++ more := by
    cases core with
    | nil => contradiction
    | cons g core => exact List.dropWhile_cons_of_neg (by simpa using hfirst)
  rw [trimGlyphs, List.dropWhile_append_of_pos hpads, hstart,
    Text.dropEndWhile_append_of_getLast? hlast hne]

end Trimming

theorem maskedText_dropWhile (gs : List Glyph) :
    maskedText (gs.dropWhile Glyph.isBlank) = Text.trimStart (maskedText gs) := by
  induction gs with
  | nil => rfl
  | cons g gs ih =>
    obtain ⟨c, veiled⟩ := g
    cases veiled with
    | true =>
      obtain ⟨n, hn⟩ := Nat.exists_eq_succ_of_ne_zero c.utf8Size_pos.ne'
      have hshown : maskedText (⟨c, true⟩ :: gs) =
          '_' :: (List.replicate n '_' ++ maskedText gs) := by
        rw [maskedText, Glyph.shown, if_pos rfl, hn, List.replicate_succ, List.cons_append]
      rw [List.dropWhile_cons_of_neg (by simp [Glyph.isBlank]), hshown]
      rfl
    | false =>
      have hshown : maskedText (⟨c, false⟩ :: gs) = c :: maskedText gs := rfl
      have hblank : Glyph.isBlank ⟨c, false⟩ = Text.isBlank c := rfl
      rw [hshown, Text.trimStart, List.dropWhile_cons, List.dropWhile_cons, hblank]
      split
      · exact ih
      · exact hshown

/-- Glyphs that show something other than white space first begin with none. -/
theorem head?_isBlank_of_maskedText {gs : List Glyph}
    (h : (maskedText gs).head?.any Text.isBlank = false) : gs.head?.any Glyph.isBlank = false := by
  cases gs with
  | nil => rfl
  | cons g gs =>
    cases hg : g.isBlank with
    | false => exact hg
    | true =>
      obtain ⟨hveil, hc⟩ := Bool.and_eq_true_iff.mp hg
      have hshown : g.shown = [g.char] := if_neg (by simpa using hveil)
      rw [maskedText, hshown] at h
      exact absurd hc (by simpa using h)

/-- White space at the beginning is trimmed away up to what stands behind it. -/
theorem trimGlyphs_before {more : List Glyph} (gs : List Glyph)
    (hfirst : more.head?.any Glyph.isBlank = false)
    (hlast : more.getLast?.any Glyph.isBlank = false) (hne : more ≠ []) :
    trimGlyphs (gs ++ more) = gs.dropWhile Glyph.isBlank ++ more := by
  have hstart : (gs ++ more).dropWhile Glyph.isBlank = gs.dropWhile Glyph.isBlank ++ more := by
    rw [List.dropWhile_append]
    split
    · next hempty => rw [Text.dropWhile_of_head? hfirst, List.isEmpty_iff.mp hempty,
        List.nil_append]
    · rfl
  rw [trimGlyphs, hstart]
  exact Text.dropEndWhile_of_getLast? ((Text.getLast?_any_append _ hne).trans hlast)

theorem takeGlyphs_before {n : Nat} {gs : List Glyph} (h : n ≤ glyphWidth gs) (more : List Glyph) :
    takeGlyphs n (gs ++ more) = takeGlyphs n gs := by
  induction gs generalizing n with
  | nil =>
    obtain rfl := Nat.le_zero.mp h
    cases more <;> rfl
  | cons g gs ih =>
    cases n with
    | zero => rfl
    | succ n =>
      rw [glyphWidth] at h
      rw [List.cons_append, takeGlyphs, takeGlyphs, ih (by omega)]
      all_goals exact fun h => by contradiction

/-! ### Arguments wherever they stand -/

/-- Functions that agree on what two optional values show give the same. -/
theorem bind_congr_of_map {α β γ : Type} {g : α → β} {f f' : α → Option γ} {a b : Option α}
    (h : a.map g = b.map g) (hf : ∀ x y, a = some x → b = some y → g x = g y → f x = f' y) :
    a.bind f = b.bind f' := by
  cases a with
  | none =>
    cases b with
    | none => rfl
    | some y => contradiction
  | some x =>
    cases b with
    | none => contradiction
    | some y => exact hf x y rfl rfl (Option.some.inj h)

theorem getLast?_congr_of_map {α β : Type} {g : α → β} {xs ys : List α} (h : xs.map g = ys.map g) :
    xs.getLast?.map g = ys.getLast?.map g := by
  rw [← List.getLast?_map, ← List.getLast?_map, h]

/-- What an argument shows, wherever it stands. -/
def Arg.look (a : Arg) : Option (List Char) × List Glyph := (a.keyword, a.value.glyphs)

namespace Args

/-- What the arguments show, wherever they stand. -/
def look (a : Args) : List (Option (List Char) × List Glyph) := a.items.map Arg.look

/-- The same arguments, the parenthesis that closes them some bytes further on. -/
def moved (n : Nat) (a : Args) : Args := { a with stop := n + a.stop }

variable {a b : Args}

theorem positionals_look (a : Args) :
    a.positionals.map Expr.glyphs = (a.look.filter (·.1.isNone)).map Prod.snd := by
  rw [positionals, look, List.filter_map, List.map_map, List.map_map]
  rfl

theorem positionals_congr (h : a.look = b.look) :
    a.positionals.map Expr.glyphs = b.positionals.map Expr.glyphs := by
  rw [positionals_look, positionals_look, h]

theorem positional?_congr (h : a.look = b.look) (n : Nat) :
    (a.positional? n).map Expr.glyphs = (b.positional? n).map Expr.glyphs := by
  rw [positional?, positional?, ← List.getElem?_map, ← List.getElem?_map, positionals_congr h]

theorem isEmpty_congr (h : a.look = b.look) : a.items.isEmpty = b.items.isEmpty := by
  have hlook := congrArg List.isEmpty h
  rwa [look, look, List.isEmpty_map, List.isEmpty_map] at hlook

theorem length_congr (h : a.look = b.look) : a.items.length = b.items.length := by
  have hlook := congrArg List.length h
  rwa [look, look, List.length_map, List.length_map] at hlook

end Args

namespace Expr

variable {e x y : Expr}

/-! ### The same glyphs elsewhere -/

theorem glyphs_slice (e : Expr) (start stop : Nat) :
    (e.slice start stop).glyphs =
      trimGlyphs (takeGlyphs (stop - start) (dropGlyphs start e.glyphs)) := rfl

theorem masked_congr (h : x.glyphs = y.glyphs) : x.masked = y.masked := congrArg maskedText h

theorem text_congr (h : x.glyphs = y.glyphs) : x.text = y.text := congrArg plainText h

theorem width_congr (h : x.glyphs = y.glyphs) : x.width = y.width := congrArg glyphWidth h

theorem isEmpty_congr (h : x.glyphs = y.glyphs) : x.isEmpty = y.isEmpty := congrArg List.isEmpty h

theorem slice_congr (h : x.glyphs = y.glyphs) (start stop : Nat) :
    (x.slice start stop).glyphs = (y.slice start stop).glyphs := by
  rw [glyphs_slice, glyphs_slice, h]

theorem tail_congr (h : x.glyphs = y.glyphs) (start : Nat) :
    (x.tail start).glyphs = (y.tail start).glyphs := by
  rw [tail, tail, width_congr h]
  exact slice_congr h _ _

theorem glyphs_tail_zero (e : Expr) : (e.tail 0).glyphs = trimGlyphs e.glyphs := by
  have htake := takeGlyphs_append e.glyphs []
  rw [List.append_nil] at htake
  rw [tail, Nat.zero_min, glyphs_slice, Nat.sub_zero, dropGlyphs, width, htake]

theorem chars_congr (h : x.glyphs = y.glyphs) (start stop : Nat) :
    x.chars start stop = y.chars start stop := by
  rw [chars, chars, h]

theorem callOpen?_congr (h : x.glyphs = y.glyphs) (start : Nat) :
    x.callOpen? start = y.callOpen? start := by
  rw [callOpen?, callOpen?, masked_congr h]

theorem toArg_congr (h : x.glyphs = y.glyphs) : x.toArg.look = y.toArg.look := by
  obtain ⟨gs, o⟩ := x
  obtain ⟨hs, o'⟩ := y
  obtain rfl : gs = hs := h
  have hmasked : (⟨gs, o⟩ : Expr).masked = (⟨gs, o'⟩ : Expr).masked := rfl
  unfold toArg
  rw [hmasked]
  dsimp only
  split
  · split
    · exact congrArg (Prod.mk _) (slice_congr rfl _ _)
    · rfl
  · rfl

theorem argsIn?_congr (h : x.glyphs = y.glyphs) (masked : List Char) (start : Nat) :
    (x.argsIn? masked start).map (fun a => (a.look, a.stop)) =
      (y.argsIn? masked start).map fun a => (a.look, a.stop) := by
  have hslices (ranges : List (Nat × Nat)) : (((x.slices ranges).filter (!·.isEmpty)).map toArg).map
      Arg.look = (((y.slices ranges).filter (!·.isEmpty)).map toArg).map Arg.look := by
    induction ranges with
    | nil => rfl
    | cons r ranges ih =>
      have hslice := slice_congr h r.1 r.2
      have hempty := isEmpty_congr hslice
      simp only [slices, List.map_cons, List.filter_cons, hempty] at ih ⊢
      split
      · exact congrArg₂ List.cons (toArg_congr hslice) ih
      · exact ih
  unfold argsIn?
  split
  · cases Text.findMatching masked start with
    | none => rfl
    | some close => exact congrArg (fun look => some (look, close + 1)) (hslices _)
  · rfl

theorem argsAt?_congr (h : x.glyphs = y.glyphs) (start : Nat) :
    (x.argsAt? start).map (fun a => (a.look, a.stop)) = (y.argsAt? start).map fun a =>
      (a.look, a.stop) := by
  rw [argsAt?, argsAt?, masked_congr h]
  exact argsIn?_congr h _ _

theorem stop_pos_of_argsAt? {start : Nat} {args : Args} (h : e.argsAt? start = some args) :
    0 < args.stop := by
  rw [argsAt?, argsIn?] at h
  split at h
  · obtain ⟨close, -, rfl⟩ := Option.map_eq_some_iff.mp h
    exact Nat.succ_pos close
  · contradiction

theorem stringValue?_congr (h : x.glyphs = y.glyphs) : x.stringValue? = y.stringValue? := by
  rw [stringValue?, stringValue?, text_congr h]

theorem namePath?_congr (h : x.glyphs = y.glyphs) : x.namePath? = y.namePath? := by
  rw [namePath?, namePath?, text_congr h]

theorem statusCode?_congr (h : x.glyphs = y.glyphs) : x.statusCode? = y.statusCode? := by
  rw [statusCode?, statusCode?, intValue?, intValue?, text_congr h, namePath?_congr h]

theorem offsetOf_congr (h : x.glyphs = y.glyphs) (rest : List Char) :
    x.offsetOf rest = y.offsetOf rest := by
  rw [offsetOf, offsetOf, width_congr h]

theorem between_congr (h : x.glyphs = y.glyphs) (start stop : List Char) :
    x.between start stop = y.between start stop := by
  rw [between, between, offsetOf_congr h, offsetOf_congr h]
  exact chars_congr h _ _

/-! ### Behind a beginning -/

/-- The expression is what stands in another one behind a beginning. -/
structure Behind (front : List Glyph) (x e : Expr) : Prop where
  glyphs : e.glyphs = front ++ x.glyphs
  offset : x.offset = e.offset + glyphWidth front

theorem behind_of_glyphs {front rest : List Glyph} (h : e.glyphs = front ++ rest) :
    Behind front ⟨rest, e.offset + glyphWidth front⟩ e := ⟨h, rfl⟩

namespace Behind

variable {front : List Glyph}

theorem masked (h : Behind front x e) : e.masked = maskedText front ++ x.masked := by
  rw [Expr.masked, h.glyphs, Draft.maskedText_append]
  rfl

theorem width (h : Behind front x e) : e.width = glyphWidth front + x.width := by
  rw [Expr.width, h.glyphs, glyphWidth_append]
  rfl

theorem slice (h : Behind front x e) (start stop : Nat) :
    e.slice (glyphWidth front + start) (glyphWidth front + stop) = x.slice start stop := by
  unfold Expr.slice
  rw [h.glyphs, dropGlyphs_behind, Nat.add_sub_add_left, h.offset]
  dsimp only
  rw [← Nat.add_assoc]

theorem tail (h : Behind front x e) (start : Nat) :
    e.tail (glyphWidth front + start) = x.tail start := by
  rw [Expr.tail, Expr.tail, h.width, Nat.add_min_add_left, h.slice]

theorem argsAt? (h : Behind front x e) (start : Nat) :
    e.argsAt? (glyphWidth front + start) = (x.argsAt? start).map
      (Args.moved (glyphWidth front)) := by
  have hslices (ranges : List (Nat × Nat)) :
      e.slices (ranges.map fun r => (glyphWidth front + r.1, glyphWidth front + r.2)) =
        x.slices ranges := by
    rw [slices, slices, List.map_map]
    exact List.map_congr_left fun r _ => h.slice r.1 r.2
  have hwidth := width_maskedText_eq front
  rw [Expr.argsAt?, Expr.argsAt?, argsIn?, argsIn?, h.masked, ← hwidth, Text.charAt?_behind,
    Text.findMatching_behind]
  split
  · cases Text.findMatching x.masked start with
    | none => rfl
    | some close =>
      have hsplit := Text.splitTopLevel_behind ',' (maskedText front) x.masked (start + 1) close
      rw [Option.map_some, Option.map_some, Option.map_some, Option.map_some, Nat.add_assoc]
      dsimp only
      rw [hsplit, hwidth, hslices, Nat.add_assoc]
      rfl
  · rfl

theorem callOpen? (h : Behind front x e) (start : Nat) :
    e.callOpen? (glyphWidth front + start) = (x.callOpen? start).map (glyphWidth front + ·) := by
  have hwidth := width_maskedText_eq front
  unfold Expr.callOpen?
  dsimp only
  rw [h.masked, ← hwidth, Text.skipAsciiBlanks_behind, Text.charAt?_behind]
  have hfound (i : Option Nat) :
      (i.map (Text.width (maskedText front) + ·)).filter
          (fun i => Text.charAt? (maskedText front ++ x.masked) i == some '(') =
        (i.filter fun i => Text.charAt? x.masked i == some '(').map
          (Text.width (maskedText front) + ·) := by
    cases i with
    | none => rfl
    | some i => simp only [Option.map_some, Option.filter_some, Text.charAt?_behind]; split <;> rfl
  rw [← hfound]
  congr 1
  split
  · next hangle =>
    rw [Text.skipTypeArgs_behind _ _ _ (beq_iff_eq.mp hangle), Option.map_map, Option.map_map]
    congr 1
    funext n
    exact Text.skipAsciiBlanks_behind _ _ _
  · rfl

end Behind

/-- The characters of code that an expression begins with. -/
theorem chars_of_plainGlyphs {xs zs ys : List Char} {rest : List Glyph}
    (h : e.glyphs = plainGlyphs (xs ++ (zs ++ ys)) ++ rest) :
    e.chars (Text.width xs) (Text.width xs + Text.width zs) = zs := by
  rw [chars, h, plainGlyphs_append, plainGlyphs_append, List.append_assoc, List.append_assoc,
    Nat.add_sub_cancel_left, ← glyphWidth_plainGlyphs xs, dropGlyphs_append,
    ← glyphWidth_plainGlyphs zs, takeGlyphs_append, plainText_plainGlyphs]

theorem masked_of_plainGlyphs {cs : List Char} {rest : List Glyph}
    (h : e.glyphs = plainGlyphs cs ++ rest) : e.masked = cs ++ maskedText rest := by
  rw [masked, h, Draft.maskedText_append, maskedText_plainGlyphs]

/-- A rest of the masked text begins where what stands before it ends. -/
theorem offsetOf_append {us vs : List Char} (h : e.masked = us ++ vs) :
    e.offsetOf vs = Text.width us := by
  rw [offsetOf, Expr.width, ← width_maskedText_eq, show maskedText e.glyphs = us ++ vs from h,
    Text.width_append, Nat.add_sub_cancel]

/-! ### Before an end -/

theorem length_trimGlyphs_le (gs : List Glyph) : (trimGlyphs gs).length ≤ gs.length :=
  ((Text.dropEndWhile_prefix _ _).length_le).trans (List.dropWhile_sublist _).length_le

/-- An expression that is shortened at its beginning has fewer glyphs. -/
theorem length_tail_lt {start : Nat} (hstart : 0 < start) (hne : e.glyphs ≠ []) :
    (e.tail start).glyphs.length < e.glyphs.length := by
  obtain ⟨gs, o⟩ := e
  cases gs with
  | nil => exact absurd rfl hne
  | cons g gs =>
    have hpos := g.char.utf8Size_pos
    have hwidth : (⟨g :: gs, o⟩ : Expr).width = g.char.utf8Size + glyphWidth gs := rfl
    obtain ⟨n, hn⟩ : ∃ n, min start (⟨g :: gs, o⟩ : Expr).width = n + 1 :=
      ⟨min start (⟨g :: gs, o⟩ : Expr).width - 1, by omega⟩
    have hdrop : dropGlyphs (n + 1) (g :: gs) = dropGlyphs (n + 1 - g.char.utf8Size) gs := by
      rw [dropGlyphs]
      exact fun h => by contradiction
    rw [tail, glyphs_slice, hn, hdrop]
    exact Nat.lt_succ_of_le ((length_trimGlyphs_le _).trans
      ((length_takeGlyphs_le _ _).trans (length_dropGlyphs_le _ _)))

/-- A slice between cuts does not reach into what is written behind them. -/
theorem slice_before {gs more : List Glyph} (h : x.glyphs = gs ++ more) {start stop : Nat}
    (hstart : Glyph.IsCut gs start) (hstop : Glyph.IsCut gs stop) :
    x.slice start stop = (⟨gs, x.offset⟩ : Expr).slice start stop := by
  obtain ⟨xs, rest, hxs, rfl⟩ := hstart
  by_cases hle : stop ≤ glyphWidth xs
  · rw [slice_of_le hle, slice_of_le hle]
  · obtain ⟨xs', ys, hxs', rfl⟩ := hstop
    obtain ⟨zs, hzs, hwidth⟩ : ∃ zs, gs = xs ++ (zs ++ ys) ∧
        glyphWidth xs' = glyphWidth xs + glyphWidth zs := by
      rcases List.append_eq_append_iff.mp (hxs.symm.trans hxs') with ⟨zs, rfl, rfl⟩ | ⟨zs, rfl, -⟩
      · exact ⟨zs, hxs, glyphWidth_append xs zs⟩
      · rw [glyphWidth_append] at hle
        omega
    have hglyphs : x.glyphs = xs ++ (zs ++ (ys ++ more)) := by
      rw [h, hzs]
      simp
    rw [hwidth, slice_eq hglyphs, slice_eq (e := ⟨gs, x.offset⟩) hzs]

/-- Characters in front of what is written behind them. -/
theorem chars_before {gs more : List Glyph} (h : x.glyphs = gs ++ more) {start stop : Nat}
    (hstart : Glyph.IsCut gs start) (hstop : stop ≤ glyphWidth gs) :
    x.chars start stop = (⟨gs, x.offset⟩ : Expr).chars start stop := by
  obtain ⟨xs, ys, rfl, rfl⟩ := hstart
  rw [chars, chars, h, List.append_assoc, dropGlyphs_append, dropGlyphs_append, takeGlyphs_before]
  rw [glyphWidth_append] at hstop
  omega

/-- The glyphs are an argument list from its parenthesis to the one that closes it. -/
structure IsArgs (gs : List Glyph) : Prop where
  opens : (maskedText gs).head? = some '('
  closes : ∃ close, Text.findMatching (maskedText gs) 0 = some close ∧ close + 1 = glyphWidth gs

instance (gs : List Glyph) : Decidable (IsArgs gs) :=
  decidable_of_iff ((maskedText gs).head? = some '(' ∧
      (Text.findMatching (maskedText gs) 0).map (· + 1) = some (glyphWidth gs))
    ⟨fun h => ⟨h.1, Option.map_eq_some_iff.mp h.2⟩,
      fun h => ⟨h.opens, Option.map_eq_some_iff.mpr h.closes⟩⟩

/-- A bracket that closes within the beginning of a text closes without what is
written behind it. -/
theorem closingFrom_within {pos depth n : Nat} {xs ys : List Char}
    (h : Text.closingFrom pos depth (xs ++ ys) = some n) (hn : n < pos + Text.width xs) :
    Text.closingFrom pos depth xs = some n := by
  induction xs generalizing pos depth with
  | nil =>
    obtain ⟨us, -, -, -, -, rfl⟩ := Text.exists_closer_of_closingFrom h
    exact absurd hn (Nat.not_lt.mpr (Nat.add_le_add_left (Nat.zero_le _) _))
  | cons c xs ih =>
    rw [Text.width_cons, ← Nat.add_assoc] at hn
    rw [List.cons_append] at h
    unfold Text.closingFrom at h ⊢
    split at h
    · next hopener => rw [if_pos hopener, ih h hn]
    · next hopener =>
      rw [if_neg hopener]
      split at h
      · next hcloser =>
        rw [if_pos hcloser]
        split at h
        · contradiction
        · exact h
        · exact ih h hn
      · next hcloser => rw [if_neg hcloser, ih h hn]

/-- A parenthesis that is closed begins an argument list. -/
theorem exists_isArgs {gs : List Glyph} {close : Nat} (hopen : (maskedText gs).head? = some '(')
    (hclose : Text.findMatching (maskedText gs) 0 = some close) :
    ∃ arguments rest, gs = arguments ++ rest ∧ IsArgs arguments ∧
    glyphWidth arguments = close + 1 := by
  obtain ⟨vs, hvs⟩ := List.head?_eq_some_iff.mp hopen
  have hfound := hclose
  rw [hvs] at hfound
  obtain ⟨us, d, ws, hcloser, hd, rfl⟩ := @Text.exists_closer_of_findMatching _ rfl [] _ _ hfound
  have hmasked : maskedText gs = us ++ d :: ws := hvs.trans hcloser
  have hsmall : d ≠ '_' ∧ d.utf8Size = 1 := by
    unfold Text.isCloser at hd
    simp only [Bool.or_eq_true, beq_iff_eq] at hd
    rcases hd with (rfl | rfl) | rfl <;> decide
  obtain ⟨xs, ys, rfl, hxs, -⟩ := exists_glyph_of_maskedText hmasked hsmall.1
  have hshown : maskedText (xs ++ [⟨d, false⟩]) = us ++ [d] := by
    rw [Draft.maskedText_append, hxs]
    rfl
  have hwidth : glyphWidth (xs ++ [⟨d, false⟩]) = Text.width us + 1 := by
    rw [← width_maskedText_eq, hshown, Text.width_append, Text.width_cons, hsmall.2]
    rfl
  refine ⟨xs ++ [⟨d, false⟩], ys, by simp, ⟨?_, _, ?_, hwidth.symm⟩, hwidth⟩
  · rw [hshown]
    rw [hmasked] at hopen
    cases us with
    | nil =>
      obtain rfl := Option.some.inj hopen
      contradiction
    | cons u us => exact hopen
  · have hstart (cs : List Char) : Text.findMatching cs 0 = Text.closingFrom 0 0 cs := by
      cases cs <;> rfl
    have hsplit : us ++ d :: ws = (us ++ [d]) ++ ws := by simp
    rw [hstart, hmasked, hsplit] at hclose
    rw [hshown, hstart]
    refine closingFrom_within hclose ?_
    rw [Text.width_append, Text.width_cons, hsmall.2]
    exact Nat.lt_succ_of_le (Nat.le_add_left _ _)

/-- An argument list opens with its parenthesis, whatever is written behind it. -/
theorem IsArgs.head?_append {gs : List Glyph} (h : IsArgs gs) (more : List Glyph) :
    (maskedText (gs ++ more)).head? = some '(' := by
  rw [Draft.maskedText_append, List.head?_append, h.opens, Option.some_or]

/-- An argument list ends in a bracket. -/
theorem IsArgs.getLast? {gs : List Glyph} (h : IsArgs gs) :
    gs.getLast?.any Glyph.isBlank = false := by
  obtain ⟨close, hclose, hwidth⟩ := h.closes
  obtain ⟨vs, hvs⟩ := List.head?_eq_some_iff.mp h.opens
  rw [hvs] at hclose
  obtain ⟨us, d, ws, hcloser, hd, rfl⟩ := @Text.exists_closer_of_findMatching _ rfl [] _ _ hclose
  have hmasked : maskedText gs = us ++ d :: ws := hvs.trans hcloser
  have hshown : d ≠ '_' ∧ Text.isBlank d = false := by
    have hall : ∀ c, Text.isCloser c = true → c ≠ '_' ∧ Text.isBlank c = false := by
      intro c hc
      unfold Text.isCloser at hc
      simp only [Bool.or_eq_true, beq_iff_eq] at hc
      rcases hc with (rfl | rfl) | rfl <;> decide
    exact hall d hd
  obtain ⟨xs, ys, rfl, -, hys⟩ := exists_glyph_of_maskedText hmasked hshown.1
  have hpos := d.utf8Size_pos
  have hnone : glyphWidth ys = 0 := by
    have htotal := congrArg Text.width hmasked
    rw [width_maskedText_eq, ← hwidth, Text.width_append, Text.width_cons] at htotal
    rw [← width_maskedText_eq, hys]
    omega
  have hempty : ys = [] := by
    cases ys with
    | nil => rfl
    | cons g ys =>
      have := g.char.utf8Size_pos
      rw [glyphWidth] at hnone
      omega
  rw [hempty, List.getLast?_append]
  exact hshown.2

/-- An argument list ends with its parenthesis, whatever is written behind it. -/
theorem IsArgs.argsAt? {gs more : List Glyph} (h : IsArgs gs) (hx : x.glyphs = gs ++ more) :
    ∃ args, (⟨gs, x.offset⟩ : Expr).argsAt? 0 = some args ∧ args.stop = glyphWidth gs ∧
      x.argsAt? 0 = some args := by
  obtain ⟨close, hclose, hwidth⟩ := h.closes
  obtain ⟨vs, hvs⟩ := List.head?_eq_some_iff.mp h.opens
  have hmasked : x.masked = maskedText gs ++ maskedText more := by
    rw [masked, hx, Draft.maskedText_append]
  have hsize := width_maskedText_eq gs
  have hopen : Glyph.IsCut gs 1 := (@Glyph.isCut_of_maskedText _ [] _ _ hvs (by decide)).2
  have hclosed : Glyph.IsCut gs close := by
    rw [hvs] at hclose
    obtain ⟨us, d, ws, hcloser, hd, rfl⟩ := @Text.exists_closer_of_findMatching _ rfl [] _ _ hclose
    exact Glyph.isCut_of_closer (hvs.trans hcloser) hd
  have hparen : ∀ more, (Text.charAt? (maskedText gs ++ more) 0 == some '(') = true := by
    intro more
    rw [hvs]
    rfl
  have hslices : x.slices (Text.splitTopLevel ',' (maskedText gs) 1 close) =
      (⟨gs, x.offset⟩ : Expr).slices (Text.splitTopLevel ',' (maskedText gs) 1 close) := by
    refine List.map_congr_left fun r hr => ?_
    obtain ⟨-, hfirst, hlast⟩ := (Glyph.isCut_splitTopLevel (by decide) hopen hclosed).1 r hr
    exact slice_before hx hfirst hlast
  have hown : (Text.charAt? (maskedText gs) 0 == some '(') = true := by
    rw [← List.append_nil (maskedText gs)]
    exact hparen []
  have hargs : (⟨gs, x.offset⟩ : Expr).argsAt? 0 = some
      { items := (((⟨gs, x.offset⟩ : Expr).slices
          (Text.splitTopLevel ',' (maskedText gs) 1 close)).filter (!·.isEmpty)).map toArg
        stop := close + 1 } := by
    have hsame : (⟨gs, x.offset⟩ : Expr).masked = maskedText gs := rfl
    rw [Expr.argsAt?, argsIn?, hsame, if_pos hown, hclose]
    rfl
  refine ⟨_, hargs, hwidth, ?_⟩
  rw [Expr.argsAt?, argsIn?, hmasked, if_pos (hparen _),
    Text.findMatching_before (Nat.zero_le _) hclose, Option.map_some,
    Text.splitTopLevel_before (by omega) (by omega)]
  dsimp only
  rw [hslices]

end Expr

end EndpointCensus
