import EndpointCensus.Proofs.Expr.Span

/-!
Arguments of a call. Parts in which brackets are balanced and no comma stands outside of
brackets, written one after the other with commas between them and in parentheses, are found
again: the search for the closing parenthesis passes over all of them, and the commas that split
are those between them.
-/

namespace EndpointCensus

namespace Text

/-- Text in which brackets are balanced, `depth` of them being open before it, and commas
stand in brackets only. -/
def IsArgument : Nat → List Char → Prop
  | depth, [] => depth = 0
  | depth, c :: cs =>
    if isOpener c then IsArgument (depth + 1) cs
    else if isCloser c then 0 < depth ∧ IsArgument (depth - 1) cs
    else (c = ',' → 0 < depth) ∧ IsArgument depth cs

instance IsArgument.decide : (depth : Nat) → (cs : List Char) → Decidable (IsArgument depth cs)
  | depth, [] => inferInstanceAs (Decidable (depth = 0))
  | depth, c :: cs =>
    have := decide (depth + 1) cs
    have := decide (depth - 1) cs
    have := decide depth cs
    inferInstanceAs (Decidable (if isOpener c then IsArgument (depth + 1) cs
      else if isCloser c then 0 < depth ∧ IsArgument (depth - 1) cs
      else (c = ',' → 0 < depth) ∧ IsArgument depth cs))

namespace IsArgument

variable {depth : Nat} {cs : List Char}

/-- Characters that neither open, close nor split. -/
theorem append {xs : List Char} (hxs : ∀ c ∈ xs, isBracket c = false ∧ c ≠ ',')
    (h : IsArgument depth cs) : IsArgument depth (xs ++ cs) := by
  induction xs with
  | nil => exact h
  | cons c xs ih =>
    obtain ⟨⟨hbracket, hcomma⟩, hxs'⟩ := List.forall_mem_cons.mp hxs
    obtain ⟨hopener, hcloser⟩ := Bool.or_eq_false_iff.mp hbracket
    rw [List.cons_append, IsArgument, if_neg (by simp [hopener]), if_neg (by simp [hcloser])]
    exact ⟨fun hc => absurd hc hcomma, ih hxs'⟩

/-- The search for a closer passes over the text. -/
theorem closingFrom (h : IsArgument depth cs) (pos : Nat) (rest : List Char) :
    closingFrom pos (depth + 1) (cs ++ rest) = Text.closingFrom (pos + width cs) 1 rest := by
  induction cs generalizing depth pos with
  | nil =>
    obtain rfl : depth = 0 := h
    rfl
  | cons c cs ih =>
    rw [IsArgument] at h
    rw [List.cons_append, width_cons, ← Nat.add_assoc]
    split at h
    · next hopener => rw [closingFrom_opener hopener, ih h]
    · next hopener =>
      split at h
      · next hcloser =>
        obtain ⟨hdepth, hrest⟩ := h
        obtain ⟨n, rfl⟩ : ∃ n, depth = n + 1 := ⟨depth - 1, by omega⟩
        rw [closingFrom_closer hcloser, if_neg (Nat.succ_ne_zero n)]
        exact ih hrest _
      · next hcloser =>
        have hother : isBracket c = false :=
          Bool.or_eq_false_iff.mpr ⟨Bool.eq_false_iff.mpr hopener, Bool.eq_false_iff.mpr hcloser⟩
        rw [closingFrom_other hother, ih h.2]

/-- The text is not split. -/
theorem splitFrom (h : IsArgument depth cs) {stop pos : Nat} (hstop : pos + width cs ≤ stop)
    (first : Nat) (rest : List Char) :
    splitFrom ',' stop first pos depth (cs ++ rest) =
      Text.splitFrom ',' stop first (pos + width cs) 0 rest := by
  induction cs generalizing depth pos with
  | nil =>
    obtain rfl : depth = 0 := h
    rfl
  | cons c cs ih =>
    have hpos := c.utf8Size_pos
    rw [IsArgument] at h
    rw [width_cons, ← Nat.add_assoc] at hstop
    rw [List.cons_append, width_cons, ← Nat.add_assoc, Text.splitFrom]
    rw [if_neg (by omega)]
    split at h
    · next hopener => rw [if_pos hopener, ih h hstop]
    · next hopener =>
      rw [if_neg hopener]
      split at h
      · next hcloser => rw [if_pos hcloser, ih h.2 hstop]
      · next hcloser =>
        have hnone : ¬((c == ',' && depth == 0) = true) := by
          rw [Bool.and_eq_true, beq_iff_eq, beq_iff_eq]
          rintro ⟨hc, hzero⟩
          have := h.1 hc
          omega
        rw [if_neg hcloser, if_neg hnone, ih h.2 hstop]

end IsArgument

end Text

namespace Token

/-- The characters outside of literals. -/
def codeOf (ts : List Token) : List Char :=
  ts.flatMap fun
    | code c => [c]
    | literal _ => []

/-- Whole literals, and code in which brackets are balanced and commas stand in brackets only. -/
structure IsPart (ts : List Token) : Prop where
  sealed : ∀ t ∈ ts, t.Sealed
  argument : Text.IsArgument 0 (codeOf ts)

variable {ts : List Token}

theorem codeOf_map_code (cs : List Char) : codeOf (cs.map code) = cs := by
  induction cs with
  | nil => rfl
  | cons c cs ih => exact congrArg (c :: ·) ih

theorem isPart_map_code {cs : List Char} (h : Text.IsArgument 0 cs) : IsPart (cs.map code) := by
  refine ⟨fun t ht => ?_, ?_⟩
  · obtain ⟨c, -, rfl⟩ := List.mem_map.mp ht
    trivial
  · rwa [codeOf_map_code]

/-- Trimming keeps literals whole. -/
theorem IsPart.sealed_trim (h : IsPart ts) : ∀ t ∈ trim ts, t.Sealed := by
  obtain ⟨back, hback⟩ := exists_trim ts
  intro t ht
  refine h.sealed t ?_
  rw [hback]
  exact List.mem_append_right _ (List.mem_append_left _ ht)

/-- Masking does not change what brackets and commas there are. -/
theorem isArgument_maskedOf (hts : ∀ t ∈ ts, t.Sealed) {depth : Nat}
    (h : Text.IsArgument depth (codeOf ts)) : Text.IsArgument depth (maskedOf ts) := by
  induction ts generalizing depth with
  | nil => exact h
  | cons t ts ih =>
    have hrest := fun t' ht' => hts t' (List.mem_cons_of_mem t ht')
    cases t with
    | code c =>
      have hcode : codeOf (code c :: ts) = c :: codeOf ts := rfl
      rw [hcode, Text.IsArgument] at h
      rw [maskedOf_code, Text.IsArgument]
      split at h
      · next hopener =>
        rw [if_pos hopener]
        exact ih hrest h
      · next hopener =>
        rw [if_neg hopener]
        split at h
        · next hcloser =>
          rw [if_pos hcloser]
          exact ⟨h.1, ih hrest h.2⟩
        · next hcloser =>
          rw [if_neg hcloser]
          exact ⟨h.1, ih hrest h.2⟩
    | literal cs =>
      have hsealed : EndpointCensus.Sealed cs := hts _ List.mem_cons_self
      rw [maskedOf_cons]
      refine Text.IsArgument.append (fun c hc => ?_) (ih hrest h)
      rcases hsealed.mem_masked hc with hdelimiter | rfl
      · refine ⟨isBracket_of_isDelimiter hdelimiter, ?_⟩
        rintro rfl
        contradiction
      · decide

theorem IsPart.masked (h : IsPart ts) :
    Text.IsArgument 0 (maskedOf ts) := isArgument_maskedOf h.sealed h.argument

/-- Parts with commas between them. -/
def joined (parts : List (List Token)) : List Token := [code ','].intercalate parts

theorem joined_cons_cons (p q : List Token) (parts : List (List Token)) :
    joined (p :: q :: parts) = p ++ code ',' :: joined (q :: parts) := by
  rw [joined, List.intercalate_cons_cons, List.append_assoc]
  rfl

@[simp] theorem joined_singleton (p : List Token) : joined [p] = p := List.intercalate_singleton

/-- The ranges of joined parts, the first one at `pos`. -/
def rangesFrom : Nat → List (List Token) → List (Nat × Nat)
  | _, [] => []
  | pos, p :: parts => (pos, pos + widthOf p) :: rangesFrom (pos + widthOf p + 1) parts

variable {parts : List (List Token)}

/-- Joined parts are split at the commas between them. -/
theorem splitFrom_joined (hne : parts ≠ []) (hparts : ∀ p ∈ parts, IsPart p) {pos stop : Nat}
    (hstop : stop = pos + widthOf (joined parts)) (c : Char) (rest : List Char) :
    Text.splitFrom ',' stop pos pos 0 (maskedOf (joined parts) ++ c :: rest) =
      rangesFrom pos parts := by
  induction parts generalizing pos with
  | nil => exact absurd rfl hne
  | cons p parts ih =>
    have hp := (hparts p List.mem_cons_self).masked
    cases parts with
    | nil =>
      rw [joined_singleton] at hstop ⊢
      rw [hp.splitFrom (by rw [width_maskedOf]; omega), width_maskedOf, Text.splitFrom]
      rw [if_pos (by omega), hstop]
      rfl
    | cons q parts =>
      have hsize : (',' : Char).utf8Size = 1 := rfl
      rw [joined_cons_cons, widthOf_append, widthOf_code, hsize] at hstop
      rw [joined_cons_cons, maskedOf_append, maskedOf_code, List.append_assoc, List.cons_append,
        hp.splitFrom (by rw [width_maskedOf]; omega), width_maskedOf, Text.splitFrom]
      rw [if_neg (by omega), hsize]
      rw [ih (List.cons_ne_nil q parts) (fun p hp => hparts p (List.mem_cons_of_mem _ hp)) (by omega)]
      rfl

/-- The search for the closing parenthesis passes over joined parts. -/
theorem closingFrom_joined (hparts : ∀ p ∈ parts, IsPart p) (pos : Nat) (rest : List Char) :
    Text.closingFrom pos 1 (maskedOf (joined parts) ++ rest) =
      Text.closingFrom (pos + widthOf (joined parts)) 1 rest := by
  induction parts generalizing pos with
  | nil => rfl
  | cons p parts ih =>
    have hp := (hparts p List.mem_cons_self).masked
    cases parts with
    | nil => rw [joined_singleton, hp.closingFrom, width_maskedOf]
    | cons q parts =>
      have hsize : (',' : Char).utf8Size = 1 := rfl
      rw [joined_cons_cons, maskedOf_append, maskedOf_code, List.append_assoc, List.cons_append,
        hp.closingFrom, Text.closingFrom_other rfl, ih fun p hp =>
          hparts p (List.mem_cons_of_mem _ hp), width_maskedOf, hsize,
        widthOf_append, widthOf_code, hsize]
      congr 1
      omega

end Token

open Token (widthOf glyphsOf joined IsPart)

namespace Expr

/-- The parts as expressions, the first one at byte `pos`. -/
def partsFrom (pos : Nat) : List (List Token) → List Expr
  | [] => []
  | p :: parts =>
    ⟨glyphsOf (Token.trim p), pos + widthOf (p.takeWhile Token.isBlank)⟩ ::
      partsFrom (pos + widthOf p + 1) parts

theorem partsFrom_append (pos : Nat) (ps qs : List (List Token)) :
    ∃ pos', partsFrom pos (ps ++ qs) = partsFrom pos ps ++ partsFrom pos' qs := by
  induction ps generalizing pos with
  | nil => exact ⟨pos, rfl⟩
  | cons p ps ih =>
    obtain ⟨pos', hps⟩ := ih (pos + widthOf p + 1)
    exact ⟨pos', congrArg (_ :: ·) hps⟩

variable {e : Expr} {parts : List (List Token)}

theorem slices_rangesFrom (hparts : ∀ p ∈ parts, IsPart p) {xs ys : List Token}
    (h : e.glyphs = glyphsOf (xs ++ (joined parts ++ ys))) :
    e.slices (Token.rangesFrom (widthOf xs) parts) = partsFrom (e.offset + widthOf xs) parts := by
  induction parts generalizing xs with
  | nil => rfl
  | cons p parts ih =>
    have hp := (hparts p List.mem_cons_self).sealed
    have hrest := fun p hp => hparts p (List.mem_cons_of_mem _ hp)
    obtain ⟨more, hmore⟩ : ∃ more, joined (p :: parts) ++ ys = p ++ more := by
      cases parts with
      | nil => exact ⟨ys, by rw [Token.joined_singleton]⟩
      | cons q parts => exact ⟨_, by rw [Token.joined_cons_cons, List.append_assoc]⟩
    have hslice : e.slice (widthOf xs) (widthOf xs + widthOf p) = _ :=
      slice_append (by rw [h, hmore]) hp
    rw [Token.rangesFrom, partsFrom, slices, List.map_cons, hslice]
    cases parts with
    | nil => rfl
    | cons q parts =>
      have hsize : (',' : Char).utf8Size = 1 := rfl
      have hnext : widthOf (xs ++ (p ++ [.code ','])) = widthOf xs + widthOf p + 1 := by
        simp [hsize, Nat.add_assoc]
      have hglyphs : e.glyphs =
          glyphsOf ((xs ++ (p ++ [.code ','])) ++ (joined (q :: parts) ++ ys)) := by
        rw [h, Token.joined_cons_cons]
        simp
      have hmap := ih hrest hglyphs
      rw [hnext, ← Nat.add_assoc, ← Nat.add_assoc] at hmap
      exact congrArg (_ :: ·) hmap

/-- Parts in brackets end with the bracket, and the commas that split are those between them. -/
theorem slices_of_parts {opener closer : Char} (hopener : Text.isOpener opener = true)
    (hcloser : Text.isCloser closer = true) (hne : parts ≠ []) (hparts : ∀ p ∈ parts, IsPart p)
    {xs ys : List Token}
    (h : e.glyphs = glyphsOf (xs ++ .code opener :: (joined parts ++ .code closer :: ys))) :
    Text.findMatching e.masked (widthOf xs) = some (widthOf xs + 1 + widthOf (joined parts)) ∧
      e.slices (Text.splitTopLevel ',' e.masked (widthOf xs + 1)
        (widthOf xs + 1 + widthOf (joined parts))) =
          partsFrom (e.offset + (widthOf xs + 1)) parts := by
  have hsize := Text.utf8Size_of_isOpener hopener
  have hmasked : e.masked =
      Token.maskedOf xs ++ opener :: (Token.maskedOf (joined parts) ++ closer ::
        Token.maskedOf ys) := by
    rw [masked_eq h]
    simp
  have hwidth := Token.width_maskedOf xs
  have hopen : widthOf (xs ++ [.code opener]) = widthOf xs + 1 := by simp [hsize]
  have hsplit : Text.splitTopLevel ',' e.masked (widthOf xs + 1)
      (widthOf xs + 1 + widthOf (joined parts)) = Token.rangesFrom (widthOf xs + 1) parts := by
    have hseek : Text.seek 0 (widthOf xs + 1) e.masked =
        (widthOf xs + 1, Token.maskedOf (joined parts) ++ closer :: Token.maskedOf ys) := by
      have hbefore : e.masked = Token.maskedOf (xs ++ [.code opener]) ++
          (Token.maskedOf (joined parts) ++ closer :: Token.maskedOf ys) := by
        rw [hmasked]
        simp
      rw [hbefore, ← hopen, ← Token.width_maskedOf, Text.seek_append, Nat.zero_add]
    unfold Text.splitTopLevel
    rw [hseek]
    exact Token.splitFrom_joined hne hparts rfl _ _
  have hslices :=
    @slices_rangesFrom e _ hparts (xs ++ [.code opener]) (.code closer :: ys) (by rw [h]; simp)
  rw [hopen] at hslices
  refine ⟨?_, by rw [hsplit, hslices]⟩
  rw [hmasked, ← hwidth, Text.findMatching_append hopener, Token.closingFrom_joined hparts,
    Text.closingFrom_closer hcloser, if_pos rfl]

/-- The arguments of a call are its parts, blank ones left out. -/
theorem argsAt?_of_parts (hne : parts ≠ []) (hparts : ∀ p ∈ parts, IsPart p) {xs ys : List Token}
    (h : e.glyphs = glyphsOf (xs ++ .code '(' :: (joined parts ++ .code ')' :: ys))) :
    e.argsAt? (widthOf xs) = some
      { items := ((partsFrom (e.offset + (widthOf xs + 1)) parts).filter (!·.isEmpty)).map toArg
        stop := widthOf xs + 1 + widthOf (joined parts) + 1 } := by
  obtain ⟨hclose, hslices⟩ := slices_of_parts rfl rfl hne hparts h
  have hparen : (Text.charAt? e.masked (widthOf xs) == some '(') = true := by
    rw [masked_eq h, Token.maskedOf_append, Token.maskedOf_code, ← Token.width_maskedOf,
      Text.charAt?_append, beq_self_eq_true]
  unfold argsAt? argsIn?
  rw [if_pos hparen, hclose, Option.map_some]
  dsimp only
  rw [hslices]

end Expr

end EndpointCensus
