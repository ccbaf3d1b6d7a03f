import EndpointCensus.Idiom.UrlTable
import EndpointCensus.Proofs.Text.Splitting
import EndpointCensus.Proofs.Text.Word

/-!
Names in tables of URL patterns. A dotted name is no string literal and no list, so an inclusion
that is given one includes what the name stands for.
-/

namespace EndpointCensus

open Text

/-! ### Dotted names as expressions -/

namespace Text

theorem dottedTail_chars (cs : List Char) :
    cs = (dottedTail cs).1 ++ (dottedTail cs).2 ∧ ∀ c ∈ (dottedTail cs).1, isNamePart c = true ∨
    c = '.' := by
  induction cs with
  | nil => exact ⟨rfl, fun c hc => absurd hc List.not_mem_nil⟩
  | cons c cs ih =>
    obtain ⟨heq, hchars⟩ := ih
    rw [dottedTail]
    split
    · next hc =>
      refine ⟨congrArg (c :: ·) heq, List.forall_mem_cons.mpr ⟨?_, hchars⟩⟩
      rcases Bool.or_eq_true_iff.mp hc with hpart | hdot
      · exact .inl hpart
      · exact .inr (beq_iff_eq.mp (Bool.and_eq_true_iff.mp hdot).1)
    · exact ⟨rfl, fun c hc => absurd hc List.not_mem_nil⟩

theorem eq_of_identifier? {cs name rest : List Char} (h : identifier? cs = some (name, rest)) :
    cs = name ++ rest ∧ ∀ c ∈ name, isNamePart c = true := by
  cases cs with
  | nil => contradiction
  | cons d cs =>
    rw [identifier?] at h
    split at h
    · next hd =>
      obtain ⟨rfl, rfl⟩ := Prod.mk.inj (Option.some.inj h)
      refine ⟨?_, List.forall_mem_cons.mpr ⟨isNamePart_of_isNameStart hd,
        List.all_eq_true.mp List.all_takeWhile⟩⟩
      rw [List.cons_append, List.takeWhile_append_dropWhile]
    · contradiction

theorem eq_of_dottedName? {cs name rest : List Char} (h : dottedName? cs = some (name, rest)) :
    cs = name ++ rest ∧ ∀ c ∈ name, isNamePart c = true ∨ c = '.' := by
  cases cs with
  | nil => contradiction
  | cons d cs =>
    rw [dottedName?] at h
    split at h
    · next hd =>
      obtain ⟨rfl, rfl⟩ := Prod.mk.inj (Option.some.inj h)
      obtain ⟨htext, hparts⟩ := dottedTail_chars cs
      exact ⟨congrArg (d :: ·) htext, List.forall_mem_cons.mpr
        ⟨.inl (isNamePart_of_isNameStart hd), hparts⟩⟩
    · contradiction

theorem isDottedName_chars {cs : List Char} (h : isDottedName cs = true) :
    cs.head?.any isNameStart = true ∧ ∀ c ∈ cs, isNameStart c = true ∨ isNamePart c = true ∨
    c = '.' := by
  cases cs with
  | nil => contradiction
  | cons c cs =>
    by_cases hc : isNameStart c = true
    · obtain ⟨heq, hchars⟩ := dottedTail_chars cs
      have hrest : (dottedTail cs).2 = [] := by
        cases htail : (dottedTail cs).2 with
        | nil => rfl
        | cons d ds => simp [isDottedName, dottedName?, hc, htail] at h
      rw [hrest, List.append_nil] at heq
      refine ⟨hc, List.forall_mem_cons.mpr ⟨.inl hc, fun d hd => .inr (hchars d (heq ▸ hd))⟩⟩
    · simp [isDottedName, dottedName?, hc] at h

end Text

/-- No character of a dotted name is a quote. -/
theorem stringLiteral?_dottedName {cs : List Char} (h : isDottedName cs = true) :
    stringLiteral? cs = none := by
  have hquote : (stringDelimiters.all fun d => d.all fun q => !isNameStart q && !isNamePart q &&
      q != '.') = true := by
    decide
  have hsome : ∀ d ∈ stringDelimiters, d ≠ [] := by decide
  have hfind (n : Nat) : stringDelimiters.find? (·.isPrefixOf (cs.drop n)) = none := by
    refine List.find?_eq_none.mpr fun d hd hbegins => ?_
    obtain ⟨q, rest, rfl⟩ := List.exists_cons_of_ne_nil (hsome d hd)
    have hmem : q ∈ cs :=
      List.mem_of_mem_drop ((List.isPrefixOf_iff_prefix.mp hbegins).subset List.mem_cons_self)
    have hno := List.all_eq_true.mp (List.all_eq_true.mp hquote _ hd) q List.mem_cons_self
    rcases (isDottedName_chars h).2 q hmem with hq | hq | hq <;> simp [hq] at hno
  unfold stringLiteral?
  dsimp only
  rw [hfind, Option.bind_none]

namespace Expr

variable {e : Expr} {name : List Char}

theorem eq_text_of_namePath? (h : e.namePath? = some name) :
    isDottedName e.text = true ∧ name = e.text := by
  unfold namePath? at h
  split at h
  · next hdotted => exact ⟨hdotted, (Option.some.inj h).symm⟩
  · contradiction

theorem items?_of_namePath? (h : e.namePath? = some name) : e.items? = none := by
  obtain ⟨hdotted, -⟩ := eq_text_of_namePath? h
  have hhead := (isDottedName_chars hdotted).1
  have hcloser : e.masked.head?.bind closerOf? = none := by
    obtain ⟨glyphs, offset⟩ := e
    cases glyphs with
    | nil => rfl
    | cons g gs =>
      have hstart : isNameStart g.char = true := hhead
      cases hveiled : g.veiled with
      | true =>
        obtain ⟨n, hn⟩ : ∃ n, g.char.utf8Size = n + 1 :=
          ⟨g.char.utf8Size - 1, by have := g.char.utf8Size_pos; omega⟩
        simp [masked, maskedText, Glyph.shown, hveiled, hn, List.replicate_succ, closerOf?]
      | false =>
        have hne {c : Char} (hc : isNameStart c = false) : g.char ≠ c := fun heq =>
          Bool.noConfusion (hstart.symm.trans (heq ▸ hc))
        have hsquare : g.char ≠ '[' := hne (by decide)
        have hround : g.char ≠ '(' := hne (by decide)
        have hcurly : g.char ≠ '\x7b' := hne (by decide)
        simp [masked, maskedText, Glyph.shown, hveiled, closerOf?, hsquare, hround, hcurly]
  unfold items?
  dsimp only
  rw [hcloser]

end Expr

/-! ### Inclusions -/

namespace UrlTable

/-- A name without dots is a table. -/
theorem includedName_of_not_mem {name : List Char} (h : '.' ∉ name) :
    includedName name = .table name := by
  have hno : before? ".urls" name = none := by
    rw [before?, endsWith, if_neg]
    intro hsuffix
    exact h ((List.isSuffixOf_iff_suffix.mp hsuffix).subset (by decide))
  rw [includedName, hno]

/-- A member is a table, unless it is the list of a router. -/
theorem includedName_member {name member : List Char} (h : '.' ∉ member)
    (hurls : member ≠ "urls".toList) :
    includedName (name ++ '.' :: member) = .table (name ++ '.' :: member) := by
  have hno : before? ".urls" (name ++ '.' :: member) = none := by
    rw [before?, endsWith, if_neg]
    intro hsuffix
    obtain ⟨router, hrouter⟩ := List.isSuffixOf_iff_suffix.mp hsuffix
    have hcut := splitLast?_append router (show '.' ∉ "urls".toList by decide)
    rw [show router ++ '.' :: "urls".toList = name ++ '.' :: member from hrouter,
      splitLast?_append name h] at hcut
    exact hurls (congrArg Prod.snd (Option.some.inj hcut))
  rw [includedName, hno]

theorem Site.included_name (s : Site) (fuel : Nat) {first : Expr} {name : List Char}
    (h : first.namePath? = some name) (route : List Char) (line : Nat) :
    s.included (fuel + 1) first route line = [s.inclusion (includedName name) route line] := by
  have hstring : first.stringValue? = none :=
    stringLiteral?_dottedName (Expr.eq_text_of_namePath? h).1
  rw [included, hstring]
  dsimp only
  rw [Expr.items?_of_namePath? h, h]

end UrlTable

end EndpointCensus
