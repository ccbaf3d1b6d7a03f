import EndpointCensus.Proofs.Expr.Argument
import EndpointCensus.Proofs.Expr.StringLiteral

/-! Arguments that read as a keyword and a value. The text of an argument is read so if a name and a
single equals sign stand at its start, and the sign of an arrow is such a sign. -/

namespace EndpointCensus

open Text (isAsciiWord isAsciiDigit)

/-- A name, spaces and an equals sign that no other one follows. -/
def Text.IsKeyword (cs : List Char) : Prop :=
  ∃ name spaces rest, cs = name ++ (spaces ++ '=' :: rest) ∧
    name.head?.any (!isAsciiDigit ·) = true ∧ (∀ c ∈ name, isAsciiWord c = true) ∧
    (∀ c ∈ spaces, c = ' ') ∧ rest.head? ≠ some '='

namespace Expr

variable {e : Expr}

/-- The name is the keyword, and the value is what stands behind the equals sign. -/
theorem toArg_of_masked {name spaces rest : List Char}
    (hmasked : e.masked = name ++ (spaces ++ '=' :: rest))
    (hfirst : name.head?.any (!isAsciiDigit ·) = true) (hname : ∀ c ∈ name, isAsciiWord c = true)
    (hspaces : ∀ c ∈ spaces, c = ' ') (hrest : rest.head? ≠ some '=') : e.toArg =
      ⟨some (plainText (takeGlyphs (Text.width name) e.glyphs)),
        e.slice (e.width - Text.width rest) e.width⟩ := by
  obtain ⟨c, more, rfl, hdigit⟩ := Text.exists_cons_of_head?_any hfirst
  have hend : (spaces ++ '=' :: rest).head?.any isAsciiWord = false := by
    cases spaces with
    | nil => rfl
    | cons d spaces => rw [hspaces d List.mem_cons_self]; rfl
  have hspaces' : ∀ d ∈ spaces, (d == ' ') = true := fun d hd => beq_iff_eq.mpr (hspaces d hd)
  have htake : e.masked.takeWhile isAsciiWord = c :: more := by
    rw [hmasked, Text.takeWhile_run hname hend]
  have hafter : (e.masked.drop (c :: more).length).dropWhile (· == ' ') = '=' :: rest := by
    rw [hmasked, List.drop_left, Text.dropWhile_run hspaces' rfl]
  have hsign : (!isAsciiDigit c && rest.head? != some '=') = true := by
    rw [hdigit, Bool.true_and, bne_iff_ne]
    exact hrest
  unfold toArg
  dsimp only
  simp only [htake, hafter, hsign, if_true]

theorem keyword_toArg_of_isKeyword (h : Text.IsKeyword e.masked) : e.toArg.keyword ≠ none := by
  obtain ⟨name, spaces, rest, hmasked, hfirst, hname, hspaces, hrest⟩ := h
  rw [toArg_of_masked hmasked hfirst hname hspaces hrest]
  exact Option.some_ne_none _

theorem toArg_of_not_isKeyword (h : ¬Text.IsKeyword e.masked) : e.toArg = ⟨none, e⟩ := by
  unfold toArg
  dsimp only
  split
  · next c more rest hname hafter =>
    split
    · next hsign =>
      obtain ⟨hdigit, hrest⟩ := Bool.and_eq_true_iff.mp hsign
      have hwords : ∀ d ∈ e.masked.takeWhile isAsciiWord, isAsciiWord d = true :=
        List.all_eq_true.mp List.all_takeWhile
      have hspaces :
          ∀ d ∈ (e.masked.drop (e.masked.takeWhile isAsciiWord).length).takeWhile (· == ' '),
            d = ' ' :=
        fun d hd => beq_iff_eq.mp (List.all_eq_true.mp List.all_takeWhile d hd)
      have htext : e.masked.takeWhile isAsciiWord ++
          e.masked.drop (e.masked.takeWhile isAsciiWord).length = e.masked :=
        List.prefix_iff_eq_append.mp (List.takeWhile_prefix isAsciiWord)
      have hsplit : e.masked.drop (e.masked.takeWhile isAsciiWord).length =
          (e.masked.drop (e.masked.takeWhile isAsciiWord).length).takeWhile (· == ' ') ++
            '=' :: rest := by
        rw [← hafter, List.takeWhile_append_dropWhile]
      refine absurd ⟨_, _, rest, htext.symm.trans (congrArg (_ ++ ·) hsplit), ?_, hwords, hspaces,
        by simpa using hrest⟩ h
      rw [hname]
      exact hdigit
    · rfl
  · rfl

/-- The values of the arguments that carry no keyword. -/
theorem positionals_eq (es : List Expr) (stop : Nat) :
    Args.positionals ⟨es.map toArg, stop⟩ = es.filter fun x => x.toArg.keyword.isNone := by
  induction es with
  | nil => rfl
  | cons x es ih =>
    rw [Args.positionals] at ih ⊢
    rw [List.map_cons, List.filter_cons, List.filter_cons]
    split
    · next hnone =>
      have hvalue : x.toArg.value = x := by
        by_cases hkeyword : Text.IsKeyword x.masked
        · exact absurd (Option.isNone_iff_eq_none.mp hnone) (keyword_toArg_of_isKeyword hkeyword)
        · rw [toArg_of_not_isKeyword hkeyword]
      rw [List.map_cons, ih, hvalue]
    · exact ih

end Expr

/-! ### Keywords among tokens -/

namespace Token

variable {ts : List Token}

@[simp] theorem maskedOf_map_code (cs : List Char) : maskedOf (cs.map code) = cs := by
  induction cs with
  | nil => rfl
  | cons c cs ih => rw [List.map_cons, maskedOf_code, ih]

/-- A literal begins with its delimiter, masked or not. -/
theorem head?_maskedOf (hts : ∀ t ∈ ts, t.Sealed) : (maskedOf ts).head? = (textOf ts).head? := by
  cases ts with
  | nil => rfl
  | cons t ts =>
    cases t with
    | code c => rfl
    | literal cs =>
      have hsealed : EndpointCensus.Sealed cs := hts _ List.mem_cons_self
      obtain ⟨q, n, interior, hq, hpos, rfl, hn⟩ := hsealed
      obtain ⟨n, rfl⟩ : ∃ k, n = k + 1 := ⟨n - 1, by omega⟩
      rw [maskedOf_cons, glyphs, veilLiteral_of_delimiters hq hn]
      rfl

/-- Where no delimiter shows there are no literals. -/
theorem eq_code_of_maskedOf (hts : ∀ t ∈ ts, t.Sealed)
    (h : ∀ c ∈ maskedOf ts, isDelimiter c = false) : ts = (maskedOf ts).map code := by
  induction ts with
  | nil => rfl
  | cons t ts ih =>
    have hrest := fun t' ht' => hts t' (List.mem_cons_of_mem t ht')
    cases t with
    | code c =>
      rw [maskedOf_code] at h ⊢
      rw [List.map_cons, ← ih hrest fun d hd => h d (List.mem_cons_of_mem c hd)]
    | literal cs =>
      have hhead := head?_maskedOf hts
      obtain ⟨q, n, interior, hq, hpos, rfl, hn⟩ : EndpointCensus.Sealed cs :=
        hts _ List.mem_cons_self
      obtain ⟨n, rfl⟩ : ∃ k, n = k + 1 := ⟨n - 1, by omega⟩
      have hmem : q ∈ maskedOf
          (literal (List.replicate (n + 1) q ++ (interior ++ List.replicate (n + 1) q)) :: ts) :=
        List.mem_of_mem_head? hhead
      rw [h q hmem] at hq
      contradiction

theorem isDelimiter_of_isAsciiWord {c : Char} (h : isAsciiWord c = true) : isDelimiter c = false :=
  isDelimiter_of_isNamePart (Text.isNamePart_of_isAsciiWord h)

/-- Masking neither makes nor hides a keyword. -/
theorem isKeyword_maskedOf (hts : ∀ t ∈ ts, t.Sealed) :
    Text.IsKeyword (maskedOf ts) ↔ Text.IsKeyword (textOf ts) := by
  have hplain {name spaces : List Char} (hname : ∀ c ∈ name, isAsciiWord c = true)
      (hspaces : ∀ c ∈ spaces, c = ' ') : ∀ c ∈ name ++ spaces, isDelimiter c = false := by
    intro c hc
    rcases List.mem_append.mp hc with hc | hc
    · exact isDelimiter_of_isAsciiWord (hname c hc)
    · rw [hspaces c hc]
      decide
  constructor
  · rintro ⟨name, spaces, rest, hmasked, hfirst, hname, hspaces, hrest⟩
    rw [← List.append_assoc] at hmasked
    obtain ⟨xs, ys, rfl, hxs, rfl⟩ := exists_code_of_maskedOf hts hmasked rfl (by decide)
    have hcode :=
      eq_code_of_maskedOf (fun t ht => hts t (List.mem_append_left _ ht))
        (hxs ▸ hplain hname hspaces)
    have hys : ∀ t ∈ ys, t.Sealed :=
      fun t ht => hts t (List.mem_append_right _ (List.mem_cons_of_mem _ ht))
    refine ⟨name, spaces, textOf ys, ?_, hfirst, hname, hspaces, head?_maskedOf hys ▸ hrest⟩
    rw [textOf_append, hcode, textOf_map_code, hxs, List.append_assoc]
    rfl
  · rintro ⟨name, spaces, rest, htext, hfirst, hname, hspaces, hrest⟩
    rw [← List.append_assoc] at htext
    obtain ⟨behind, rfl, hbehind⟩ := exists_code_of_textOf hts (hplain hname hspaces) htext
    have hbehind' : ∀ t ∈ behind, t.Sealed := fun t ht => hts t (List.mem_append_right _ ht)
    obtain ⟨ys, rfl, hys⟩ :=
      @exists_code_of_textOf _ hbehind' ['='] rest (List.forall_mem_singleton.mpr rfl) hbehind
    have hhead := head?_maskedOf fun t ht => hbehind' t (List.mem_append_right _ ht)
    refine ⟨name, spaces, maskedOf ys, ?_, hfirst, hname, hspaces, ?_⟩
    · rw [maskedOf_append, maskedOf_map_code, List.append_assoc, List.map_singleton,
        List.singleton_append, maskedOf_code]
    · rw [hhead, hys]
      exact hrest

end Token

/-! ### Values of arguments -/

open Token (glyphsOf maskedOf textOf)

/-- A literal has its interior for its value. -/
theorem stringLiteral?_of_interior {delimiter inner : List Char} (hdelimits : Delimits delimiter)
    (hinner : Interior delimiter delimiter inner) :
    stringLiteral? (delimiter ++ (inner ++ delimiter)) = some inner := by
  obtain ⟨q, n, hq, rfl, hlength⟩ : ∃ q n, isDelimiter q = true ∧
      delimiter = List.replicate (n + 1) q ∧
      delimiterLength (delimiter ++ (inner ++ delimiter)) = n + 1 := by
    cases hdelimits with
    | @once q hq => exact ⟨q, 0, hq, rfl, delimiterLength_once (hinner.head?_ne hq)⟩
    | @thrice q hq => exact ⟨q, 2, isDelimiter_of_isQuote hq, rfl, delimiterLength_triple hq _⟩
  have hfind := find?_delimiter hq (List.replicate n q ++ (inner ++ List.replicate (n + 1) q))
  have hbody : q :: (List.replicate n q ++ (inner ++ List.replicate (n + 1) q)) =
      List.replicate (n + 1) q ++ (inner ++ List.replicate (n + 1) q) := rfl
  rw [hbody, hlength] at hfind
  have hread : stringLiteral? (List.replicate (n + 1) q ++ (inner ++ List.replicate (n + 1) q)) =
      enclosed? _ :=
    @stringLiteral?_append [] _ (by simp) (by simp) hq
  rw [hread]
  exact (enclosed?_eq_some hfind).mpr ⟨rfl, hinner.mem_of_infix (by simp)⟩

namespace Expr

variable {e : Expr} {ts : List Token}

/-- What does not read as a keyword and a value is a value as a whole. -/
theorem toArg_of_tokens (hts : ∀ t ∈ ts, t.Sealed) (h : e.glyphs = glyphsOf ts)
    (hkeyword : ¬Text.IsKeyword (textOf ts)) : e.toArg = ⟨none, e⟩ := by
  refine toArg_of_not_isKeyword ?_
  rwa [masked_eq h, Token.isKeyword_maskedOf hts]

theorem keyword_toArg_of_tokens (hts : ∀ t ∈ ts, t.Sealed) (h : e.glyphs = glyphsOf ts)
    (hkeyword : Text.IsKeyword (textOf ts)) : e.toArg.keyword ≠ none := by
  refine keyword_toArg_of_isKeyword ?_
  rwa [masked_eq h, Token.isKeyword_maskedOf hts]

end Expr

end EndpointCensus
