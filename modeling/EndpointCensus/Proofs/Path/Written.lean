import EndpointCensus.Proofs.Path.Normal

/-! Patterns as they are written: literal chunks and parameters in angle brackets, in braces or as
regex groups, side by side in any order. Normalizing reads such a pattern back: it copies the
chunks, puts the name of every parameter in braces, and finds its constraint. -/

namespace EndpointCensus.Pattern

open Text (IsName)

variable {start : Bool} {cs rest name : List Char} {p : Placeholder}

/-! ### Parameters -/

/-- The ways to write a parameter, its name apart. -/
inductive Spelling
  | angled
  | converted (converter : List Char)
  | braced
  | constrained (constraint : List Char)
  | group (body : List Char)
  deriving DecidableEq, Repr

namespace Spelling

def write (name : List Char) : Spelling → List Char
  | angled => '<' :: (name ++ ['>'])
  | converted converter => '<' :: (converter ++ ':' :: (name ++ ['>']))
  | braced => '{' :: (name ++ ['}'])
  | constrained constraint => '{' :: (name ++ ':' :: (constraint ++ ['}']))
  | group body => "(?P<".toList ++ (name ++ '>' :: (body ++ [')']))

/-- The text that constrains the parameter, empty for the bare forms. -/
def constraint : Spelling → List Char
  | angled | braced => []
  | converted text | constrained text | group text => text

def IsValid : Spelling → Prop
  | angled | braced => True
  | converted converter => IsConverter converter
  | constrained constraint => IsConstraint constraint
  | group body => IsBody body

variable {s : Spelling}

/-- A parameter is read from its own text, whatever stands before and behind it. -/
theorem placeholder?_write (hs : s.IsValid) (hname : IsName name) (start : Bool)
    (rest : List Char) :
    placeholder? start (s.write name ++ rest) =
      some ⟨name, s.constraint, (s.write name).length⟩ := by
  cases s with
  | angled =>
    have htext : write name angled ++ rest = '<' :: (name ++ '>' :: rest) := by simp [write]
    have hgroup : namedGroup? ('<' :: (name ++ '>' :: rest)) = none := rfl
    rw [htext, placeholder?, hgroup, angled?_name hname]
    simp [write, constraint]
  | converted converter =>
    have htext : write name (converted converter) ++ rest =
        '<' :: (converter ++ ':' :: (name ++ '>' :: rest)) := by
      simp [write]
    have hgroup : namedGroup? ('<' :: (converter ++ ':' :: (name ++ '>' :: rest))) = none := rfl
    rw [htext, placeholder?, hgroup, angled?_converted hs hname]
    simp [write, constraint]
    omega
  | braced =>
    have htext : write name braced ++ rest = '{' :: (name ++ '}' :: rest) := by simp [write]
    have hbefore : (namedGroup? ('{' :: (name ++ '}' :: rest))).or
        (angled? ('{' :: (name ++ '}' :: rest))) = none := rfl
    rw [htext, placeholder?, ← Option.or_assoc, hbefore, braced?_name hname]
    simp [write, constraint]
  | constrained constraint =>
    have htext : write name (constrained constraint) ++ rest =
        '{' :: (name ++ ':' :: (constraint ++ '}' :: rest)) := by
      simp [write]
    have hbefore : (namedGroup? ('{' :: (name ++ ':' :: (constraint ++ '}' :: rest)))).or
        (angled? ('{' :: (name ++ ':' :: (constraint ++ '}' :: rest)))) = none := rfl
    rw [htext, placeholder?, ← Option.or_assoc, hbefore, braced?_constrained hname hs]
    simp [write, Spelling.constraint]
    omega
  | group body =>
    have htext : write name (group body) ++ rest =
        "(?P<".toList ++ (name ++ '>' :: (body ++ ')' :: rest)) := by
      simp [write]
    rw [htext, placeholder?, namedGroup?_body hname hs, Option.some_or]
    simp [write, constraint]
    omega

theorem write_ne_nil (s : Spelling) (name : List Char) :
    s.write name ≠ [] := by cases s <;> simp [write]

end Spelling

/-! ### Patterns -/

/-- A literal chunk or a parameter of a written pattern. -/
inductive Part
  | chunk (text : List Char)
  | parameter (name : List Char) (s : Spelling)
  deriving DecidableEq, Repr

namespace Part

def text : Part → List Char
  | chunk text => text
  | parameter name s => s.write name

def shown : Part → List Char
  | chunk text => text
  | parameter name _ => '{' :: (name ++ ['}'])

def params : Part → List Param
  | chunk _ => []
  | parameter name s =>
    [⟨String.ofList name, if s.constraint = [] then none else some (String.ofList s.constraint)⟩]

/-- Chunks have no bracket, no colon and no backslash. -/
def IsValid : Part → Prop
  | chunk text => ∀ c ∈ text, c ∉ ['<', '>', '{', '}', '(', ')', '[', ']', ':', '\\']
  | parameter name s => IsName name ∧ s.IsValid

/-- A part is read by itself. -/
theorem normalizeFrom_append {part : Part} (h : part.IsValid) (start : Bool) (rest : List Char) :
    normalizeFrom start 0 (part.text ++ rest) =
      (part.shown ++ (normalizeFrom (startBehind start part.text) 0 rest).1,
        part.params ++ (normalizeFrom (startBehind start part.text) 0 rest).2) := by
  cases part with
  | chunk text =>
    refine normalizeFrom_chunk (fun c hc => ?_) start rest
    have hplain := h c hc
    simp only [List.mem_cons, List.not_mem_nil, or_false, not_or] at hplain
    simp [isOpening, hplain]
  | parameter name s =>
    obtain ⟨hname, hs⟩ := h
    have hread := Spelling.placeholder?_write hs hname start rest
    have htext := Pattern.normalizeFrom_text (s.write_ne_nil name) hread rfl
    simpa [text, shown, params, Placeholder.param] using htext

end Part

/-- Normalizing a written pattern reads its parts back. -/
theorem normalize_written {parts : List Part} (h : ∀ part ∈ parts, part.IsValid) :
    normalize (parts.flatMap Part.text) =
      (parts.flatMap Part.shown, parts.flatMap Part.params) := by
  suffices hfrom : ∀ start, normalizeFrom start 0 (parts.flatMap Part.text) =
      (parts.flatMap Part.shown, parts.flatMap Part.params) from hfrom true
  induction parts with
  | nil => exact fun _ => rfl
  | cons part parts ih =>
    intro start
    obtain ⟨hpart, hparts⟩ := List.forall_mem_cons.mp h
    rw [List.flatMap_cons, Part.normalizeFrom_append hpart, ih hparts]
    rfl

/-- A group with a group, an escape and a class inside, with parameters of other
forms directly behind it. -/
theorem normalize_written_adjacent :
    let parts : List Part :=
      [.chunk "posts/".toList, .parameter "year".toList (.group "(19|20)\\d[)(]".toList),
        .parameter "page".toList (.converted "app.Page".toList),
        .parameter "tail".toList (.group []), .chunk "-".toList,
        .parameter "id".toList (.constrained "a:(b".toList), .parameter "x".toList .angled]
    (∀ part ∈ parts, part.IsValid) ∧ normalize (parts.flatMap Part.text) =
      ("posts/{year}{page}{tail}-{id}{x}".toList,
        [⟨"year", some "(19|20)\\d[)(]"⟩, ⟨"page", some "app.Page"⟩, ⟨"tail", none⟩,
          ⟨"id", some "a:(b"⟩, ⟨"x", none⟩]) := by
  intro parts
  have hbody : IsBody "(19|20)\\d[)(]".toList := by
    have hclass : IsClass [')', '('] :=
      .plain (by decide) (by decide) (.plain (by decide) (by decide) .nil)
    have hinside : IsBody "19|20".toList := by
      repeat refine IsBody.plain (by decide) ?_
      exact .nil
    exact @IsBody.group "19|20".toList _ hinside (.escaped 'd' (@IsBody.set [')', '('] _ hclass .nil))
  have hconverter : IsConverter "app.Page".toList := by decide
  have hconstraint : IsConstraint "a:(b".toList := by decide
  have hvalid : ∀ part ∈ parts, part.IsValid := by
    simp only [parts, List.forall_mem_cons]
    refine ⟨?posts, ⟨by decide, hbody⟩, ⟨by decide, hconverter⟩, ⟨by decide, .nil⟩, ?dash,
      ⟨by decide, hconstraint⟩, ⟨by decide, trivial⟩, by simp⟩
    all_goals simp [Part.IsValid]
  exact ⟨hvalid, (normalize_written hvalid).trans (by decide +kernel)⟩

end EndpointCensus.Pattern
