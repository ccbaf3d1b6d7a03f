import EndpointCensus.Endpoint
import EndpointCensus.Text.Name

/-! Placeholders of route patterns. Typed, regex, brace and colon placeholders all become a name in
braces, and their constraints are collected. -/

namespace EndpointCensus.Pattern

/-- A placeholder that was read, with the number of characters it takes. -/
structure Placeholder where
  name : List Char
  constraint : List Char
  size : Nat
  deriving DecidableEq, Repr

/-- The text of a regex group from `depth` open parentheses up to the one that closes the last of
them. Escaped characters and character classes are passed over. -/
def groupFrom : Nat → Bool → Bool → List Char → Option (List Char)
  | _, _, _, [] => none
  | depth, inClass, escaped, c :: cs =>
    let more (depth : Nat) (inClass escaped : Bool) :=
      (groupFrom depth inClass escaped cs).map (c :: ·)
    if escaped then more depth inClass false
    else if c == '\\' then more depth inClass true
    else if inClass then more depth (c != ']') false
    else if c == '[' then more depth true false
    else if c == '(' then more (depth + 1) false false
    else if c == ')' then if depth ≤ 1 then some [] else more (depth - 1) false false
    else more depth false false

def namedGroup? (cs : List Char) : Option Placeholder := do
  let (name, rest) ← (Text.after? "(?P<" cs).bind Text.word?
  let body ← (Text.after? ">" rest).bind (groupFrom 1 false false)
  some ⟨name, body, name.length + body.length + 6⟩

/-- A name in angle brackets, with a converter before it if a colon stands between them. -/
def angled? (cs : List Char) : Option Placeholder := do
  let (first, rest) ← (Text.after? "<" cs).bind fun
    | c :: cs =>
      let isPart (d : Char) := Text.isWord d || d == '.'
      if Text.isWordStart c then some (c :: cs.takeWhile isPart, cs.dropWhile isPart) else none
    | [] => none
  match rest with
  | ':' :: rest =>
    let (name, rest) ← Text.word? rest
    if rest.head? == some '>' then some ⟨name, first, first.length + name.length + 3⟩ else none
  | '>' :: _ => if first.contains '.' then none else some ⟨first, [], first.length + 2⟩
  | _ => none

/-- A name in braces, with a constraint after a colon if there is one. -/
def braced? (cs : List Char) : Option Placeholder := do
  let (name, rest) ← (cs.head?.filter (· == '{')).bind fun _ => Text.word? cs.tail
  match rest with
  | '}' :: _ => some ⟨name, [], name.length + 2⟩
  | ':' :: rest =>
    let plain (c : Char) := c != '{' && c != '}'
    let constraint := rest.takeWhile plain
    if !constraint.isEmpty && (rest.dropWhile plain).head? == some '}' then
      some ⟨name, constraint, name.length + constraint.length + 3⟩
    else none
  | _ => none

/-- A name after a colon, with a pattern in parentheses and a question mark if they follow. -/
def coloned? (cs : List Char) : Option Placeholder := do
  let (name, rest) ← (Text.after? ":" cs).bind Text.word?
  let inner := rest.tail.takeWhile (· != ')')
  let closed := rest.head? == some '(' && inner.length + 1 < rest.length
  let constraint := if closed then inner else []
  let size := name.length + 1 + if closed then inner.length + 2 else 0
  let optional := (cs.drop size).head? == some '?'
  some ⟨name, constraint, if optional then size + 1 else size⟩

/-- The placeholder at the start of the text; the colon form counts at the start of a segment. -/
def placeholder? (segmentStart : Bool) (cs : List Char) : Option Placeholder :=
  (namedGroup? cs).or <| (angled? cs).or <| (braced? cs).or <|
    if segmentStart then coloned? cs else none

/-- The parameter of a placeholder; an empty constraint is none. -/
def Placeholder.param (p : Placeholder) : Param where
  name := String.ofList p.name
  constraint := if p.constraint.isEmpty then none else some (String.ofList p.constraint)

/-- Normalizes the text, `skip` characters of which belong to a placeholder already read. -/
def normalizeFrom : Bool → Nat → List Char → List Char × List Param
  | _, _, [] => ([], [])
  | _, skip + 1, c :: cs => normalizeFrom (c == '/') skip cs
  | segmentStart, 0, c :: cs =>
    match placeholder? segmentStart (c :: cs) with
    | some p =>
      let rest := normalizeFrom false (p.size - 1) cs
      ('{' :: p.name ++ '}' :: rest.1, p.param :: rest.2)
    | none =>
      let rest := normalizeFrom (c == '/') 0 cs
      (c :: rest.1, rest.2)

/-- The pattern with every placeholder as a name in braces, and the parameters in order. -/
def normalize (cs : List Char) : List Char × List Param := normalizeFrom true 0 cs

end EndpointCensus.Pattern
