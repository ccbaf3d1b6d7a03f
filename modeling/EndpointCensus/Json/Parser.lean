import EndpointCensus.Json.Numeral

/-! The JSON grammar. Control characters must be escaped, and nothing but white space may follow the
value. Surrogates that do not come in pairs are well formed, but unreadable. -/

namespace EndpointCensus.Json

def isSpace (c : Char) : Bool := c == ' ' || c == '\n' || c == '\t' || c == '\r'

def skipSpaces (cs : List Char) : List Char := cs.dropWhile isSpace

def hexValue? (c : Char) : Option Nat :=
  if '0' ≤ c ∧ c ≤ '9' then some (c.toNat - '0'.toNat)
  else if 'a' ≤ c ∧ c ≤ 'f' then some (c.toNat - 'a'.toNat + 10)
  else if 'A' ≤ c ∧ c ≤ 'F' then some (c.toNat - 'A'.toNat + 10)
  else none

def unit? : List Char → Option (Nat × List Char)
  | a :: b :: c :: d :: rest => do
    let a ← hexValue? a
    let b ← hexValue? b
    let c ← hexValue? c
    let d ← hexValue? d
    some (((a * 16 + b) * 16 + c) * 16 + d, rest)
  | _ => none

/-- The second half of a surrogate pair. -/
def lowHalf? : List Char → Option (Nat × List Char)
  | '\\' :: 'u' :: rest => (unit? rest).filter fun r => 0xDC00 ≤ r.1 && r.1 < 0xE000
  | _ => none

/-- The character of a code unit, or of a surrogate pair that starts with it; no
character for half a pair. -/
def scalar? (cs : List Char) : Option (Option Char × List Char) :=
  (unit? cs).map fun (unit, rest) =>
    if 0xD800 ≤ unit && unit < 0xDC00 then
      match lowHalf? rest with
      | some (low, rest) =>
        (some (Char.ofNat (0x10000 + (unit - 0xD800) * 0x400 + (low - 0xDC00))), rest)
      | none => (none, rest)
    else if 0xDC00 ≤ unit && unit < 0xE000 then (none, rest)
    else (some (Char.ofNat unit), rest)

def escaped? (c : Char) : Option Char :=
  match c with
  | '\x22' | '\\' | '/' => some c
  | 'b' => some '\x08'
  | 'f' => some '\x0c'
  | 'n' => some '\n'
  | 'r' => some '\r'
  | 't' => some '\t'
  | _ => none

def escape? : List Char → Option (Option Char × List Char)
  | 'u' :: rest => scalar? rest
  | c :: rest => (escaped? c).map fun d => (some d, rest)
  | [] => none

/-- The text of a string up to its closing quote, `seen` being what was read in reverse; no text
once half a surrogate pair was read. -/
def stringFrom? : Nat → Option (List Char) → List Char → Option (Option String × List Char)
  | 0, _, _ => none
  | _, _, [] => none
  | fuel + 1, seen, c :: cs =>
    if c == '\x22' then some (seen.map fun s => String.ofList s.reverse, cs)
    else if c == '\\' then do
      let (d?, rest) ← escape? cs
      stringFrom? fuel (d?.bind fun d => seen.map (d :: ·)) rest
    else if c.toNat < 0x20 then none
    else stringFrom? fuel (seen.map (c :: ·)) cs

def maxDepth : Nat := 127

/-- A list or object of `items`, unless there is no room for it or a part of it is missing. -/
def nested {α : Type _} (wrap : α → Json) (room : Nat) (items : Option α) : Json :=
  if room == 0 then unreadable else (items.map wrap).getD unreadable

mutual

/-- One value, white space before it allowed, with `room` for nested lists and objects. -/
def value? : Nat → Nat → List Char → Option (Json × List Char)
  | 0, _, _ => none
  | fuel + 1, room, cs =>
    match skipSpaces cs with
    | [] => none
    | c :: rest =>
      if c == '\x22' then
        (stringFrom? fuel (some []) rest).map fun r => ((r.1.map str).getD unreadable, r.2)
      else if c == '[' then
        match skipSpaces rest with
        | ']' :: rest => some (nested arr room (some []), rest)
        | rest => (items? fuel (room - 1) rest).map fun r => (nested arr room (some r.1), r.2)
      else if c == '{' then
        match skipSpaces rest with
        | '}' :: rest => some (nested obj room (some []), rest)
        | rest => (members? fuel (room - 1) rest).map fun r => (nested obj room r.1, r.2)
      else if "null".toList.isPrefixOf (c :: rest) then some (null, rest.drop 3)
      else if "true".toList.isPrefixOf (c :: rest) then some (bool true, rest.drop 3)
      else if "false".toList.isPrefixOf (c :: rest) then some (bool false, rest.drop 4)
      else number? (c :: rest)

/-- The values of an array from its first one to the closing bracket. -/
def items? : Nat → Nat → List Char → Option (List Json × List Char)
  | 0, _, _ => none
  | fuel + 1, room, cs => do
    let (v, rest) ← value? fuel room cs
    match skipSpaces rest with
    | ',' :: rest =>
      let (vs, rest) ← items? fuel room rest
      some (v :: vs, rest)
    | ']' :: rest => some ([v], rest)
    | _ => none

/-- The members of an object from its first one to the closing brace; none when a key has half a
surrogate pair. -/
def members? : Nat → Nat → List Char → Option (Option (List (String × Json)) × List Char)
  | 0, _, _ => none
  | fuel + 1, room, cs =>
    match skipSpaces cs with
    | '\x22' :: rest => do
      let (key?, rest) ← stringFrom? fuel (some []) rest
      match skipSpaces rest with
      | ':' :: rest =>
        let (v, rest) ← value? fuel room rest
        let first? := key?.map fun key => (key, v)
        match skipSpaces rest with
        | ',' :: rest =>
          let (more?, rest) ← members? fuel room rest
          some (first?.bind fun first => more?.map (first :: ·), rest)
        | '}' :: rest => some (first?.map ([·]), rest)
        | _ => none
      | _ => none
    | _ => none

end

def parse? (s : String) : Option Json :=
  let cs := s.toList
  match value? (2 * cs.length + 2) maxDepth cs with
  | some (v, rest) => if (skipSpaces rest).isEmpty then some v else none
  | none => none

end EndpointCensus.Json
