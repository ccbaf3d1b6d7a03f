import EndpointCensus.Text.Name

/-! Bracket structure of a text whose literals are masked. Positions are byte offsets; round, square
and curly brackets count alike. -/

namespace EndpointCensus.Text

/-- The position of the closer that brings the depth to zero; none if it would sink below. -/
def closingFrom : Nat → Nat → List Char → Option Nat
  | _, _, [] => none
  | pos, depth, c :: cs =>
    if isOpener c then closingFrom (pos + c.utf8Size) (depth + 1) cs
    else if isCloser c then
      match depth with
      | 0 => none
      | 1 => some pos
      | d + 2 => closingFrom (pos + c.utf8Size) (d + 1) cs
    else closingFrom (pos + c.utf8Size) depth cs

/-- The offset of the bracket that closes the first one at `start` or after it. -/
def findMatching (cs : List Char) (start : Nat) : Option Nat :=
  let (pos, rest) := seek 0 start cs
  closingFrom pos 0 rest

/-- The end of an angle-bracketed list; characters before `resume` belong to a bracket passed over
whole, and an arrow's head does not close the list. -/
def typeArgsFrom (resume : Nat) : Nat → Option Char → Nat → List Char → Option Nat
  | _, _, _, [] => none
  | pos, before, depth, c :: cs =>
    let next := pos + c.utf8Size
    if pos < resume then typeArgsFrom resume next (some c) depth cs
    else if c == '<' then typeArgsFrom resume next (some c) (depth + 1) cs
    else if c == '>' then
      if before == some '=' then typeArgsFrom resume next (some c) depth cs
      else match depth with
        | 0 => none
        | 1 => some next
        | d + 2 => typeArgsFrom resume next (some c) (d + 1) cs
    else if isOpener c then
      match closingFrom pos 0 (c :: cs) with
      | some close => typeArgsFrom (close + 1) next (some c) depth cs
      | none => none
    else if isCloser c || c == ';' then none
    else typeArgsFrom resume next (some c) depth cs

/-- The offset just past the angle bracket that closes the one at `start`. -/
def skipTypeArgs (cs : List Char) (start : Nat) : Option Nat :=
  let (pos, rest) := seek 0 start cs
  typeArgsFrom 0 pos (takeBytes start cs).getLast? 0 rest

/-- The ranges between separators at depth zero; `first` is where the current range starts. -/
def splitFrom (sep : Char) (stop first : Nat) : Nat → Nat → List Char → List (Nat × Nat)
  | _, _, [] => [(first, stop)]
  | pos, depth, c :: cs =>
    let next := pos + c.utf8Size
    if stop ≤ pos then [(first, stop)]
    else if isOpener c then splitFrom sep stop first next (depth + 1) cs
    else if isCloser c then splitFrom sep stop first next (depth - 1) cs
    else if c == sep && depth == 0 then (first, pos) :: splitFrom sep stop next next depth cs
    else splitFrom sep stop first next depth cs

/-- The ranges into which separators at bracket depth zero cut the bytes from `start` to `stop`. -/
def splitTopLevel (sep : Char) (cs : List Char) (start stop : Nat) : List (Nat × Nat) :=
  let (pos, rest) := seek 0 start cs
  splitFrom sep stop start pos 0 rest

/-- The same for bounds that need not lie in the text; none when the range reads past its end. -/
def splitTopLevel? (sep : Char) (cs : List Char) (start stop : Nat) : Option (List (Nat × Nat)) :=
  if start < stop && width cs < stop then none else some (splitTopLevel sep cs start stop)

/-- The character whose code is the byte. -/
def octet (b : UInt8) : Char := Char.ofNat b.toNat

/-- The ranges between separator bytes at depth zero; `first` is where the current range starts. -/
def splitBytesFrom (sep : UInt8) (stop first : Nat) : Nat → Nat → List UInt8 → List (Nat × Nat)
  | _, _, [] => [(first, stop)]
  | pos, depth, b :: bs =>
    let next := pos + 1
    if isOpener (octet b) then splitBytesFrom sep stop first next (depth + 1) bs
    else if isCloser (octet b) then splitBytesFrom sep stop first next (depth - 1) bs
    else if b == sep && depth == 0 then (first, pos) :: splitBytesFrom sep stop next next depth bs
    else splitBytesFrom sep stop first next depth bs

/-- The ranges into which a separator byte at bracket depth zero cuts the bytes from `start` to
`stop`. Any byte may separate, one that is a part of a character too. -/
def splitBytes (sep : UInt8) (bs : List UInt8) (start stop : Nat) : List (Nat × Nat) :=
  splitBytesFrom sep stop start start 0 (bs.extract start stop)

/-- The same for bounds that need not lie in the text; none when the range reads past its end. -/
def splitBytes? (sep : UInt8) (bs : List UInt8) (start stop : Nat) : Option (List (Nat × Nat)) :=
  if start < stop && bs.length < stop then none else some (splitBytes sep bs start stop)

/-- The first offset at `start` or after it that is no ASCII white space. -/
def skipAsciiBlanks (cs : List Char) (start : Nat) : Nat :=
  match charAt? cs start with
  | some _ => start + width ((dropBytes start cs).takeWhile isAsciiBlank)
  | none => start

end EndpointCensus.Text
