import EndpointCensus.Json.Basic
import EndpointCensus.Text.Number

/-! JSON numbers: their grammar, and the range of those that can be held. A number with a
fraction or an exponent, or with more digits than a machine word holds, is taken as a double in
two roundings: that of its leading digits, as many as fit a word, and that of their product
with the power of ten. -/

namespace EndpointCensus.Json

def digitRun? (cs : List Char) : Option (List Char × List Char) :=
  let run := cs.takeWhile Text.isAsciiDigit
  if run.isEmpty then none else some (run, cs.drop run.length)

/-- The digits before the point; a zero stands alone. -/
def wholePart? : List Char → Option (List Char × List Char)
  | '0' :: rest => if rest.head?.any Text.isAsciiDigit then none else some (['0'], rest)
  | cs => digitRun? cs

/-- The digits after the point; no digits where there is no point. -/
def fraction? : List Char → Option (List Char × List Char)
  | '.' :: rest => digitRun? rest
  | cs => some ([], cs)

def exponent? : List Char → Option (Option Int × List Char)
  | [] => some (none, [])
  | c :: rest =>
    if c == 'e' || c == 'E' then
      let (negative, digits) := match rest with
        | '-' :: digits => (true, digits)
        | '+' :: digits => (false, digits)
        | digits => (false, digits)
      (digitRun? digits).map fun r =>
        let n : Int := Text.digitsValue 0 r.1
        (some (if negative then -n else n), r.2)
    else some (none, c :: rest)

/-! ### The range of doubles -/

/-- The value of the digits after `n` as far as it fits a machine word, and the digits left. -/
def fitting (n : Nat) : List Char → Nat × List Char
  | [] => (n, [])
  | c :: cs =>
    let m := Text.digitsValue n [c]
    if m ≤ Text.maxWord then fitting m cs else (n, c :: cs)

/-- The nearest number of 53 significant bits, of two the even one. -/
def roundToDouble (n : Nat) : Nat :=
  match n.log2 - 52 with
  | 0 => n
  | k + 1 =>
    let kept := n >>> (k + 1)
    let rest := n - (kept <<< (k + 1))
    let half := 1 <<< k
    let up := half < rest || (rest == half && kept % 2 == 1)
    (if up then kept + 1 else kept) <<< (k + 1)

/-- The least number that rounds to infinity. -/
def infinity : Nat := ((1 <<< 54) - 1) <<< 970

/-- The product of `n` with a power of ten is a finite double. -/
def inRange (n : Nat) (exponent : Int) : Bool :=
  n == 0 || exponent < 0 ||
    (exponent ≤ 308 && roundToDouble n * roundToDouble (Nat.pow 10 exponent.toNat) < infinity)

/-- A number of these digits and this exponent can be held. Digits that do not fit count for their
place before the point, and for nothing after it. -/
def canHold (whole fraction : List Char) (exponent : Int) : Bool :=
  let w := fitting 0 whole
  let f := fitting w.1 fraction
  inRange f.1 (exponent + w.2.length - (fraction.length - f.2.length : Nat))

def number? (cs : List Char) : Option (Json × List Char) := do
  let negative := cs.head? == some '-'
  let (whole, rest) ← wholePart? (if negative then cs.tail else cs)
  let (fraction, rest) ← fraction? rest
  let (exponent, rest) ← exponent? rest
  let n := Text.digitsValue 0 whole
  if !canHold whole fraction (exponent.getD 0) then some (unreadable, rest)
  else if fraction.isEmpty && exponent.isNone && !(negative && n == 0) then
    some (int (if negative then -(n : Int) else n), rest)
  else some (decimal (String.ofList (cs.take (cs.length - rest.length))), rest)

end EndpointCensus.Json
