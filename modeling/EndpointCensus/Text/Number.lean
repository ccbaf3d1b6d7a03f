import EndpointCensus.Text.Word

/-! Numerals in ASCII digits. -/

namespace EndpointCensus.Text

def maxWord : Nat := 0xFFFFFFFFFFFFFFFF

def digitsValue : Nat → List Char → Nat
  | n, [] => n
  | n, c :: cs => digitsValue (10 * n + (c.toNat - '0'.toNat)) cs

def digits? (cs : List Char) : Option Nat :=
  if !cs.isEmpty && cs.all isAsciiDigit then some (digitsValue 0 cs) else none

/-- Digits with an optional plus sign, at most `limit`. -/
def natural? (limit : Nat) (cs : List Char) : Option Nat :=
  (digits? (if cs.head? == some '+' then cs.tail else cs)).filter (· ≤ limit)

/-- Digits with an optional sign, in the range of 64 bits. -/
def integer? (cs : List Char) : Option Int :=
  match cs with
  | '-' :: rest => ((digits? rest).filter (· ≤ 0x8000000000000000)).map fun n => -(n : Int)
  | _ => (natural? 0x7FFFFFFFFFFFFFFF cs).map Int.ofNat

def hexDigit (n : Nat) : Char := Char.ofNat (if n < 10 then '0'.toNat + n else 'a'.toNat + n - 10)

end EndpointCensus.Text
