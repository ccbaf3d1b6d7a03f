/-! White space and byte widths of text held as a list of characters. Positions in a text are
counted in UTF-8 bytes throughout. -/

namespace EndpointCensus.Text

/-- The characters with the Unicode property White_Space. -/
def isBlank (c : Char) : Bool :=
  let n := c.toNat
  (9 ≤ n && n ≤ 13) || n == 0x20 || n == 0x85 || n == 0xA0 || n == 0x1680 ||
    (0x2000 ≤ n && n ≤ 0x200A) || n == 0x2028 || n == 0x2029 || n == 0x202F || n == 0x205F ||
    n == 0x3000

/-- The white space of ASCII without the vertical tab. -/
def isAsciiBlank (c : Char) : Bool :=
  c == ' ' || c == '\t' || c == '\n' || c == '\x0c' || c == '\r'

/-- The list without its longest final run of elements satisfying `p`. -/
def dropEndWhile {α : Type _} (p : α → Bool) : List α → List α
  | [] => []
  | a :: l =>
    let rest := dropEndWhile p l
    if rest.isEmpty && p a then [] else a :: rest

def trimStart (cs : List Char) : List Char := cs.dropWhile isBlank

def trimEnd (cs : List Char) : List Char := dropEndWhile isBlank cs

def trim (cs : List Char) : List Char := trimEnd (trimStart cs)

/-- The text has no character other than white space. -/
def allBlank (cs : List Char) : Bool := cs.all isBlank

/-- The number of bytes of the text in UTF-8. -/
def width : List Char → Nat
  | [] => 0
  | c :: cs => c.utf8Size + width cs

@[simp] theorem width_nil : width [] = 0 := rfl

@[simp] theorem width_cons (c : Char) (cs : List Char) : width (c :: cs) = c.utf8Size + width cs :=
  rfl

@[simp] theorem width_append (xs ys : List Char) : width (xs ++ ys) = width xs + width ys := by
  induction xs with
  | nil => simp
  | cons c cs ih => simp [ih, Nat.add_assoc]

/-- The character that starts exactly at byte `at`. -/
def charAt? : List Char → Nat → Option Char
  | [], _ => none
  | c :: _, 0 => some c
  | c :: cs, n => if n < c.utf8Size then none else charAt? cs (n - c.utf8Size)

/-- The text from the first character that starts at byte `n` or later. -/
def dropBytes : Nat → List Char → List Char
  | 0, cs => cs
  | _, [] => []
  | n, c :: cs => dropBytes (n - c.utf8Size) cs

/-- The text from the first character that starts at byte `n` or later, and the position of that
character, the whole text being at `pos`. -/
def seek : Nat → Nat → List Char → Nat × List Char
  | pos, 0, cs => (pos, cs)
  | pos, _, [] => (pos, [])
  | pos, n, c :: cs => seek (pos + c.utf8Size) (n - c.utf8Size) cs

/-- The characters that start before byte `n`. -/
def takeBytes : Nat → List Char → List Char
  | 0, _ => []
  | _, [] => []
  | n, c :: cs => c :: takeBytes (n - c.utf8Size) cs

def startsWith (cs : List Char) (word : String) : Bool := word.toList.isPrefixOf cs

def endsWith (cs : List Char) (word : String) : Bool := word.toList.isSuffixOf cs

/-- What follows `word` at the start of the text. -/
def after? (word : String) (cs : List Char) : Option (List Char) :=
  if startsWith cs word then some (cs.drop word.length) else none

/-- ASCII letters in lower case, every other character as it is. -/
def lower (cs : List Char) : List Char := cs.map Char.toLower

end EndpointCensus.Text
