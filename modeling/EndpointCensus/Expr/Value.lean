import EndpointCensus.Expr.Basic
import EndpointCensus.Text.Number

/-! Values of expressions: string literals, lists, dictionaries, names, numbers and truth values. -/

namespace EndpointCensus

def stringDelimiters : List (List Char) :=
  [['\x22', '\x22', '\x22'], ['\x27', '\x27', '\x27'], ['\x22'], ['\x27'], ['\x60']]

/-- The letters that may stand before a string literal. -/
def isStringMark (c : Char) : Bool := ['r', 'R', 'b', 'B', 'u', 'U', 'f', 'F'].contains c

/-- The text between the delimiters of a string literal with at most two letters before it. Text in
which the delimiter occurs again holds several literals, unless a backslash explains it. -/
def stringLiteral? (cs : List Char) : Option (List Char) :=
  let body := cs.drop ((cs.take 2).takeWhile isStringMark).length
  (stringDelimiters.find? (·.isPrefixOf body)).bind fun delimiter =>
    let n := delimiter.length
    let inner := (body.drop n).take (body.length - 2 * n)
    if body.length < 2 * n || !delimiter.isSuffixOf body then none
    else if Text.contains delimiter inner && !inner.contains '\\' then none
    else some inner

/-- The three digits after the first mention of a status constant. -/
def statusConstant? : List Char → Option (List Char)
  | [] => none
  | c :: cs =>
    let digits := ((Text.after? "HTTP_" (c :: cs)).getD []).take 3
    if digits.length == 3 && digits.all Text.isDecimal then some digits else statusConstant? cs

def closerOf? (c : Char) : Option Char :=
  if c == '[' then some ']' else if c == '(' then some ')' else if c == '{' then some '}' else none

namespace Expr

/-- The content of a single string literal, the letters before it dropped. -/
def stringValue? (e : Expr) : Option (List Char) := stringLiteral? e.text

/-- The items of a list, tuple or set; none if the expression is not one bracketed whole. -/
def items? (e : Expr) : Option (List Expr) :=
  let masked := e.masked
  match masked.head?.bind closerOf?, Text.findMatching masked 0 with
  | some closer, some stop =>
    if stop + 1 == e.width && Text.charAt? masked stop == some closer then
      some ((e.slices (Text.splitTopLevel ',' masked 1 stop)).filter (!·.isEmpty))
    else none
  | _, _ => none

/-- The string literals among the items of a list. -/
def stringItems (e : Expr) : List (List Char) := (e.items?.getD []).filterMap stringValue?

/-- The keys and values of a dictionary; items that are no pair are left out. -/
def dictItems? (e : Expr) : Option (List (Expr × Expr)) :=
  if e.masked.head? == some '{' then
    e.items?.map fun items => items.filterMap fun item =>
      match item.split ':' 0 item.width with
      | [key, value] => some (key, value)
      | _ => none
  else none

def namePath? (e : Expr) : Option (List Char) :=
  if Text.isDottedName e.text then some e.text else none

def intValue? (e : Expr) : Option Int := Text.integer? e.text

/-- An integer of 16 bits, or the code in a dotted name such as `status.HTTP_201_CREATED`. -/
def statusCode? (e : Expr) : Option Nat :=
  match e.intValue? with
  | some n => if 0 ≤ n ∧ n < 65536 then some n.toNat else none
  | none => (e.namePath?.bind statusConstant?).bind Text.digits?

def boolValue? (e : Expr) : Option Bool :=
  if e.text == "True".toList || e.text == "true".toList then some true
  else if e.text == "False".toList || e.text == "false".toList then some false
  else none

end Expr

end EndpointCensus
