import EndpointCensus.Text.Blank
import EndpointCensus.Text.Word

/-! Recognisers of identifiers and dotted names at the start of a text. Each answers what it read
and what is left. -/

namespace EndpointCensus.Text

/-- An ASCII letter, an underscore or a dollar sign. -/
def isNameStart (c : Char) : Bool := isAsciiLetter c || c == '_' || c == '$'

/-- A word character or a dollar sign. -/
def isNamePart (c : Char) : Bool := isWord c || c == '$'

def isOpener (c : Char) : Bool := c == '(' || c == '[' || c == '{'

def isCloser (c : Char) : Bool := c == ')' || c == ']' || c == '}'

/-- An identifier: a name start, then name parts. -/
def identifier? : List Char → Option (List Char × List Char)
  | [] => none
  | c :: cs =>
    if isNameStart c then some (c :: cs.takeWhile isNamePart, cs.dropWhile isNamePart) else none

def isWordStart (c : Char) : Bool := isAsciiLetter c || c == '_'

def word? : List Char → Option (List Char × List Char)
  | [] => none
  | c :: cs =>
    if isWordStart c then some (c :: cs.takeWhile isWord, cs.dropWhile isWord) else none

/-- Name parts and dots, as far as every dot stands before a name start. -/
def dottedTail : List Char → List Char × List Char
  | [] => ([], [])
  | c :: cs =>
    if isNamePart c || (c == '.' && cs.head?.any isNameStart) then
      let r := dottedTail cs
      (c :: r.1, r.2)
    else ([], c :: cs)

def dottedName? : List Char → Option (List Char × List Char)
  | [] => none
  | c :: cs =>
    if isNameStart c then
      let r := dottedTail cs
      some (c :: r.1, r.2)
    else none

def isDottedName (cs : List Char) : Bool :=
  match dottedName? cs with
  | some (_, []) => true
  | _ => false

/-- The text after at least one white space character and all that follow it. -/
def blanks? (cs : List Char) : Option (List Char) :=
  if cs.head?.any isBlank then some (trimStart cs) else none

/-- The text after one of the words and the white space that must follow it. -/
def afterWord? (words : List String) (cs : List Char) : Option (List Char) :=
  words.findSome? fun w => (after? w cs).bind blanks?

/-- The text after the character, white space before it allowed. -/
def afterMark? (mark : Char) (cs : List Char) : Option (List Char) :=
  match trimStart cs with
  | c :: rest => if c == mark then some rest else none
  | [] => none

/-- The text without the runs of a character at its start and of another at its end. -/
def stripRuns (first last : Char) (cs : List Char) : List Char :=
  dropEndWhile (· == last) (cs.dropWhile (· == first))

def splitOn (sep : Char) : List Char → List (List Char)
  | [] => [[]]
  | c :: cs =>
    if c == sep then [] :: splitOn sep cs
    else match splitOn sep cs with
      | [] => [[c]]
      | part :: parts => (c :: part) :: parts

/-- The text before and after the last occurrence of a character. -/
def splitLast? (sep : Char) : List Char → Option (List Char × List Char)
  | [] => none
  | c :: cs =>
    match splitLast? sep cs with
    | some (a, b) => some (c :: a, b)
    | none => if c == sep then some ([], cs) else none

/-- The text before and after the first occurrence of a character. -/
def splitFirst? (sep : Char) : List Char → Option (List Char × List Char)
  | [] => none
  | c :: cs =>
    if c == sep then some ([], cs)
    else (splitFirst? sep cs).map fun r => (c :: r.1, r.2)

def lastSegment (cs : List Char) : List Char :=
  match splitLast? '.' cs with
  | some (_, last) => last
  | none => cs

def firstSegment (cs : List Char) : List Char := cs.takeWhile (· != '.')

def before? (word : String) (cs : List Char) : Option (List Char) :=
  if endsWith cs word then some (cs.take (cs.length - word.length)) else none

def contains (word : List Char) : List Char → Bool
  | [] => word.isEmpty
  | c :: cs => word.isPrefixOf (c :: cs) || contains word cs

end EndpointCensus.Text
