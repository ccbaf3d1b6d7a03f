import EndpointCensus.Json.Basic
import EndpointCensus.Text.Number

/-! JSON text, on one line and indented. Where a value cannot be held, the text has null. -/

namespace EndpointCensus.Json

/-- A character inside quotes: quotes, backslashes and control characters are escaped. -/
def escape (c : Char) : List Char :=
  if c == '\x22' then ['\\', '\x22']
  else if c == '\\' then ['\\', '\\']
  else if c == '\x08' then ['\\', 'b']
  else if c == '\x0c' then ['\\', 'f']
  else if c == '\n' then ['\\', 'n']
  else if c == '\r' then ['\\', 'r']
  else if c == '\t' then ['\\', 't']
  else if c.toNat < 0x20 then
    ['\\', 'u', '0', '0', Text.hexDigit (c.toNat / 16), Text.hexDigit (c.toNat % 16)]
  else [c]

def quoted (s : String) : String :=
  String.ofList ('\x22' :: s.toList.flatMap escape ++ ['\x22'])

mutual

/-- The text of a value without any white space. -/
def compact : Json → String
  | null | unreadable => "null"
  | bool b => if b then "true" else "false"
  | int n => toString n
  | decimal text => text
  | str s => quoted s
  | arr items => "[" ++ ",".intercalate (compactItems items) ++ "]"
  | obj members => "\x7b" ++ ",".intercalate (compactMembers members) ++ "\x7d"

def compactItems : List Json → List String
  | [] => []
  | v :: rest => compact v :: compactItems rest

def compactMembers : List (String × Json) → List String
  | [] => []
  | (key, v) :: rest => (quoted key ++ ":" ++ compact v) :: compactMembers rest

end

def margin (level : Nat) : String := String.ofList (List.replicate (2 * level) ' ')

/-- Entries on lines of their own between brackets; the brackets alone when there are none. -/
def block (opener closer : String) (level : Nat) (entries : List String) : String :=
  if entries.isEmpty then opener ++ closer
  else
    let lines := entries.map fun e => "\n" ++ margin (level + 1) ++ e
    opener ++ ",".intercalate lines ++ "\n" ++ margin level ++ closer

mutual

/-- The text of a value with one entry a line, at a level of nesting. -/
def indented (level : Nat) : Json → String
  | null | unreadable => "null"
  | bool b => if b then "true" else "false"
  | int n => toString n
  | decimal text => text
  | str s => quoted s
  | arr items => block "[" "]" level (indentedItems (level + 1) items)
  | obj members => block "\x7b" "\x7d" level (indentedMembers (level + 1) members)

def indentedItems (level : Nat) : List Json → List String
  | [] => []
  | v :: rest => indented level v :: indentedItems level rest

def indentedMembers (level : Nat) : List (String × Json) → List String
  | [] => []
  | (key, v) :: rest =>
    (quoted key ++ ": " ++ indented level v) :: indentedMembers level rest

end

def pretty (v : Json) : String := indented 0 v

end EndpointCensus.Json
