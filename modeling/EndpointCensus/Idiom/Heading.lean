import EndpointCensus.Idiom.Emission

/-! Headings of statements: function and class declarations, assignments of calls, and what a stack
of decorators is written above. -/

namespace EndpointCensus

open Text

def httpVerbs : List String :=
  ["get", "post", "put", "patch", "delete", "head", "options", "trace"]

def isVerb (cs : List Char) : Bool := httpVerbs.contains (String.ofList cs)

def isOneOf (words : List String) (cs : List Char) : Bool := words.contains (String.ofList cs)

namespace Expr

/-- The byte offset at which the rest of the masked text begins. -/
def offsetOf (e : Expr) (rest : List Char) : Nat := e.width - Text.width rest

def between (e : Expr) (start stop : List Char) : List Char :=
  e.chars (e.offsetOf start) (e.offsetOf stop)

def isDecorator (e : Expr) : Bool := e.masked.head? == some '@'

end Expr

namespace Statement

def isDecorator (s : Statement) : Bool := (Expr.ofStatement s).isDecorator

def defName? (s : Statement) : Option (List Char) := do
  let e := Expr.ofStatement s
  let start ← afterWord? ["def"] ((afterWord? ["async"] e.masked).getD e.masked)
  let (_, rest) ← word? start
  if (trimStart rest).head? == some '(' then some (e.between start rest) else none

def className? (s : Statement) : Option (List Char) := do
  let e := Expr.ofStatement s
  let start ← afterWord? ["class"] e.masked
  let (_, rest) ← word? start
  match (trimStart rest).head? with
  | some c => if c == '(' || c == ':' then some (e.between start rest) else none
  | none => none

end Statement

structure Assignment where
  name : List Char
  callee : List Char
  args : Args
  deriving DecidableEq, Repr

namespace Assignment

/-- The text after the equals sign of an assignment, over a type annotation. The annotation has
letters, dots, brackets, commas and spaces. -/
def value? (cs : List Char) : Option (List Char) :=
  match trimStart cs with
  | '=' :: rest => some rest
  | ':' :: rest =>
    let isPart (c : Char) := isWord c || c == '.' || c == '[' || c == ']' || c == ',' || c == ' '
    let type := (trimStart rest).takeWhile isPart
    let spaced := (rest.takeWhile isBlank).getLast? == some ' '
    match (trimStart rest).dropWhile isPart with
    | '=' :: value => if type.isEmpty && !spaced then none else some value
    | _ => none
  | _ => none

/-- The callee of a call, the text from it and the text after its name; the word that asks for a new
object may stand before it. -/
def callee? (cs : List Char) : Option (List Char × List Char) :=
  let read? (cs : List Char) := (Expr.namedCall? cs).map fun r => (cs, cs.drop r.1.length)
  let start := trimStart cs
  ((afterWord? ["new"] start).bind read?).or (read? start)

/-- The rests of a masked text from the assigned name, after it, from the callee and after it. Words
of declaration before the name count as names themselves where nothing else fits. -/
def parts? (masked : List Char) : Option (List Char × List Char × List Char × List Char) :=
  let exported := (afterWord? ["export"] masked).toList ++ [masked]
  let starts := exported.flatMap fun cs =>
    (afterWord? ["const", "let", "var"] cs).toList ++ [cs]
  starts.findSome? fun start => do
    let (_, rest) ← identifier? start
    let (callee, after) ← (value? rest).bind callee?
    some (start, rest, callee, after)

end Assignment

namespace Expr

/-- The expression as the assignment of one call, with nothing after the call. -/
def assignment? (e : Expr) : Option Assignment := do
  let (start, rest, callee, after) ← Assignment.parts? e.masked
  let value := e.tail (e.offsetOf callee)
  let call ← value.callPrefix?
  if (value.tail call.args.stop).isEmpty then
    some ⟨e.between start rest, e.between callee after, call.args⟩
  else none

/-- A call or a bare dotted name, with the arguments of the call. -/
def callOrName? (e : Expr) : Option (List Char × Option Args) :=
  match e.call? with
  | some c => some (c.callee, some c.args)
  | none => e.namePath?.map fun name => (name, none)

end Expr

structure Decorated where
  name : List Char
  isClass : Bool
  deriving DecidableEq, Repr

/-- The declaration below the decorators of one indentation. -/
def decoratedBy? (indent : Nat) : List Statement → Option Decorated
  | [] => none
  | s :: rest =>
    if s.indent != indent then none
    else if s.isDecorator then decoratedBy? indent rest
    else match s.defName? with
      | some name => some ⟨name, false⟩
      | none => s.className?.map fun name => ⟨name, true⟩

def Context.decorated? (c : Context) : Option Decorated :=
  decoratedBy? c.statement.indent c.following

/-- Methods in a list of strings; unknown names are left out. -/
def methodsOf (e : Option Expr) : List Method :=
  match e with
  | some e => e.stringItems.filterMap Method.ofVerb?
  | none => []

/-- The methods of a list, a plain request when it names none. -/
def methodsOrGet (e : Option Expr) : List Method :=
  match methodsOf e with
  | [] => [.get]
  | methods => methods

/-- The content of a string literal, or the expression itself as text. -/
def pathOf (e : Option Expr) : List Char :=
  match e with
  | some e => e.stringValue?.getD e.text
  | none => []

/-- A router as an argument: a name, or the call of a function without arguments. -/
def Expr.childTarget? (e : Expr) : Option Target :=
  match e.namePath? with
  | some name => some (.name name)
  | none => e.call?.bind fun c => if c.args.items.isEmpty then some (.factory c.callee) else none

def stored (cs : List Char) : String := String.ofList cs

end EndpointCensus
