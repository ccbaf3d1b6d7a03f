import EndpointCensus.Cache
import EndpointCensus.Stored.Fields
import EndpointCensus.Text.Number

/-! Settings of an analysis, from texts such as those of environment variables or
from stored form. -/

namespace EndpointCensus

structure Settings where
  /-- The number of workers; none for as many as the machine has. -/
  workers : Option Nat := none
  flagAmbiguous : Bool := true
  /-- Entries a cache keeps; none are kept at zero. -/
  cacheCapacity : Nat := 4096
  deriving DecidableEq, Repr

namespace Settings

/-- The texts of settings, where they are given. -/
structure Texts where
  workers : Option String := none
  flagAmbiguous : Option String := none
  cache : Option String := none
  deriving DecidableEq, Repr

/-- The text is none of the words for no, in any case. -/
def isTruthy (s : String) : Bool :=
  let words := ["0", "false", "no", "off"]
  !words.contains (String.ofList (Text.lower (Text.trim s.toList)))

/-- A machine word, white space around it allowed. -/
def word? (s : String) : Option Nat := Text.natural? Text.maxWord (Text.trim s.toList)

/-- The settings that texts give. A cache that is neither a number nor switched off has the default
capacity. -/
def ofTexts (t : Texts) : Settings where
  workers := (t.workers.bind word?).filter (0 < ·)
  flagAmbiguous := (t.flagAmbiguous.map isTruthy).getD true
  cacheCapacity := match t.cache with
    | none => 4096
    | some s => (word? s).getD (if isTruthy s then 4096 else 0)

def field? {α : Type _} (decode : Json → Option α) (default : α) (field : Option Json) : Option α :=
  match field with
  | some v => decode v
  | none => some default

/-- The settings of a record whose fields may be missing; an array may end early. -/
def ofJson? (v : Json) : Option Settings := do
  let keys := ["workers", "flag_ambiguous_matches", "unit_cache_capacity"]
  let fields ← match v with
    | .arr items =>
      if items.length ≤ 3 then some (items.map some ++ List.replicate (3 - items.length) none)
      else none
    | _ => Stored.fields? keys v
  match fields with
  | [workers, flag, capacity] => some {
      workers := ← field? (fun v => (v.nat? Text.maxWord).map some) none workers
      flagAmbiguous := ← field? Json.bool? true flag
      cacheCapacity := ← field? (Json.nat? Text.maxWord) 4096 capacity }
  | _ => none

def cache (s : Settings) : Cache := .empty s.cacheCapacity

end Settings

end EndpointCensus
