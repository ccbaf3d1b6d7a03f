import EndpointCensus.Analysis
import EndpointCensus.Digest

/-! A cache of unit reports, and analysis that reads only the units that changed. An entry is used
while the digest of its text and the flag are the same; the entry unused for longest goes first. -/

namespace EndpointCensus

structure CacheEntry where
  identity : String
  digest : String
  flag : Bool
  report : UnitReport
  deriving DecidableEq, Repr

structure Cache where
  capacity : Nat
  /-- Entries from the one unused for longest to the latest, one for an identity. -/
  entries : List CacheEntry
  deriving DecidableEq, Repr

namespace Cache

def empty (capacity : Nat) : Cache := ⟨capacity, []⟩

def size (c : Cache) : Nat := c.entries.length

def without (c : Cache) (identity : String) : List CacheEntry :=
  c.entries.filter (·.identity != identity)

def fresh? (c : Cache) (u : SourceUnit) (digest : String) (flag : Bool) : Option CacheEntry :=
  (c.entries.find? (·.identity == u.identity)).filter fun e => e.digest == digest && e.flag == flag

/-- The report on a unit, if its entry is good, which becomes the latest. -/
def get (c : Cache) (u : SourceUnit) (digest : String) (flag : Bool) : Cache × Option UnitReport :=
  match c.fresh? u digest flag with
  | some e => ({ c with entries := c.without u.identity ++ [e] }, some e.report)
  | none => (c, none)

/-- Stores a report; entries beyond the capacity are dropped. -/
def insert (c : Cache) (u : SourceUnit) (digest : String) (flag : Bool) (report : UnitReport) :
    Cache :=
  if c.capacity == 0 then c
  else
    let entries := c.without u.identity ++ [⟨u.identity, digest, flag, report⟩]
    { c with entries := entries.drop (entries.length - c.capacity) }

/-- Drops the entries of identities that no unit has. -/
def retain (c : Cache) (units : List SourceUnit) : Cache :=
  { c with entries := c.entries.filter fun e => units.any (·.identity == e.identity) }

def clear (c : Cache) : Cache := { c with entries := [] }

def getAll (flag : Bool) : Cache → List SourceUnit → Cache × List (SourceUnit × Option UnitReport)
  | c, [] => (c, [])
  | c, u :: rest =>
    let (c, report?) := c.get u (Digest.ofText u.text) flag
    let (c, found) := getAll flag c rest
    (c, (u, report?) :: found)

/-- The units that no good entry was found for. -/
def stale (found : List (SourceUnit × Option UnitReport)) : List SourceUnit :=
  (found.filter fun p => p.2.isNone).map Prod.fst

/-- Completes the reports on the units, which takes the fresh ones one by one and stores them. A
unit that is left without one is read by itself. -/
def fill (flag : Bool) : Cache → List (SourceUnit × Option UnitReport) → List UnitReport →
    Cache × List UnitReport
  | c, [], _ => (c, [])
  | c, (_, some report) :: rest, fresh =>
    let (c, reports) := fill flag c rest fresh
    (c, report :: reports)
  | c, (u, none) :: rest, fresh =>
    let report := fresh.head?.getD (u.report flag)
    let (c, reports) := fill flag (c.insert u (Digest.ofText u.text) flag report) rest fresh.tail
    (c, report :: reports)

/-- When a run notices that it was cancelled. -/
structure Cancellation where
  /-- While it reads units. -/
  reading : Bool := false
  /-- After the last unit. -/
  closing : Bool := false
  deriving DecidableEq, Repr

/-- Analyzes a corpus, reading only units without a good entry. A run cancelled while it reads
leaves the cache as it was looked up, one cancelled later leaves it filled. -/
def analyzeUnder (c : Cache) (flag : Bool) (cancellation : Cancellation) (units : List SourceUnit) :
    Cache × Except Failure Analysis :=
  let (c, found) := getAll flag c units
  match Analysis.readUnits flag cancellation.reading (stale found) with
  | .error failure => (c, .error failure)
  | .ok fresh =>
    let (c, reports) := fill flag c found fresh
    let c := c.retain units
    (c, if cancellation.closing then .error .cancelled else Analysis.ofReports reports)

/-- Analyzes a corpus under a token that does not change during the run. -/
def analyze (c : Cache) (flag cancelled : Bool) (units : List SourceUnit) :
    Cache × Except Failure Analysis :=
  c.analyzeUnder flag ⟨cancelled, cancelled⟩ units

end Cache

end EndpointCensus
