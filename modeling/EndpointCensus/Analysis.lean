import EndpointCensus.Composition.Compose
import EndpointCensus.Inventory
import EndpointCensus.Unit.Report

/-! The analysis of a corpus: reports on its units, composed into one inventory. -/

namespace EndpointCensus

structure Analysis where
  inventory : Inventory
  diagnostics : List Diagnostic
  deriving DecidableEq, Repr

namespace Analysis

/-- The analysis of fragments and nodes. Findings come in the order of their locations. -/
def ofParts (fragments : List Fragment) (nodes : List Node) : Except Failure Analysis := do
  let composed := Composition.ofParts fragments nodes
  let (inventory, diagnostics) ← Inventory.build composed.endpoints composed.diagnostics
  return ⟨inventory, Diagnostic.sort diagnostics⟩

/-- The analysis of units that have been read, with what was found in them. -/
def ofReports (reports : List UnitReport) : Except Failure Analysis := do
  let a ← ofParts (reports.flatMap UnitReport.fragments) (reports.flatMap UnitReport.nodes)
  return { a with
    diagnostics := Diagnostic.sort (a.diagnostics ++ reports.flatMap UnitReport.diagnostics) }

/-- Reads units; a run that is cancelled fails, unless there is nothing to read. -/
def readUnits (flag cancelled : Bool) (units : List SourceUnit) :
    Except Failure (List UnitReport) :=
  if cancelled && !units.isEmpty then .error .cancelled else .ok (units.map (·.report flag))

/-- Analyzes a corpus. -/
def ofUnits (flag cancelled : Bool) (units : List SourceUnit) : Except Failure Analysis := do
  ofReports (← readUnits flag cancelled units)

end Analysis

end EndpointCensus
