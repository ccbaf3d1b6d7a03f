import EndpointCensus.Statement.Assembly
import EndpointCensus.Unit.Lowering

/-! The report on one unit: what it declares, and what was wrong with it. -/

namespace EndpointCensus

def Unclosed.issue : Unclosed → Issue
  | literal => .unterminatedLiteral
  | comment => .unterminatedComment

namespace SourceUnit

def textFindings (u : SourceUnit) (lines : LineTable) (statements : StatementTable) :
    List Diagnostic :=
  lines.unterminated.toList.map (fun (line, what) => ⟨⟨u.identity, line⟩, what.issue⟩) ++
    statements.unclosed.toList.map fun line => ⟨⟨u.identity, line⟩, .unterminatedConstruct⟩

/-- Reads a unit. Statements that several idioms match are reported if `flag` is set. -/
def report (u : SourceUnit) (flag : Bool) : UnitReport :=
  let lines := classify u.language u.text.toList
  let statements := lines.assemble u.language
  let reading := Reading.readAll u flag { imports := .empty u.identity.toList u.language }
    statements.statements
  let start : Lowering := {
    identity := u.identity, module := u.moduleName, imports := reading.imports }
  let (lowered, fragments) := start.lower reading.sightings
  { identity := u.identity, fragments, nodes := lowered.nodes
    diagnostics := u.textFindings lines statements ++ reading.diagnostics }

end SourceUnit

end EndpointCensus
