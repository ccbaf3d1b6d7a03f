import EndpointCensus.Analysis
import EndpointCensus.Cache
import EndpointCensus.Composition.Compose
import EndpointCensus.Composition.Frame
import EndpointCensus.Composition.Graph
import EndpointCensus.Composition.Member
import EndpointCensus.Composition.Walk
import EndpointCensus.Diagnostic
import EndpointCensus.Digest
import EndpointCensus.Endpoint
import EndpointCensus.Expr.Basic
import EndpointCensus.Expr.Value
import EndpointCensus.Graph
import EndpointCensus.Idiom.Basic
import EndpointCensus.Idiom.ClassView
import EndpointCensus.Idiom.Controller
import EndpointCensus.Idiom.Decorator
import EndpointCensus.Idiom.Emission
import EndpointCensus.Idiom.Heading
import EndpointCensus.Idiom.Match
import EndpointCensus.Idiom.MemberCall
import EndpointCensus.Idiom.Resource
import EndpointCensus.Idiom.UrlTable
import EndpointCensus.Import.Scan
import EndpointCensus.Import.Table
import EndpointCensus.Inventory
import EndpointCensus.Json.Basic
import EndpointCensus.Json.Numeral
import EndpointCensus.Json.Parser
import EndpointCensus.Json.Printer
import EndpointCensus.Language
import EndpointCensus.Line.Basic
import EndpointCensus.Line.Scan
import EndpointCensus.Metadata
import EndpointCensus.Method
import EndpointCensus.Path.Join
import EndpointCensus.Path.ModuleName
import EndpointCensus.Path.Pattern
import EndpointCensus.Proofs.Cache.History
import EndpointCensus.Proofs.Cache.Recency
import EndpointCensus.Proofs.Cache.Replay
import EndpointCensus.Proofs.Composition.Assignment
import EndpointCensus.Proofs.Composition.Batches
import EndpointCensus.Proofs.Composition.Canonical
import EndpointCensus.Proofs.Composition.Coverage
import EndpointCensus.Proofs.Composition.Findings
import EndpointCensus.Proofs.Composition.Gathering
import EndpointCensus.Proofs.Composition.Inclusion
import EndpointCensus.Proofs.Composition.Inheritance
import EndpointCensus.Proofs.Composition.Lineage
import EndpointCensus.Proofs.Composition.Merging
import EndpointCensus.Proofs.Composition.Params
import EndpointCensus.Proofs.Composition.Settlement
import EndpointCensus.Proofs.Composition.StandIns
import EndpointCensus.Proofs.Composition.TableInclusion
import EndpointCensus.Proofs.Composition.Usage
import EndpointCensus.Proofs.Composition.ViewBinding
import EndpointCensus.Proofs.Expr.Argument
import EndpointCensus.Proofs.Expr.Behind
import EndpointCensus.Proofs.Expr.Keyword
import EndpointCensus.Proofs.Expr.Part
import EndpointCensus.Proofs.Expr.Printing
import EndpointCensus.Proofs.Expr.Slicing
import EndpointCensus.Proofs.Expr.Span
import EndpointCensus.Proofs.Expr.StringLiteral
import EndpointCensus.Proofs.Idiom.Agreement
import EndpointCensus.Proofs.Idiom.DecoratorOrder
import EndpointCensus.Proofs.Idiom.Following
import EndpointCensus.Proofs.Idiom.FunctionView
import EndpointCensus.Proofs.Idiom.Layout
import EndpointCensus.Proofs.Idiom.MemberDecorator
import EndpointCensus.Proofs.Idiom.Opening
import EndpointCensus.Proofs.Idiom.Quoted
import EndpointCensus.Proofs.Idiom.Registration
import EndpointCensus.Proofs.Idiom.Relocation
import EndpointCensus.Proofs.Idiom.RouteArguments
import EndpointCensus.Proofs.Idiom.RouteDecorator
import EndpointCensus.Proofs.Idiom.RouteMark
import EndpointCensus.Proofs.Idiom.TableEntries
import EndpointCensus.Proofs.Idiom.TableRow
import EndpointCensus.Proofs.Idiom.TypeArguments
import EndpointCensus.Proofs.Idiom.UrlTable
import EndpointCensus.Proofs.Idiom.VerbAlias
import EndpointCensus.Proofs.Import.Denotation
import EndpointCensus.Proofs.Import.Grammar
import EndpointCensus.Proofs.Import.Script
import EndpointCensus.Proofs.Import.Specifier
import EndpointCensus.Proofs.Inventory.Order
import EndpointCensus.Proofs.Inventory.Routes
import EndpointCensus.Proofs.Inventory.Sifting
import EndpointCensus.Proofs.Line.Break
import EndpointCensus.Proofs.Line.Classification
import EndpointCensus.Proofs.Line.Closed
import EndpointCensus.Proofs.Line.Comment
import EndpointCensus.Proofs.Line.Concatenation
import EndpointCensus.Proofs.Line.Delimiter
import EndpointCensus.Proofs.Line.Literal
import EndpointCensus.Proofs.Line.Octets
import EndpointCensus.Proofs.Line.Partition
import EndpointCensus.Proofs.Line.Position
import EndpointCensus.Proofs.Line.TripleQuoted
import EndpointCensus.Proofs.Line.Unterminated
import EndpointCensus.Proofs.Metadata
import EndpointCensus.Proofs.Node
import EndpointCensus.Proofs.Path.Colon
import EndpointCensus.Proofs.Path.Join
import EndpointCensus.Proofs.Path.ModuleName
import EndpointCensus.Proofs.Path.Normal
import EndpointCensus.Proofs.Path.Placeholder
import EndpointCensus.Proofs.Path.PythonFile
import EndpointCensus.Proofs.Path.Slash
import EndpointCensus.Proofs.Path.Written
import EndpointCensus.Proofs.Statement.Alike
import EndpointCensus.Proofs.Statement.Balanced
import EndpointCensus.Proofs.Statement.Below
import EndpointCensus.Proofs.Statement.Clean
import EndpointCensus.Proofs.Statement.Concatenation
import EndpointCensus.Proofs.Statement.Entry
import EndpointCensus.Proofs.Statement.Extent
import EndpointCensus.Proofs.Statement.Interior
import EndpointCensus.Proofs.Statement.Invariant
import EndpointCensus.Proofs.Statement.Literal
import EndpointCensus.Proofs.Statement.Lockstep
import EndpointCensus.Proofs.Statement.Masking
import EndpointCensus.Proofs.Statement.Origin
import EndpointCensus.Proofs.Statement.Parted
import EndpointCensus.Proofs.Statement.Pending
import EndpointCensus.Proofs.Statement.Pieces
import EndpointCensus.Proofs.Statement.Quoted
import EndpointCensus.Proofs.Statement.Reading
import EndpointCensus.Proofs.Statement.Reworded
import EndpointCensus.Proofs.Statement.Row
import EndpointCensus.Proofs.Statement.Seam
import EndpointCensus.Proofs.Statement.Spelling
import EndpointCensus.Proofs.Statement.Substance
import EndpointCensus.Proofs.Statement.Token
import EndpointCensus.Proofs.Statement.Tracing
import EndpointCensus.Proofs.Statement.Veil
import EndpointCensus.Proofs.Statement.WellFormed
import EndpointCensus.Proofs.Stored.Fields
import EndpointCensus.Proofs.Stored.RoundTrip
import EndpointCensus.Proofs.Text.Balance
import EndpointCensus.Proofs.Text.Behind
import EndpointCensus.Proofs.Text.Matching
import EndpointCensus.Proofs.Text.Nesting
import EndpointCensus.Proofs.Text.Octet
import EndpointCensus.Proofs.Text.Place
import EndpointCensus.Proofs.Text.Splitting
import EndpointCensus.Proofs.Text.Word
import EndpointCensus.Proofs.Unit.Attachment
import EndpointCensus.Proofs.Unit.Classes
import EndpointCensus.Proofs.Unit.DeadText
import EndpointCensus.Proofs.Unit.DecoratorStack
import EndpointCensus.Proofs.Unit.Enclosure
import EndpointCensus.Proofs.Unit.Front
import EndpointCensus.Proofs.Unit.Imports
import EndpointCensus.Proofs.Unit.Intact
import EndpointCensus.Proofs.Unit.Lowering
import EndpointCensus.Proofs.Unit.Offside
import EndpointCensus.Proofs.Unit.Reference
import EndpointCensus.Proofs.Unit.Sightings
import EndpointCensus.Proofs.Unit.TableInclusion
import EndpointCensus.Settings
import EndpointCensus.Source
import EndpointCensus.Statement.Assembly
import EndpointCensus.Statement.Basic
import EndpointCensus.Statement.Draft
import EndpointCensus.Stored.Fields
import EndpointCensus.Stored.Records
import EndpointCensus.Text.Blank
import EndpointCensus.Text.Bracket
import EndpointCensus.Text.Name
import EndpointCensus.Text.Number
import EndpointCensus.Text.Word
import EndpointCensus.Unit.Lowering
import EndpointCensus.Unit.Report
import EndpointCensus.Unit.Scope
