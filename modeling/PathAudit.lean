import PathAudit.Cases.Run
import PathAudit.Checker.Host
import PathAudit.Main
import PathAudit.Proofs.Syntax.Extent
import PathAudit.Proofs.Syntax.Outline
import PathAudit.Proofs.Syntax.Grammar
import PathAudit.Proofs.Token.Pattern
import PathAudit.Proofs.Token.Delimited
import PathAudit.Proofs.Token.Number
import PathAudit.Proofs.Token.LongestMatch
import PathAudit.Proofs.Token.Cutting
import PathAudit.Proofs.Token.Pieces
import PathAudit.Proofs.Token.Scan
import PathAudit.Proofs.Agreement
import PathAudit.Proofs.Syntax.Print
import PathAudit.Proofs.Syntax.ReadType
import PathAudit.Proofs.Syntax.ReadOutline
import PathAudit.Proofs.Token.Quoting
import PathAudit.Proofs.Token.Written
import PathAudit.Proofs.Syntax.RoundTrip
import PathAudit.Proofs.Containment
import PathAudit.Proofs.RootOnDemand
import PathAudit.Proofs.Sources.History
import PathAudit.Proofs.Service.Session
import PathAudit.Proofs.CommandLine.Coverage
import PathAudit.Proofs.Location.Walk
import PathAudit.Proofs.Location.Folding
import PathAudit.Proofs.Text.Place
import PathAudit.Proofs.Token.Standing
import PathAudit.Proofs.Token.BodyPart
import PathAudit.Proofs.Syntax.Literals
import PathAudit.Proofs.Service.Places
import PathAudit.Proofs.Syntax.Declarators
import PathAudit.Proofs.Syntax.Barrier
import PathAudit.Proofs.Disk.Located
import PathAudit.Proofs.Disk.Relative
import PathAudit.Proofs.Location.Chain
import PathAudit.Proofs.Location.Way
import PathAudit.Proofs.ProjectRoot
import PathAudit.Proofs.Config.File
import PathAudit.Proofs.CommandLine.Report
import PathAudit.Proofs.CommandLine.Lines
import PathAudit.Proofs.Checker.Settings
import PathAudit.Proofs.Checker.RelativeRoot
import PathAudit.Proofs.Token.LineEnd
import PathAudit.Proofs.Syntax.TypeGrammar
import PathAudit.Proofs.Syntax.TypeReaders
import PathAudit.Proofs.Syntax.Marker
import PathAudit.Proofs.Syntax.Blocks
import PathAudit.Proofs.Text.Split
import PathAudit.Proofs.Text.LineColumn
import PathAudit.Proofs.Token.Collects
import PathAudit.Proofs.Token.Escapes
import PathAudit.Proofs.Token.Payload
import PathAudit.Proofs.Token.Literal
import PathAudit.Proofs.Token.Returns
import PathAudit.Proofs.Syntax.Bare
import PathAudit.Proofs.LineEnds
import PathAudit.Proofs.Syntax.Leaves
import PathAudit.Proofs.Syntax.Spans
import PathAudit.Proofs.CommandLine.Failure
import PathAudit.Proofs.Service.Together
import PathAudit.Proofs.Json.Members
import PathAudit.Proofs.Config.Host
import PathAudit.Proofs.Json.Diagnostic
import PathAudit.Proofs.Cases.Written
