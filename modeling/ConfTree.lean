import ConfTree.Json
import ConfTree.Main
import ConfTree.Path.Stack
import ConfTree.Proofs.Include.Cycles
import ConfTree.Proofs.Include.Distinct
import ConfTree.Proofs.Include.Modularity
import ConfTree.Proofs.Include.Screening
import ConfTree.Proofs.Parser.Limits
import ConfTree.Proofs.Parser.Termination
import ConfTree.Proofs.Writer.RoundTrip
import ConfTree.Proofs.Directive.Normal
import ConfTree.Proofs.Parser.SourceOrder
import ConfTree.Proofs.Parser.Blame
import ConfTree.Proofs.Lexer.LineEnds
import ConfTree.Proofs.Lexer.Lines
import ConfTree.Proofs.Lexer.Quotes
import ConfTree.Proofs.Parser.EntryPoints
import ConfTree.Proofs.Dump.RoundTrip
import ConfTree.Proofs.Json.RoundTrip
import ConfTree.Proofs.Path.Clean
import ConfTree.Proofs.Directive.Walk
import ConfTree.Proofs.Parser.Accounting
import ConfTree.Proofs.Include.Deep
