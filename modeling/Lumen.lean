import Lumen.Main
import Lumen.Native.Workbench
import Lumen.Proofs.SideBySide
import Lumen.Proofs.Symbol.Scan
import Lumen.Proofs.Token.Lexeme
import Lumen.Proofs.Token.Race
import Lumen.Proofs.Token.Recognition
import Lumen.Proofs.Token.MaximalMunch
import Lumen.Proofs.Token.Lines
import Lumen.Proofs.Token.Layout
import Lumen.Proofs.Parser.Phrase
import Lumen.Proofs.Parser.Soundness
import Lumen.Proofs.Parser.Lookahead
import Lumen.Proofs.Parser.Batch
import Lumen.Proofs.Parser.Reads
import Lumen.Proofs.Parser.Completeness
import Lumen.Proofs.Syntax.Render
import Lumen.Proofs.Syntax.Alike
import Lumen.Proofs.Parser.OpenEnds
import Lumen.Proofs.Parser.RoundTrip
import Lumen.Proofs.Parser.Context
import Lumen.Proofs.Parser.Alike
import Lumen.Proofs.Parser.Places
import Lumen.Proofs.Eval.Trace
import Lumen.Proofs.Eval.Lockstep
import Lumen.Proofs.Eval.Stack
import Lumen.Proofs.Eval.Termination
import Lumen.Proofs.Eval.Limits
import Lumen.Proofs.Eval.Pairing
import Lumen.Proofs.Eval.Simulation
import Lumen.Proofs.Eval.Scoping
import Lumen.Proofs.Eval.Reach
import Lumen.Proofs.Eval.Formatting
import Lumen.Proofs.Eval.History
import Lumen.Proofs.Eval.Policy
import Lumen.Proofs.Eval.Conduct
import Lumen.Proofs.Eval.Breaks
import Lumen.Proofs.Eval.Blame
import Lumen.Proofs.Token.Concatenation
import Lumen.Proofs.Parser.Locality
import Lumen.Proofs.Parser.Concatenation
import Lumen.Proofs.Files.Paths
import Lumen.Proofs.Script.Walk
import Lumen.Proofs.Script.Loading
import Lumen.Proofs.Command.Directory
import Lumen.Proofs.Eval.Reentry
import Lumen.Proofs.Parser.Nesting
import Lumen.Proofs.Store.Owner
import Lumen.Proofs.Eval.Iterations
import Lumen.Proofs.Eval.Lasting
import Lumen.Proofs.Eval.Declarations
import Lumen.Proofs.Eval.Seals
import Lumen.Proofs.Eval.Confinement
import Lumen.Proofs.Eval.Seclusion
import Lumen.Proofs.Parser.Levels
import Lumen.Proofs.Token.Buffer
import Lumen.Proofs.Token.Progress
import Lumen.Proofs.Parser.Recorded
import Lumen.Proofs.Parser.Mirrors
import Lumen.Proofs.Parser.Resumption
import Lumen.Proofs.Symbol.Reader
import Lumen.Proofs.Value.Comparison
import Lumen.Proofs.Parser.Header
import Lumen.Proofs.Token.Digits
import Lumen.Proofs.Store.Search
import Lumen.Proofs.Eval.Held
import Lumen.Proofs.Eval.Sound
import Lumen.Proofs.Eval.Heap
import Lumen.Proofs.Eval.WellFormed
