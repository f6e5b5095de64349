import Lox.Plan.Run
import Lox.Number.Text
import Lox.Number.Remainder
import Lox.Number.Numeral
import Lox.Token.Scan
import Lox.Syntax.Form
import Lox.Syntax.Error
import Lox.Syntax.Program
import Lox.Scope.Resolve
import Lox.Scope.Mention
import Lox.Heap.Chain
import Lox.Heap.Property
import Lox.Heap.Collect
import Lox.Main
import Lox.Proofs.Token.Longest
import Lox.Proofs.Syntax.Written
import Lox.Proofs.Syntax.Soundness
import Lox.Proofs.Syntax.Completeness
import Lox.Proofs.Plan.Lockstep
import Lox.Proofs.Syntax.Confined
import Lox.Proofs.Syntax.Recovery
import Lox.Proofs.Ideal.Rules
import Lox.Proofs.Scope.Prepare
import Lox.Proofs.Scope.Lexical
import Lox.Proofs.Scope.Violations
import Lox.Proofs.Scope.Order
import Lox.Proofs.Ideal.Reachable
import Lox.Proofs.Ideal.Start
import Lox.Proofs.Session.Safety
import Lox.Proofs.Heap.Exact
import Lox.Proofs.Session.Scoping
import Lox.Proofs.Session.Rest
import Lox.Proofs.Session.CallLimit
import Lox.Proofs.Session.FullSink
import Lox.Proofs.Session.Loopless
import Lox.Proofs.Session.Joined
import Lox.Proofs.Session.Renamed
import Lox.Proofs.Session.Construction
import Lox.Proofs.Syntax.Composed
import Lox.Proofs.Evaluation.Caller
import Lox.Proofs.Session.ForLoop
import Lox.Proofs.Heap.Chain
import Lox.Proofs.Token.Rendered
import Lox.Proofs.Syntax.Shown
import Lox.Proofs.Session.Growth
import Lox.Proofs.Heap.Property
import Lox.Proofs.Scope.Repeated
import Lox.Proofs.Session.Diagnostics
import Lox.Proofs.Session.Arguments
