import Scriptlet.Session
import Scriptlet.Main
import Scriptlet.Proofs.Token.Tiling
import Scriptlet.Proofs.Grammar.FirstError
import Scriptlet.Proofs.Syntax.RoundTrip
import Scriptlet.Proofs.Typing.Sound
import Scriptlet.Proofs.Machine.CallDepth
import Scriptlet.Proofs.Machine.Discipline
import Scriptlet.Proofs.Machine.Isolation
import Scriptlet.Proofs.Machine.Soundness
import Scriptlet.Proofs.Machine.Termination
import Scriptlet.Proofs.Scoping.Rules
import Scriptlet.Proofs.Scoping.State
import Scriptlet.Proofs.Scoping.Run
import Scriptlet.Proofs.Machine.Reachable
import Scriptlet.Proofs.CommandLine.Output
import Scriptlet.Proofs.Grammar.Offsets
import Scriptlet.Proofs.Grammar.Layout
import Scriptlet.Proofs.Syntax.ReadBack
import Scriptlet.Proofs.Token.Boundary
import Scriptlet.Proofs.Grammar.Cursor
import Scriptlet.Proofs.Grammar.Descent
import Scriptlet.Proofs.Grammar.Termination
import Scriptlet.Proofs.Machine.Visibility
import Scriptlet.Proofs.Machine.Transparency
import Scriptlet.Proofs.Machine.Stepping
import Scriptlet.Proofs.Machine.Environment
import Scriptlet.Proofs.Machine.FunctionTable
import Scriptlet.Proofs.Machine.EntryScope
import Scriptlet.Proofs.Value.Arithmetic
import Scriptlet.Proofs.Value.Comparison
