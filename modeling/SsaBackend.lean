import SsaBackend.Builder
import SsaBackend.Compile
import SsaBackend.Func.Print
import SsaBackend.Proofs.Alloc.Sound
import SsaBackend.Proofs.Alloc.Bookkeeping
import SsaBackend.Proofs.Alloc.Checking
import SsaBackend.Proofs.Alloc.Coloring
import SsaBackend.Proofs.Alloc.Degrees
import SsaBackend.Proofs.Alloc.Removals
import SsaBackend.Proofs.Alloc.SlotSets
import SsaBackend.Proofs.Alloc.Success
import SsaBackend.Proofs.Build.Calls
import SsaBackend.Proofs.Build.Refused
import SsaBackend.Proofs.Build.Returning
import SsaBackend.Proofs.Build.Sealed
import SsaBackend.Proofs.Build.Sound
import SsaBackend.Proofs.Build.Usable
import SsaBackend.Proofs.Build.Invariant
import SsaBackend.Proofs.Checked.Accepted
import SsaBackend.Proofs.Checked.LeastSolution
import SsaBackend.Proofs.Compile
import SsaBackend.Proofs.FiniteSets
import SsaBackend.Proofs.Func.PredRemoval
import SsaBackend.Proofs.Graph.Traversal
import SsaBackend.Proofs.Hoist.Complete
import SsaBackend.Proofs.Hoist.Sound
import SsaBackend.Proofs.Live.Exact
import SsaBackend.Proofs.Loop.Nesting
import SsaBackend.Proofs.Pass.Arena
import SsaBackend.Proofs.Pass.Arithmetic
import SsaBackend.Proofs.Pass.Fixpoint
import SsaBackend.Proofs.Pass.Fresh
import SsaBackend.Proofs.Pass.Meaning
import SsaBackend.Proofs.Pass.Repeated
import SsaBackend.Proofs.Preheader.Correct
import SsaBackend.Proofs.Preheader.Standing
