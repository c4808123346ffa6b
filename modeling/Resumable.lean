import Resumable.Assembly
import Resumable.Body.Splice
import Resumable.Machine.Coroutine
import Resumable.Main
import Resumable.Proofs.Reverification
import Resumable.Proofs.Safety
import Resumable.Proofs.Passages
import Resumable.Proofs.RenamedExecution
import Resumable.Proofs.SnapshotRuns
import Resumable.Proofs.Codec
import Resumable.Proofs.LeastTyping
import Resumable.Proofs.AddedCode
import Resumable.Proofs.CallStack
import Resumable.Proofs.Calls
import Resumable.Proofs.Shadows
import Resumable.Proofs.StackDepth
import Resumable.Proofs.Starts
import Resumable.Proofs.Transparency
import Resumable.Proofs.Dispatch
import Resumable.Proofs.FrameRoundTrip
import Resumable.Proofs.InstrumentedUnits
import Resumable.Proofs.Replaying
import Resumable.Proofs.Suspensions
import Resumable.Proofs.Merging
import Resumable.Proofs.EndOfAnalysis
import Resumable.Proofs.AddedMethods
import Resumable.Proofs.LibraryCalls
import Resumable.Proofs.SuspendedChains
import Resumable.Proofs.UnseenSuspensions
import Resumable.Proofs.Truncation
import Resumable.Proofs.FrameShape
import Resumable.Proofs.ExactMetadata
import Resumable.Proofs.BytePositions
import Resumable.Proofs.Files
import Resumable.Proofs.CallLimits
import Resumable.Proofs.Traces
import Resumable.Proofs.Instances
import Resumable.Proofs.WholeNumbers
import Resumable.Proofs.Points
import Resumable.Proofs.GroupedNumbers
import Resumable.Proofs.Tallies
