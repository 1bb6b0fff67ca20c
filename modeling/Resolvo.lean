import Resolvo.Model.Solver
import Resolvo.Correctness.Conflict
import Resolvo.Correctness.EncoderVigilance
import Resolvo.Correctness.AtMostOnce
import Resolvo.Correctness.EncoderRuns
import Resolvo.Correctness.Decisions
import Resolvo.Correctness.Conditional
import Resolvo.Correctness.Conditions
import Resolvo.Correctness.Multiples
import Resolvo.Correctness.SyncFloor
import Resolvo.Correctness.WatchMap
import Resolvo.Correctness.ConflictGraph
import Resolvo.Correctness.SnapshotAgreement
import Resolvo.Correctness.Cache
import Resolvo.Correctness.HardSafety
import Resolvo.Correctness.Completeness
import Resolvo.Correctness.Soundness
import Resolvo.Correctness.Workload
import Resolvo.Correctness.Termination
import Resolvo.Correctness.Verdict
import Resolvo.Correctness.SoftRuns
import Resolvo.Correctness.Refutation
import Resolvo.Correctness.LockClauses
import Resolvo.Correctness.ConflictDrawing
import Resolvo.Correctness.ConflictReport
