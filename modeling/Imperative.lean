import Imperative.Main
import Imperative.Session
import Imperative.Proofs.Progress
import Imperative.Proofs.Growth
import Imperative.Proofs.Annotations
import Imperative.Proofs.Liveness
import Imperative.Proofs.Containment
import Imperative.Proofs.Evolution
import Imperative.Proofs.Unwinding
import Imperative.Proofs.Normal
import Imperative.Proofs.Normalization
import Imperative.Proofs.Endings
import Imperative.Proofs.Moments
import Imperative.Proofs.Refinement
import Imperative.Proofs.Termination
import Imperative.Proofs.Accounting
import Imperative.Proofs.LooserLimits
import Imperative.Proofs.Moments.Failing
import Imperative.Proofs.InternalFaults
import Imperative.Proofs.Moments.Raising
import Imperative.Proofs.CallDepth
import Imperative.Proofs.Visibility
import Imperative.Proofs.Immutability
import Imperative.Proofs.Sharing
import Imperative.Proofs.Workload
import Imperative.Proofs.Modification
import Imperative.Proofs.Ranges
import Imperative.Proofs.Bookkeeping
import Imperative.Proofs.Unrolling
import Imperative.Proofs.Crossing
import Imperative.Proofs.Equality
import Imperative.Proofs.Contents
import Imperative.Proofs.Refusals
import Imperative.Proofs.Rethrowing
import Imperative.Proofs.Wrapping
import Imperative.Proofs.Resolution
import Imperative.Proofs.Moments.Course
import Imperative.Proofs.LateBinding
import Imperative.Proofs.Frugality
import Imperative.Proofs.Allocation
import Imperative.Proofs.Joining
import Imperative.Proofs.Piecemeal
import Imperative.Proofs.Reports
import Imperative.Proofs.Snapshots
