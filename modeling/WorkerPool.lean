import WorkerPool.Scenario
import WorkerPool.Proofs.Accounts
import WorkerPool.Proofs.Act
import WorkerPool.Proofs.Actions
import WorkerPool.Proofs.Attendance
import WorkerPool.Proofs.Backpressure
import WorkerPool.Proofs.Balance
import WorkerPool.Proofs.Batches
import WorkerPool.Proofs.Blame
import WorkerPool.Proofs.Bystanders
import WorkerPool.Proofs.Callers
import WorkerPool.Proofs.Calls
import WorkerPool.Proofs.Cells
import WorkerPool.Proofs.Channels
import WorkerPool.Proofs.Charges
import WorkerPool.Proofs.Checks
import WorkerPool.Proofs.Completions
import WorkerPool.Proofs.Concord
import WorkerPool.Proofs.Containment
import WorkerPool.Proofs.Course
import WorkerPool.Proofs.Crew
import WorkerPool.Proofs.Crowd
import WorkerPool.Proofs.Decision
import WorkerPool.Proofs.Deed
import WorkerPool.Proofs.DeedComplete
import WorkerPool.Proofs.Destruction
import WorkerPool.Proofs.Dismissal
import WorkerPool.Proofs.Dispatch
import WorkerPool.Proofs.Dues
import WorkerPool.Proofs.Duties
import WorkerPool.Proofs.Enactment
import WorkerPool.Proofs.Entries
import WorkerPool.Proofs.Fate
import WorkerPool.Proofs.Filling
import WorkerPool.Proofs.Finale
import WorkerPool.Proofs.Flags
import WorkerPool.Proofs.Freezing
import WorkerPool.Proofs.Idle
import WorkerPool.Proofs.Ids
import WorkerPool.Proofs.InPlace
import WorkerPool.Proofs.Inert
import WorkerPool.Proofs.Intake
import WorkerPool.Proofs.Interleaving
import WorkerPool.Proofs.Later
import WorkerPool.Proofs.Load
import WorkerPool.Proofs.Lookup
import WorkerPool.Proofs.Making
import WorkerPool.Proofs.Members
import WorkerPool.Proofs.Moments
import WorkerPool.Proofs.Monitors
import WorkerPool.Proofs.Naming
import WorkerPool.Proofs.Numbering
import WorkerPool.Proofs.Outcome
import WorkerPool.Proofs.Parallel
import WorkerPool.Proofs.Passage
import WorkerPool.Proofs.Performance
import WorkerPool.Proofs.Precedence
import WorkerPool.Proofs.Provenance
import WorkerPool.Proofs.Quiescence
import WorkerPool.Proofs.Reference
import WorkerPool.Proofs.Refusal
import WorkerPool.Proofs.Rejected
import WorkerPool.Proofs.RingOrder
import WorkerPool.Proofs.RingRefinement
import WorkerPool.Proofs.Roster
import WorkerPool.Proofs.Rounds
import WorkerPool.Proofs.Run
import WorkerPool.Proofs.Sections
import WorkerPool.Proofs.Serial
import WorkerPool.Proofs.Settled
import WorkerPool.Proofs.Shutdown
import WorkerPool.Proofs.Sleepers
import WorkerPool.Proofs.Stack
import WorkerPool.Proofs.Staff
import WorkerPool.Proofs.Standing
import WorkerPool.Proofs.Stretch
import WorkerPool.Proofs.Submitted
import WorkerPool.Proofs.Succession
import WorkerPool.Proofs.Tally
import WorkerPool.Proofs.Tickets
import WorkerPool.Proofs.Urgency
import WorkerPool.Proofs.Vacancy
import WorkerPool.Proofs.Verdict
import WorkerPool.Proofs.Waiters
import WorkerPool.Proofs.Wakeups
