import WorkerPool.Batch
import WorkerPool.Failure
import WorkerPool.Monitor
import WorkerPool.Settings
import WorkerPool.Ticket
import WorkerPool.Text.Shape

/-! The commands that a caller can give, each carried out by a thread of its own, and the values
they come back with. Commands refer to objects by name; `α` is the type of the items of a channel.
-/

namespace WorkerPool

open Text (Style)

/-- One more than a number of 64 bits with a sign. The largest has no successor. -/
def successor (v : Int) : Except Payload Int :=
  if v < 9223372036854775807 then .ok (v + 1) else .error (.text "attempt to add with overflow")

/-- Conditions on a number. `take` and `bump` change it when they are applied: `take` waits for a
positive number and takes one off it, and `bump` adds one before it looks. `faulty` panics. -/
inductive Condition
  | less (n : Int)
  | greater (n : Int)
  | equal (n : Int)
  | different (n : Int)
  | always
  | never
  | take
  | bump (n : Int)
  | faulty
  deriving DecidableEq, Repr

namespace Condition

/-- Applies a condition: the number afterwards and whether the condition holds. -/
def judge : Condition → Int → Except Payload (Int × Bool)
  | .less n, v => .ok (v, v < n)
  | .greater n, v => .ok (v, n < v)
  | .equal n, v => .ok (v, v == n)
  | .different n, v => .ok (v, v != n)
  | .always, v => .ok (v, true)
  | .never, v => .ok (v, false)
  | .take, v => .ok (if v ≤ 0 then (v, true) else (v - 1, false))
  | .bump n, v => (successor v).map fun next => (next, next < n)
  | .faulty, _ => .error (.text "condition panicked")

end Condition

/-- What can be asked of a monitor. `poison` changes the number and panics under the lock. -/
inductive MonitorRequest
  | store (value : Int)
  | wait
  | waitWhile (condition : Condition)
  | signal
  | broadcast
  | terminate
  | terminateIf (condition : Condition)
  | poison

inductive ChannelRequest (α : Type)
  | send (item : α)
  | receive
  | drain
  | terminate
  | capacity

inductive LatchRequest
  | count (failed : Bool)
  | terminate
  | wait
  | describe (style : Style)

inductive JobRequest
  | followBy (next : JobText)
  | perform
  | describe (style : Style)

/-- What can be asked of a batch. A finale is set in place or, by a `builder`, on the way. -/
inductive BatchRequest
  | add (job : JobText)
  | addProgram (program : Program)
  | setFinale (job : JobText) (builder : Bool)
  | perform
  | describe (style : Style)

/-- When a caller gets the ticket for what it has submitted: while it still holds the pool, or once
it has let go of it. -/
inductive Handover
  | holding
  | released
  deriving DecidableEq, Repr

/-- What can be asked of a pool. A submission keeps its ticket under a name if one is given. -/
inductive PoolRequest
  | submit (job : JobText) (ticket : Option String) (handover : Handover)
  | submitBatch (batch : String) (ticket : Option String)
  | awaitIdle
  | shutDown
  | destroy
  | describe

/-- What can be asked of a ticket. Waiting uses it up; it may be done `via` a pool. -/
inductive TicketRequest
  | describe (style : Style)
  | isComplete
  | remaining
  | isBefore (other : String)
  | wait (via : Option String)

/-- Where the settings of a new pool come from. -/
inductive SettingsSource
  | named (name : String)
  | given (settings : Settings)

inductive Command (α : Type)
  | openGate (gate : String)
  | readCells
  | readStandards
  | newSettings (name : String) (settings : Settings) (style : Style)
  | compareSettings (left right : String)
  | newMonitor (name : String) (value : Int)
  | onMonitor (name : String) (request : MonitorRequest)
  | newChannel (name : String) (capacity : Nat)
  | onChannel (name : String) (request : ChannelRequest α)
  | newLatch (name : String) (count : Nat) (continuation : Option JobText)
  | aliasLatch (name other : String)
  | onLatch (name : String) (request : LatchRequest)
  | newJob (name : String) (job : JobText)
  | onJob (name : String) (request : JobRequest)
  | newBatch (name : String) (capacity : Nat) (waitable : Bool)
  | newFullBatch (name : String) (programs : List Program) (waitable : Bool)
  | copyBatch (name other : String)
  | onBatch (name : String) (request : BatchRequest)
  | newPool (name : String) (settings : SettingsSource)
  | onPool (name : String) (request : PoolRequest)
  | onTicket (name : String) (request : TicketRequest)
  | unknown (word : String)

/-- What a command comes back with when it succeeds. -/
inductive Value (α : Type)
  | nothing
  | flag (b : Bool)
  | count (n : Nat)
  | number (v : Int)
  | text (s : String)
  | waited (outcome : Monitor.Outcome) (value : Int)
  | received (item : Option α)
  | drained (items : List α)
  | memory (cells : List Int) (put : Int)
  | standards (capacity : Nat) (name : String)
  | settings (settings : Settings) (description : String)
  | job (job : Job) (description : String)
  | batch (batch : Batch) (description : String)
  | pool (name : String) (capacity threads : Nat)
  | submitted (ticket : Ticket)
  | ticket (ticket : Ticket) (description : String)

abbrev Answer (α : Type) := Except (Failure α) (Value α)

end WorkerPool
