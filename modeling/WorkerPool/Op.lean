import WorkerPool.Command
import WorkerPool.History

/-! What a thread still has to do, as a list of operations, the next one first. An operation takes
one or more turns; each turn reads or changes the shared objects in one step and then leaves
something else to do in its place. A function that is being performed is an operation too, so calls
that a function makes stand in front of it, and what its caller does with its end stands behind it.
-/

namespace WorkerPool

inductive Who
  | step (index : Nat)
  | worker (pool index : Nat)
  deriving DecidableEq, Repr

/-- Who submitted: a step, which may keep the ticket under a name, or a function. -/
inductive Asker
  | step (ticket : Option String) (handover : Handover)
  | function

/-- A submission in progress: its ticket has been made out, and `rest` is still to be submitted. -/
structure Submission where
  pool : Nat
  asker : Asker
  ticket : Ticket
  rest : List Job := []

/-- Where a submission stands: about to take the next member, about to count an item into the
backlog, sending it, left with an item that was not accepted, or refused as a whole. -/
inductive SubmissionPhase
  | next
  | enlist (item : Item)
  | send (call : Channel.Call Item)
  | refuse (item : Item)
  | refused

/-- Where a worker stands. It is `running` an item while the functions in front of this operation
are performed; a panic that ends them is left here. -/
inductive WorkerPhase
  | start
  | receive (call : Channel.Call Item)
  | begin (item : Item)
  | running (item : Item) (panic : Option Payload)
  | finish (item : Item) (succeeded : Bool)

/-- Where a shutdown stands. It is over, `done`, when everything that it drained has been settled.
-/
inductive ShutdownPhase
  | check
  | call (call : Channel.Call Item)
  | done

/-- What is done with the answer to a wait on a latch. -/
inductive Waiter
  | nobody
  | caller
  | ticket (id : Nat)
  | refused (submission : Submission)
  | ready (pool : Nat) (name : String)

/-- What is made once a continuation that has nothing to wait for has been performed. -/
inductive Construction
  | latch (name : String)
  | submission (pool : Nat) (batch : Batch) (id : Nat) (asker : Asker)

/-- One thing left to do. `code` is a chain of functions: `current` is what is left of the function
that is being performed, `later` are those after it, and `position` is how many have been called. A
`join` is `waiting` once it has been found that the wait can end. A `release` ends a call on a pool,
and `hand` gives a ticket to the step that has submitted something. -/
inductive Op (α : Type)
  | command (command : Command α)
  | code (origin : Origin) (position : Nat) (current : Option Program) (later : List Program)
  | monitor (place : Nat) (call : Monitor.Call Int)
  | channel (place : Nat) (call : Channel.Call α)
  | latch (place : Nat) (call : Latch.Call) (waiter : Waiter)
  | backlog (pool : Nat) (call : Backlog.Call)
  | submit (submission : Submission) (phase : SubmissionPhase)
  | construct (construction : Construction) (succeeded : Bool)
  | work (pool index : Nat) (phase : WorkerPhase)
  | shutDown (pool : Nat) (phase : ShutdownPhase)
  | spawn (pool index : Nat) (name : String)
  | join (pool index : Nat) (waiting : Bool)
  | release (pool : Nat)
  | hand (ticket : Ticket) (name : Option String)
  | answer (answer : Answer α)

/-- A place where threads sleep. -/
inductive Bell
  | monitor (place : Nat)
  | channel (place : Nat)
  | latch (place : Nat)
  | intake (pool : Nat)
  | backlog (pool : Nat)
  deriving DecidableEq, Repr

/-- Whom a turn wakes: nobody, one of those who sleep at a bell, or all of them. -/
inductive Alarm
  | silent
  | one (bell : Bell)
  | everyone (bell : Bell)
  deriving DecidableEq, Repr

def Alarm.of (bell : Bell) : Wake → Alarm
  | .nobody => .silent
  | .one => .one bell
  | .everyone => .everyone bell

namespace Op

variable {α : Type}

/-- Where an operation is asleep, if it is. -/
def sleepsAt : Op α → Option Bell
  | .monitor place call => if call.asleep then some (.monitor place) else none
  | .channel place call => if call.asleep then some (.channel place) else none
  | .latch place call _ => if call.asleep then some (.latch place) else none
  | .backlog pool call => if call.asleep then some (.backlog pool) else none
  | .submit s (.send call) => if call.asleep then some (.intake s.pool) else none
  | .work pool _ (.receive call) => if call.asleep then some (.intake pool) else none
  | _ => none

/-- The operation after its sleep has been ended. -/
def wake : Op α → Op α
  | .monitor place call => .monitor place call.wake
  | .channel place call => .channel place call.wake
  | .latch place call waiter => .latch place call.wake waiter
  | .backlog pool call => .backlog pool call.wake
  | .submit s (.send call) => .submit s (.send call.wake)
  | .work pool index (.receive call) => .work pool index (.receive call.wake)
  | op => op

/-- Whether an operation is part of a submission to the pool, or the end of another call on it.
Until a call has come to its end, whoever makes it holds the pool. -/
def holds (pool : Nat) : Op α → Bool
  | .submit s _ | .latch _ _ (.refused s) => s.pool == pool
  | .construct (.submission p ..) _ => p == pool
  | .release p => p == pool
  | _ => false

/-- Counts one completion of the work that a latch was to hear of. -/
def complete (latch : Option Nat) (failed : Bool) : List (Op α) :=
  latch.toList.map fun place => .latch place (.count failed) .nobody

/-- What has to be done for an item that no worker will run. -/
def discard (pool : Nat) (item : Item) : List (Op α) :=
  complete item.latch true ++ [.backlog pool .leave]

/-- The chain of `job`, to be performed on account of `origin`. -/
def perform (origin : Origin) (programs : List Program) : Op α :=
  .code origin 0 none programs

end Op

/-- A thread with what it still has to do. It has ended when nothing is left. `answer` is what a
step will have to say for itself then. -/
structure Thread (α : Type) where
  who : Who
  ops : List (Op α)
  answer : Option (Answer α) := none

namespace Thread

variable {α : Type}

def ended (t : Thread α) : Bool :=
  t.ops.isEmpty

/-- Where a thread is asleep. Only the operation that is due can be. -/
def sleepsAt (t : Thread α) : Option Bell :=
  t.ops.head?.bind Op.sleepsAt

def wake (t : Thread α) : Thread α :=
  { t with ops := t.ops.modifyHead Op.wake }

def holds (t : Thread α) (pool : Nat) : Bool :=
  t.ops.any (·.holds pool)

/-- Whom a thread is waiting for to end. -/
def awaits (t : Thread α) : Option Who :=
  match t.ops with
  | .join pool index true :: _ => some (.worker pool index)
  | _ => none

end Thread

/-- What a turn can see of the threads: whether anybody holds a pool, the operation aside whose turn
it is, which threads have ended, and whom a thread is waiting for. -/
structure Around where
  inUse : Nat → Bool
  ended : Who → Bool
  awaits : Who → Option Who

/-- What one turn of an operation does: the objects afterwards, what is left to do in place of the
operation, what is recorded, whom it wakes, and which threads it starts. A turn can also find the
answer of the step it belongs to, or panic, and then what is left to do is up to whoever catches the
panic. -/
structure Effect (α : Type) where
  store : Store α
  ops : List (Op α) := []
  notes : List Entry := []
  alarm : Alarm := .silent
  births : List (Thread α) := []
  answer : Option (Answer α) := none
  panic : Option Payload := none

namespace Effect

variable {α : Type}

/-- Answers for a step that succeeded. -/
def succeed (store : Store α) (value : Value α) (notes : List Entry := []) : Effect α :=
  { store, notes, answer := some (.ok value) }

/-- Answers for a step that did not. -/
def fail (store : Store α) (failure : Failure α) (notes : List Entry := []) : Effect α :=
  { store, notes, answer := some (.error failure) }

/-- The first turn of a call, other than a submission, that holds a pool until it is over. -/
def holding (place : Nat) (effect : Effect α) : Effect α :=
  { effect with ops := effect.ops ++ [.release place] }

end Effect

end WorkerPool
