import WorkerPool.Job
import WorkerPool.Text.Quoted

/-! What is recorded about a run: the lines of the log, and the history of a world entry by entry.
-/

namespace WorkerPool

inductive Level
  | error
  | warn
  | debug
  | trace
  deriving DecidableEq, Repr

/-- A line of the log. -/
inductive LogLine
  | poolCreated (pool : String) (capacity threads : Nat)
  | threadRefused (pool : String) (index : Nat)
  | workerSpan (pool : String) (index : Nat)
  | workerStarted
  | workerStopped
  | poolReady (pool : String)
  | poolShutDown (pool : String)
  | poolDestroyed (pool : String)
  | jobAdded (pool : String) (id : Nat) (waitable : Bool)
  | batchAdded (pool : String) (id size : Nat) (waitable : Bool)
  | rejected (pool : String) (id : Nat)
  | jobStarted (id : Nat)
  | jobFinished (id : Nat)
  | jobPanicked (id : Nat) (payload : Payload)
  | jobAwaited (id : Nat)
  | batchAwaited (id size : Nat)
  | idleAwaited (pool : String)
  | itemsAbandoned (pool : String) (count : Nat)
  | continuationSkipped
  | continuationPanicked (payload : Payload)
  deriving DecidableEq, Repr

namespace LogLine

def level : LogLine → Level
  | .threadRefused .. | .jobPanicked .. | .continuationPanicked .. => .error
  | .itemsAbandoned .. | .continuationSkipped => .warn
  | .poolCreated .. | .workerSpan .. | .workerStarted | .workerStopped | .poolReady ..
  | .poolShutDown .. | .poolDestroyed .. => .debug
  | .jobAdded .. | .batchAdded .. | .rejected .. | .jobStarted .. | .jobFinished ..
  | .jobAwaited .. | .batchAwaited .. | .idleAwaited .. => .trace

/-- Whether the line tells of something that went wrong. -/
def urgent (line : LogLine) : Bool :=
  line.level == .error || line.level == .warn

/-- The quoted words of a payload. -/
def payloadText : Payload → String
  | .text message => Text.quote message
  | .other => Text.quote "<non-string panic payload>"

/-- A line as it is written: its level, its message and its fields, names without quotes. The line
that opens a worker's span shows the span instead of the level. -/
def text : LogLine → String
  | .poolCreated pool capacity threads =>
    "DEBUG dispatch queue create name=" ++ pool ++ " capacity=" ++ toString capacity ++
      " thread_count=" ++ toString threads
  | .threadRefused pool index =>
    "ERROR worker spawn failed queue=" ++ pool ++ " index=" ++ toString index
  | .workerSpan pool index => "SPAN worker queue=" ++ pool ++ " index=" ++ toString index
  | .workerStarted => "DEBUG worker started"
  | .workerStopped => "DEBUG worker stopped"
  | .poolReady pool => "DEBUG dispatch queue ready queue=" ++ pool
  | .poolShutDown pool => "DEBUG dispatch queue shutdown queue=" ++ pool
  | .poolDestroyed pool => "DEBUG dispatch queue destroyed queue=" ++ pool
  | .jobAdded pool id waitable =>
    "TRACE task add queue=" ++ pool ++ " id=#" ++ toString id ++ " waitable=" ++ toString waitable
  | .batchAdded pool id size waitable =>
    "TRACE group add queue=" ++ pool ++ " id=#" ++ toString id ++ " len=" ++ toString size ++
      " waitable=" ++ toString waitable
  | .rejected pool id =>
    "TRACE submission rejected, queue terminated queue=" ++ pool ++ " id=#" ++ toString id
  | .jobStarted id => "TRACE task start id=#" ++ toString id
  | .jobFinished id => "TRACE task finished id=#" ++ toString id
  | .jobPanicked id payload =>
    "ERROR task panicked id=#" ++ toString id ++ " panic=" ++ payloadText payload
  | .jobAwaited id => "TRACE task wait id=#" ++ toString id
  | .batchAwaited id size => "TRACE group wait id=#" ++ toString id ++ " len=" ++ toString size
  | .idleAwaited pool => "TRACE wait for idle queue=" ++ pool
  | .itemsAbandoned pool count =>
    "WARN abandoning queued tasks queue=" ++ pool ++ " count=" ++ toString count
  | .continuationSkipped => "WARN skipping continuation, a counted completion failed"
  | .continuationPanicked payload => "ERROR continuation panicked panic=" ++ payloadText payload

end LogLine

end WorkerPool
