import WorkerPool.Journal
import WorkerPool.Store

/-! The history of a world: what its threads did, entry by entry. Events and log lines can be seen
from outside; the other entries keep track of ids, items, counts and calls. -/

namespace WorkerPool

/-- On whose account functions are called: for an item that a worker has taken, as the continuation
of a latch, as the finale of a batch without members, or for the caller itself. -/
inductive Origin
  | item (pool id : Nat)
  | latch (latch : Nat)
  | batch (pool id : Nat)
  | caller
  deriving DecidableEq, Repr

/-- What an id was given to. A member knows the id of its batch. -/
inductive Issue
  | job (job : Job)
  | batch (batch : Batch)
  | member (batch : Nat) (job : Job)

inductive Entry
  | event (text : String)
  | line (line : LogLine)
  | issued (pool id : Nat) (issue : Issue)
  | ticketed (pool : Nat) (ticket : Ticket)
  | pushed (pool : Nat) (item : Item)
  | refused (pool : Nat) (item : Item)
  | taken (pool : Nat) (item : Item)
  | discarded (pool : Nat) (item : Item)
  | counted (latch : Nat) (failed : Bool)
  | called (origin : Origin) (position : Nat) (program : Program)
  | returned (origin : Origin) (position : Nat)
  | raised (origin : Origin) (position : Nat)

namespace Entry

def event? : Entry → Option String
  | .event text => some text
  | _ => none

def line? : Entry → Option LogLine
  | .line written => some written
  | _ => none

end Entry

end WorkerPool
