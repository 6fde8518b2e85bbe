import WorkerPool.Batch
import WorkerPool.Channel
import WorkerPool.Latch
import WorkerPool.Backlog
import WorkerPool.Settings
import WorkerPool.Table
import WorkerPool.Ticket

/-! The objects that threads share, and the names they are known by. Objects refer to each other by
their places in the store; a place is never given to another object. A name is only a way to find
an object: whoever holds the place keeps the object when the name is given away. -/

namespace WorkerPool

/-- A job on its way to a worker, with the latch that wants to know its end. -/
structure Item where
  id : Nat
  job : Job
  latch : Option Nat

/-- What the callers of a pool share with its workers. There is one busy flag for each worker, which
only that worker writes. `started` is the latch on which the workers report for duty. -/
structure Pool where
  name : String
  intake : Channel Item
  backlog : Backlog := { value := 0 }
  busy : List Bool
  nextId : Nat := 1
  started : Nat

namespace Pool

def threads (p : Pool) : Nat :=
  p.busy.length

/-- The items that no worker has taken yet. -/
def pending (p : Pool) : Nat :=
  p.intake.value.size

def busyCount (p : Pool) : Nat :=
  p.busy.count true

def isDown (p : Pool) : Bool :=
  p.intake.terminated

end Pool

/-- What each name stands for, one name space for each kind of object. -/
structure Names where
  monitors : Table Nat := {}
  channels : Table Nat := {}
  latches : Table Nat := {}
  pools : Table Nat := {}
  jobs : Table Job := {}
  batches : Table Batch := {}
  tickets : Table Ticket := {}
  settings : Table Settings := {}

/-- Everything that threads share. `cells` and `put` are memory that the functions of jobs write. -/
structure Store (α : Type) where
  monitors : List (Monitor Int) := []
  channels : List (Channel α) := []
  latches : List Latch := []
  pools : List Pool := []
  openGates : List String := []
  cells : List Int := []
  put : Int := 0
  names : Names := {}

namespace Store

variable {α : Type}

def setMonitor (s : Store α) (place : Nat) (m : Monitor Int) : Store α :=
  { s with monitors := s.monitors.set place m }

def setChannel (s : Store α) (place : Nat) (c : Channel α) : Store α :=
  { s with channels := s.channels.set place c }

def setLatch (s : Store α) (place : Nat) (l : Latch) : Store α :=
  { s with latches := s.latches.set place l }

def setPool (s : Store α) (place : Nat) (p : Pool) : Store α :=
  { s with pools := s.pools.set place p }

def addLatch (s : Store α) (l : Latch) : Store α :=
  { s with latches := s.latches ++ [l] }

/-- The latch known as `name`. -/
def latchNamed? (s : Store α) (name : String) : Option (Nat × Latch) := do
  let place ← s.names.latches.find? name
  return (place, ← s.latches[place]?)

/-- Whether a pool can still be found by a name. -/
def isNamed (s : Store α) (place : Nat) : Bool :=
  s.names.pools.toList.any fun (_, known) => known == place

def poolNamed? (s : Store α) (name : String) : Option (Nat × Pool) := do
  let place ← s.names.pools.find? name
  return (place, ← s.pools[place]?)

end Store

end WorkerPool
