import WorkerPool.Footprint
import WorkerPool.Text.NullByte

/-! How a pool is set up, and what can be wrong with that. -/

namespace WorkerPool

/-- The name of a thread of a pool. -/
def threadName (pool : String) (index : Nat) : String :=
  pool ++ "-" ++ toString index

/-- What a pool is built from. Nothing is checked before a pool is built. Without a number of
threads the pool gets as many as the machine runs at once, and without a stack size the usual one.
-/
structure Settings where
  capacity : Nat
  threads : Option Nat := none
  stackSize : Option Nat := none
  name : String
  deriving DecidableEq, Repr

namespace Settings

def standard : Settings where
  capacity := 64
  name := "dispatch"

/-- The number of threads of a machine that is not asked about its processors. -/
def machineThreads : Nat := 4

def threadCount (s : Settings) : Nat :=
  s.threads.getD machineThreads

/-- Two settings are the same if they build the same pool. -/
def agree (s t : Settings) : Bool :=
  s.threadCount == t.threadCount && s.capacity == t.capacity && s.stackSize == t.stackSize &&
    s.name == t.name

/-- What a pool that could not do anything is refused with. -/
def refusal? (s : Settings) : Option Payload :=
  if s.threadCount = 0 then some (.text "Must have at least one worker")
  else if s.capacity = 0 then some (.text "queue capacity must be at least 1")
  else none

/-- What building a pool panics with: one of its rows would be too long, or its threads cannot be
called by their names. -/
def obstacle? (s : Settings) : Option Payload :=
  if Footprint.item.fits s.capacity && Footprint.busyFlag.fits s.threadCount then
    (Text.nullByte? (threadName s.name 0)).map fun report =>
      .text ("thread name may not contain interior null bytes: " ++ report.plain)
  else some Footprint.overflow

/-- The smallest stack that no machine grants. -/
def unobtainableStack : Nat := 4611686018427387904

/-- Whether the machine refuses to start a thread with this stack. -/
def threadRefused (s : Settings) : Bool :=
  match s.stackSize with
  | some size => unobtainableStack ≤ size
  | none => false

end Settings

end WorkerPool
