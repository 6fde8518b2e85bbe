import WorkerPool.Job

/-! Batches: jobs that are submitted, and waited for, together. A batch has a fixed capacity, keeps
its members in the order in which they were added and gives each of them its own waitability. Its
finale is a job that runs once after all members have completed. -/

namespace WorkerPool

structure Batch where
  capacity : Nat
  waitable : Bool
  members : List Job := []
  finale : Option Job := none

namespace Batch

def size (b : Batch) : Nat :=
  b.members.length

def isEmpty (b : Batch) : Bool :=
  b.members.isEmpty

def isFull (b : Batch) : Bool :=
  b.size == b.capacity

/-- Appends `job` with the waitability of the batch; a full batch takes nothing. -/
def add? (b : Batch) (job : Job) : Option Batch :=
  if b.size < b.capacity then
    some { b with members := b.members ++ [job.setWaitable b.waitable] }
  else none

/-- Appends a job made of the one function `program`. -/
def addProgram? (b : Batch) (program : Program) : Option Batch :=
  b.add? { first := { program, waitable := b.waitable } }

/-- A batch with one member for each program and no room for more. Nothing is built if one of them
should not fit. -/
def ofPrograms? (programs : List Program) (waitable : Bool) : Option Batch :=
  programs.foldlM addProgram? { capacity := programs.length, waitable }

def setFinale (b : Batch) (job : Job) : Batch :=
  { b with finale := some job }

/-- What adding to a full batch panics with. -/
def overflow (b : Batch) : Payload :=
  .text ("group is full (" ++ toString b.capacity ++ " tasks)")

/-- The calls of every member in order and then those of the finale: what performing the batch in
the calling thread does. -/
def programs (b : Batch) : List Program :=
  b.members.flatMap Job.programs ++ (b.finale.map Job.programs).getD []

end Batch

end WorkerPool
