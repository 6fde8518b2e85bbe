import WorkerPool.Payload

/-! Jobs: what a worker is given to run. A job is a chain of functions that run one after the other
in the same thread. Each function is a program, a list of actions, so that everything a function can
do to its surroundings is explicit.

Only the first link of a chain says whether somebody may wait for the job; the flags of the later
links are carried along and matter when a chain is attached to something else. -/

namespace WorkerPool

mutual

/-- One thing a function does. Objects are named, and looked up when the action is carried out. -/
inductive Action
  | say (event : String)
  | sayThread
  | passGate (gate : String)
  | openGate (gate : String)
  | panic (payload : Payload)
  | write (index : Nat) (value : Int)
  | put (value : Int)
  | count (latch : String) (failed : Bool)
  | terminate (latch : String)
  | inspectLatch (latch : String)
  | inspectPool (pool : String)
  | shutDown (pool : String)
  | submit (pool : String) (job : JobText)
  | perform (job : String)

/-- A job as it is written down: the name of a job that is kept elsewhere, or a link with what
follows it. -/
inductive JobText
  | named (name : String)
  | link (program : List Action) (waitable : Bool)
  | linkThen (program : List Action) (waitable : Bool) (next : JobText)

end

abbrev Program := List Action

/-- One function of a chain. -/
structure Link where
  program : Program
  waitable : Bool

/-- A chain of functions, never empty. -/
structure Job where
  first : Link
  next : List Link := []

namespace Job

def waitable (job : Job) : Bool :=
  job.first.waitable

def setWaitable (job : Job) (waitable : Bool) : Job :=
  { job with first := { job.first with waitable } }

/-- Runs the whole chain of `next` right after the first link, in place of what followed it before.
-/
def followedBy (job next : Job) : Job :=
  { job with next := next.first :: next.next }

/-- What is attached behind the first link. -/
def continuation (job : Job) : Option Job :=
  match job.next with
  | [] => none
  | first :: next => some { first, next }

/-- The calls that performing the job makes, in order. -/
def programs (job : Job) : List Program :=
  job.first.program :: job.next.map (·.program)

end Job

/-- The job that a text stands for, where `kept` finds the jobs that are referred to by name. A
reference copies the whole chain. The error is the name that was not found. -/
def JobText.resolve (kept : String → Option Job) : JobText → Except String Job
  | .named name =>
    match kept name with
    | some job => .ok job
    | none => .error name
  | .link program waitable => .ok { first := { program, waitable } }
  | .linkThen program waitable next =>
    (next.resolve kept).map (Job.followedBy { first := { program, waitable } })

end WorkerPool
