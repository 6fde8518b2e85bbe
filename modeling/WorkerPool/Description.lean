import WorkerPool.Store
import WorkerPool.Failure
import WorkerPool.Text.Quoted
import WorkerPool.Text.Shape

/-! How the objects describe themselves. Functions and their parameters are addresses, which are not
shown. -/

namespace WorkerPool

open Text (Shape Style)

def idShape (id : Nat) : Shape :=
  .applied "TaskId" (.ofNat id)

def addressShape : Shape :=
  .leaf "0x"

def Latch.shape (l : Latch) : Shape :=
  .record "EventCounter" [
    ("remaining", .ofNat l.value.remaining),
    ("failed", .ofBool l.value.failed),
    ("terminated", .ofBool l.terminated)]

def Job.shape (job : Job) : Shape :=
  .record "Task" [
    ("task_fn", addressShape),
    ("params", addressShape),
    ("waitable", .ofBool job.waitable),
    ("continuation", .ofBool job.continuation.isSome)]

def Batch.shape (b : Batch) : Shape :=
  .record "Group" [
    ("capacity", .ofNat b.capacity),
    ("tasks", .sequence (b.members.map Job.shape)),
    ("waitable", .ofBool b.waitable),
    ("continuation", .ofOption Job.shape b.finale)]

def Settings.shape (s : Settings) : Shape :=
  .record "DispatchConfig" [
    ("capacity", .ofNat s.capacity),
    ("thread_count", .ofNat s.threadCount),
    ("stack_size", .ofOption .ofNat s.stackSize),
    ("name", .leaf (Text.quote s.name))]

/-- A ticket shows the latch it refers to. -/
def Ticket.shape (latches : List Latch) (t : Ticket) : Shape :=
  let latch := Shape.ofOption Latch.shape (t.latch.bind (latches[·]?))
  match t with
  | .job id _ => .record "TaskHandle" [("id", idShape id), ("counter", latch)]
  | .batch id size waitable _ =>
    .record "GroupHandle" [
      ("id", idShape id),
      ("len", .ofNat size),
      ("waitable", .ofBool waitable),
      ("counter", latch)]

/-- The description of a failure that a waiter or a submitter gets. -/
def Failure.shape? {α : Type} : Failure α → Option Shape
  | .waitTerminated | .poolTerminated => some (.leaf "Terminated")
  | .abandoned id => some (.record "Abandoned" [("id", idShape id)])
  | _ => none

end WorkerPool
