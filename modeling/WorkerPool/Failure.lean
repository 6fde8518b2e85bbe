import WorkerPool.Job

/-! What can go wrong in a call, and the words for it. -/

namespace WorkerPool

/-- The causes for which a call does not succeed, where `α` is the type of the items of a channel.
The last four come from a caller that names something that is not there. -/
inductive Failure (α : Type)
  | panicked (payload : Payload)
  | waitTerminated
  | poolTerminated
  | abandoned (id : Nat)
  | threadRefused (pool : String) (index : Nat)
  | givenBack (item : α)
  | noSuchObject (name : String)
  | noSuchBatchTicket (name : String)
  | poolInUse
  | noSuchRequest (word : String)

namespace Failure

variable {α : Type}

/-- The words for a failure, if it has any. -/
def message? : Failure α → Option String
  | .panicked (.text message) => some message
  | .panicked .other => none
  | .waitTerminated => some "wait was terminated"
  | .poolTerminated => some "dispatch queue has been shut down"
  | .abandoned id => some ("task #" ++ toString id ++ " was abandoned before completing")
  | .threadRefused pool index =>
    some ("failed to spawn worker " ++ toString index ++ " for dispatch queue `" ++ pool ++ "`")
  | .givenBack _ => none
  | .noSuchObject name => some ("no such object: " ++ name)
  | .noSuchBatchTicket name => some ("no such group handle: " ++ name)
  | .poolInUse => some "pool is in use"
  | .noSuchRequest word => some ("unknown step: " ++ word)

end Failure

end WorkerPool
