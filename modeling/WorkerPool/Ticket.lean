import WorkerPool.Job

/-! Tickets: what a submission leaves in the hands of its caller. A ticket carries the id of what
was submitted and the latch on which its completion can be awaited, if there is one. Tickets refer
to latches by their place in the store. -/

namespace WorkerPool

/-- The proof of a submission. A batch with a finale has a latch even if nobody may wait for it. -/
inductive Ticket
  | job (id : Nat) (latch : Option Nat)
  | batch (id : Nat) (size : Nat) (waitable : Bool) (latch : Option Nat)
  deriving DecidableEq, Repr

namespace Ticket

def id : Ticket → Nat
  | .job id _ => id
  | .batch id _ _ _ => id

/-- The latch that counts the completions of the submission. -/
def latch : Ticket → Option Nat
  | .job _ latch => latch
  | .batch _ _ _ latch => latch

def waitable : Ticket → Bool
  | .job _ latch => latch.isSome
  | .batch _ _ waitable _ => waitable

/-- The latch that the holder of the ticket may ask, or what asking panics with. -/
def awaited : Ticket → Except Payload Nat
  | .job _ (some latch) => .ok latch
  | .job id none => .error (.text ("task #" ++ toString id ++ " is not waitable"))
  | .batch _ _ true (some latch) => .ok latch
  | .batch id _ _ _ => .error (.text ("group #" ++ toString id ++ " is not waitable"))

end Ticket

/-- The display form of an id. -/
def idText (id : Nat) : String :=
  "#" ++ toString id

end WorkerPool
