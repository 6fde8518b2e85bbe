/-! What travels out of a call that panics. -/

namespace WorkerPool

/-- A message, or something that is not text. -/
inductive Payload
  | text (message : String)
  | other
  deriving DecidableEq, Repr

end WorkerPool
