import WorkerPool.Monitor

/-! The number of items that have been submitted to a pool and are neither finished nor discarded
yet. Whoever waits for the pool to become idle waits for it to be zero. -/

namespace WorkerPool

abbrev Backlog := Monitor Nat

namespace Backlog

/-- A call in progress. `announce` is a departure that found itself the last one and has released
the lock, with the waking still to come. -/
inductive Call
  | enlist
  | leave
  | announce
  | awaitIdle (stage : Stage)

namespace Call

def asleep : Call → Bool
  | .awaitIdle stage => stage == .asleep
  | _ => false

def wake : Call → Call
  | .awaitIdle stage => .awaitIdle stage.wake
  | call => call

/-- One turn of a call. Nothing terminates a backlog, so a refused wait does not occur; it would
return like any other. -/
def turn (b : Backlog) : Call → Option (Turned Nat Call Unit)
  | .enlist => some ⟨{ b with value := b.value + 1 }, .returns (), .nobody⟩
  | .leave =>
    let value := b.value - 1
    some ⟨{ b with value }, if value = 0 then .goes .announce else .returns (), .nobody⟩
  | .announce => some ⟨b, .returns (), .everyone⟩
  | .awaitIdle stage =>
    (b.lookWhile (0 < ·) stage).map fun
      | .passed | .refused => ⟨b, .returns (), .nobody⟩
      | .sleeps => ⟨b, .goes (.awaitIdle .asleep), .nobody⟩

end Call

end Backlog

end WorkerPool
