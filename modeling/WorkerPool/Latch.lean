import WorkerPool.Monitor
import WorkerPool.Job

/-! A countdown latch: waiters are held until every expected completion has been counted. A
completion counts as a success or as a failure, and a single failure decides the answer of all
waiters.

A latch may carry a continuation. The thread that makes the last count runs it, with the lock
released, before that count takes effect: meanwhile one completion still remains, the latch is
marked as finishing, and counts and terminations from elsewhere have no effect. A failure among the
completions means that the continuation is skipped. -/

namespace WorkerPool

/-- What a latch guards. -/
structure Countdown where
  remaining : Nat
  failed : Bool := false
  finishing : Bool := false
  continuation : Option Job := none

abbrev Latch := Monitor Countdown

namespace Latch

def expecting (remaining : Nat) (continuation : Option Job) : Latch where
  value := { remaining, continuation }

/-- The latch of a continuation that had nothing to wait for and has been run already. -/
def settled (succeeded : Bool) : Latch where
  value := { remaining := 0, failed := !succeeded }

/-- Whether a count has any effect. -/
def counts (l : Latch) : Bool :=
  !(l.value.remaining == 0 || l.value.finishing || l.terminated)

/-- Whether a count made now is the last one and drops the continuation because of a failure. -/
def skips (l : Latch) (failed : Bool) : Bool :=
  l.counts && l.value.remaining == 1 && l.value.continuation.isSome && (l.value.failed || failed)

def realized (l : Latch) : Bool :=
  l.value.remaining == 0

inductive Reply
  | done
  | waited (succeeded : Bool)

/-- A call in progress. `running` is a last count whose continuation the caller is performing, and
`announce` a count that has reached zero and released the lock, with the waking still to come. -/
inductive Call
  | count (failed : Bool)
  | running (job : Job) (succeeded : Bool)
  | announce
  | wait (stage : Stage)
  | terminate

/-- Takes the last step of a count: one completion less, and its waiters are due at zero. -/
def countOff (l : Latch) : Turned Countdown Call Reply :=
  let remaining := l.value.remaining - 1
  ⟨{ l with value := { l.value with remaining } },
    if remaining = 0 then .goes .announce else .returns .done, .nobody⟩

namespace Call

def asleep : Call → Bool
  | .wait stage => stage == .asleep
  | _ => false

def wake : Call → Call
  | .wait stage => .wait stage.wake
  | call => call

/-- One turn of a call. The turn of a `running` call is the one after its continuation has ended. -/
def turn (l : Latch) : Call → Option (Turned Countdown Call Reply)
  | .count failed =>
    some (
      if !l.counts then ⟨l, .returns .done, .nobody⟩
      else
        let state := { l.value with failed := l.value.failed || failed }
        match state.remaining, state.continuation with
        | 1, some job =>
          if state.failed then countOff { l with value := { state with continuation := none } }
          else
            ⟨{ l with value := { state with continuation := none, finishing := true } },
              .goes (.running job true), .nobody⟩
        | _, _ => countOff { l with value := state })
  | .running _ succeeded =>
    some (countOff
      { l with value := { l.value with
          finishing := false
          failed := l.value.failed || !succeeded } })
  | .announce => some ⟨l, .returns .done, .everyone⟩
  | .wait stage =>
    (l.lookWhile (0 < ·.remaining) stage).map fun
      | .passed => ⟨l, .returns (.waited (!l.value.failed)), .nobody⟩
      | .refused => ⟨l, .returns (.waited false), .nobody⟩
      | .sleeps => ⟨l, .goes (.wait .asleep), .nobody⟩
  | .terminate =>
    some (if 0 < l.value.remaining ∧ !l.value.finishing then
        ⟨Monitor.terminate l, .returns .done, .everyone⟩
      else ⟨l, .returns .done, .nobody⟩)

end Call

end Latch

end WorkerPool
