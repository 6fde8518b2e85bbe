import WorkerPool.Payload

/-! A value behind a lock, with a queue of sleepers that can be woken or dismissed for good.

Every section that a caller runs under the lock is one turn, so a value is never seen half changed.
A caller that has to wait falls asleep in the same turn in which it found that out; nothing can
happen between the look and the sleep. Whoever wakes the sleepers only moves them from `asleep` to
`woken`: each of them still has to take a turn of its own before it goes on.

Termination is a flag that is set under the lock and never cleared. A waiter reads it after its
condition when it arrives, but before its condition when it has been woken.

A condition may panic. That ends the call, and the value is as it was before. -/

namespace WorkerPool

/-- How far a waiting call has come: on its way in, in the queue of sleepers, or taken out of it and
about to lock again. -/
inductive Stage
  | arriving
  | asleep
  | woken
  deriving DecidableEq, Repr

/-- What the waker does to a call that may be asleep. -/
def Stage.wake : Stage → Stage
  | .asleep => .woken
  | stage => stage

/-- What a waiter learns from one look under the lock. -/
inductive Verdict
  | passed
  | refused
  | sleeps
  deriving DecidableEq, Repr

/-- Which of an object's sleepers a turn wakes. -/
inductive Wake
  | nobody
  | one
  | everyone
  deriving DecidableEq, Repr

/-- Whether a call goes on after its turn or returns to its caller. -/
inductive Next (κ ρ : Type)
  | goes (call : κ)
  | returns (reply : ρ)

structure Monitor (σ : Type) where
  value : σ
  terminated : Bool := false

/-- The outcome of one turn of a call: the object as the turn leaves it, what becomes of the call,
and whom it wakes. -/
structure Turned (σ κ ρ : Type) where
  object : Monitor σ
  next : Next κ ρ
  wake : Wake := .nobody

namespace Monitor

variable {σ : Type}

/-- Whether a waiter has to leave without a look at the value: it does if it was woken into a
terminated monitor. A sleeping one has no turn. -/
def dismisses (m : Monitor σ) : Stage → Option Bool
  | .asleep => none
  | .woken => some m.terminated
  | .arriving => some false

/-- What a look comes to, given whether the condition holds the waiter back. -/
def verdict (m : Monitor σ) (stays : Bool) : Verdict :=
  if !stays then .passed else if m.terminated then .refused else .sleeps

/-- One look of a waiter that stays while `holds` is true of the value. The condition may change the
value, or panic. -/
def look (m : Monitor σ) (holds : σ → Except Payload (σ × Bool)) (stage : Stage) :
    Option (Except Payload (Monitor σ × Verdict)) :=
  (m.dismisses stage).map fun
    | true => .ok (m, .refused)
    | false => (holds m.value).map fun (value, stays) => ({ m with value }, m.verdict stays)

/-- A look whose condition only reads the value. -/
def lookWhile (m : Monitor σ) (holds : σ → Bool) (stage : Stage) : Option Verdict :=
  (m.dismisses stage).map fun
    | true => .refused
    | false => m.verdict (holds m.value)

def terminate (m : Monitor σ) : Monitor σ :=
  { m with terminated := true }

/-- How a single wait ended. -/
inductive Outcome
  | signalled
  | terminated
  deriving DecidableEq, Repr

/-- The calls that a caller can make on a monitor. -/
inductive Call (σ : Type)
  | update (change : σ → σ)
  | wait (stage : Stage)
  | waitWhile (holds : σ → Except Payload (σ × Bool)) (stage : Stage)
  | signal
  | broadcast
  | terminate
  | terminateIf (holds : σ → Except Payload Bool)

inductive Reply (σ : Type)
  | done
  | waited (outcome : Outcome) (value : σ)
  | passed (value : σ)
  | refused
  | decided (terminated : Bool)
  | panicked (payload : Payload)

namespace Call

def asleep : Call σ → Bool
  | .wait stage | .waitWhile _ stage => stage == .asleep
  | _ => false

def wake : Call σ → Call σ
  | .wait stage => .wait stage.wake
  | .waitWhile holds stage => .waitWhile holds stage.wake
  | call => call

/-- One turn of a call. A single wait returns at once from a terminated monitor and otherwise sleeps
exactly once. `terminateIf` sets the flag and wakes everyone in the section in which it found its
condition true, so no waiter can slip past it. -/
def turn (m : Monitor σ) : Call σ → Option (Turned σ (Call σ) (Reply σ))
  | .update change => some ⟨{ m with value := change m.value }, .returns .done, .nobody⟩
  | .wait .asleep => none
  | .wait .arriving =>
    some (if m.terminated then ⟨m, .returns (.waited .terminated m.value), .nobody⟩
      else ⟨m, .goes (.wait .asleep), .nobody⟩)
  | .wait .woken =>
    some ⟨m, .returns (.waited (if m.terminated then .terminated else .signalled) m.value), .nobody⟩
  | .waitWhile holds stage =>
    (m.look holds stage).map fun
      | .ok (m, .passed) => ⟨m, .returns (.passed m.value), .nobody⟩
      | .ok (m, .refused) => ⟨m, .returns .refused, .nobody⟩
      | .ok (m, .sleeps) => ⟨m, .goes (.waitWhile holds .asleep), .nobody⟩
      | .error payload => ⟨m, .returns (.panicked payload), .nobody⟩
  | .signal => some ⟨m, .returns .done, .one⟩
  | .broadcast => some ⟨m, .returns .done, .everyone⟩
  | .terminate => some ⟨m.terminate, .returns .done, .everyone⟩
  | .terminateIf holds =>
    some (match holds m.value with
      | .ok true => ⟨m.terminate, .returns (.decided true), .everyone⟩
      | .ok false => ⟨m, .returns (.decided false), .nobody⟩
      | .error payload => ⟨m, .returns (.panicked payload), .nobody⟩)

end Call

end Monitor

end WorkerPool
