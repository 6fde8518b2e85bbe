import WorkerPool.Ring
import WorkerPool.Monitor

/-! A bounded blocking queue: a ring behind a monitor. Senders sleep while it is full and receivers
while it is empty, in one queue of sleepers, so every change of the ring wakes all of them. The
waking is a turn of its own, after the lock has been released.

Once terminated a channel moves no item any more: a send gives its item back, a receive finds
nothing even if items remain, and only `drain` takes them out. -/

namespace WorkerPool

abbrev Channel (α : Type) := Monitor (Ring α)

namespace Channel

variable {α : Type}

def empty (capacity : Nat) : Channel α where
  value := Ring.empty capacity

/-- What a call on a channel comes back with. -/
inductive Reply (α : Type)
  | sent
  | givenBack (item : α)
  | received (item : Option α)
  | drained (items : List α)
  | terminated

/-- A call in progress. `offer` is a send that has not locked yet, and `announce` a call that has
changed the ring and released the lock, with the waking still to come. -/
inductive Call (α : Type)
  | offer (item : α)
  | send (item : α) (stage : Stage)
  | receive (stage : Stage)
  | drain
  | terminate
  | announce (reply : Reply α)

namespace Call

def asleep : Call α → Bool
  | .send _ stage | .receive stage => stage == .asleep
  | _ => false

def wake : Call α → Call α
  | .send item stage => .send item stage.wake
  | .receive stage => .receive stage.wake
  | call => call

/-- One turn of a call. A send reads the termination flag three times: before it locks, while it
waits, and once more under the lock before it pushes. -/
def turn (c : Channel α) : Call α → Option (Turned (Ring α) (Call α) (Reply α))
  | .offer item =>
    some (if c.terminated then ⟨c, .returns (.givenBack item), .nobody⟩
      else ⟨c, .goes (.send item .arriving), .nobody⟩)
  | .send item stage =>
    (c.lookWhile (·.full) stage).map fun
      | .passed =>
        if c.terminated then ⟨c, .returns (.givenBack item), .nobody⟩
        else ⟨{ c with value := c.value.push item }, .goes (.announce .sent), .nobody⟩
      | .refused => ⟨c, .returns (.givenBack item), .nobody⟩
      | .sleeps => ⟨c, .goes (.send item .asleep), .nobody⟩
  | .receive stage =>
    (c.lookWhile (·.isEmpty) stage).map fun
      | .passed =>
        if c.terminated then ⟨c, .returns (.received none), .nobody⟩
        else
          let (item, ring) := c.value.pop
          ⟨{ c with value := ring }, .goes (.announce (.received item)), .nobody⟩
      | .refused => ⟨c, .returns (.received none), .nobody⟩
      | .sleeps => ⟨c, .goes (.receive .asleep), .nobody⟩
  | .drain =>
    let (items, ring) := c.value.drain
    some ⟨{ c with value := ring }, .goes (.announce (.drained items)), .nobody⟩
  | .terminate => some ⟨Monitor.terminate c, .returns .terminated, .everyone⟩
  | .announce reply => some ⟨c, .returns reply, .everyone⟩

end Call

end Channel

end WorkerPool
