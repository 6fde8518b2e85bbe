import WorkerPool.Op

/-! The turns of calls on a single object: a monitor, a channel, a latch or the backlog of a pool.
Each puts the object back where it was and leaves the rest of the store alone. -/

namespace WorkerPool

variable {α : Type}

def Monitor.Reply.answer : Monitor.Reply Int → Answer α
  | .done => .ok .nothing
  | .waited outcome value => .ok (.waited outcome value)
  | .passed value => .ok (.number value)
  | .refused => .error .waitTerminated
  | .decided terminated => .ok (.flag terminated)
  | .panicked payload => .error (.panicked payload)

def Monitor.Call.effect (s : Store α) (place : Nat) (m : Monitor Int) (call : Monitor.Call Int) :
    Option (Effect α) :=
  (call.turn m).map fun turned =>
    let effect : Effect α :=
      { store := s.setMonitor place turned.object
        alarm := .of (.monitor place) turned.wake }
    match turned.next with
    | .goes call => { effect with ops := [.monitor place call] }
    | .returns reply => { effect with answer := some reply.answer }

def Channel.Reply.answer : Channel.Reply α → Answer α
  | .sent | .terminated => .ok .nothing
  | .givenBack item => .error (.givenBack item)
  | .received item => .ok (.received item)
  | .drained items => .ok (.drained items)

def Channel.Call.effect (s : Store α) (place : Nat) (c : Channel α) (call : Channel.Call α) :
    Option (Effect α) :=
  (call.turn c).map fun turned =>
    let effect : Effect α :=
      { store := s.setChannel place turned.object
        alarm := .of (.channel place) turned.wake }
    match turned.next with
    | .goes call => { effect with ops := [.channel place call] }
    | .returns reply => { effect with answer := some reply.answer }

/-- A pool whose threads have all reported gets its name. A pool that had the name before is let go
of. -/
def Waiter.settleIn (s : Store α) (place : Nat) (pool : Pool) (name : String) : Effect α where
  store := { s with names := { s.names with pools := s.names.pools.insert name place } }
  ops := (s.names.pools.find? name).toList.map .release ++ [.answer (.ok .nothing)]
  notes := [.line (.poolReady pool.name)]

/-- What becomes of the answer to a wait. -/
def Waiter.effect (s : Store α) (succeeded : Bool) : Waiter → Effect α
  | .nobody => { store := s }
  | .caller => if succeeded then .succeed s .nothing else .fail s .waitTerminated
  | .ticket id => if succeeded then .succeed s .nothing else .fail s (.abandoned id)
  | .refused submission => { store := s, ops := [.submit submission .refused] }
  | .ready place name =>
    match s.pools[place]? with
    | some pool => settleIn s place pool name
    | none => { store := s }

/-- What is recorded of a call: a count leaves a note if it has an effect, and a line if it drops
the continuation. -/
def Latch.Call.notes (place : Nat) (l : Latch) : Latch.Call → List Entry
  | .count failed =>
    (if l.counts then [.counted place failed] else []) ++
      (if l.skips failed then [.line .continuationSkipped] else [])
  | _ => []

/-- When a count starts the continuation, the functions of that stand in front of the call. -/
def Latch.Call.effect (s : Store α) (place : Nat) (l : Latch) (call : Latch.Call)
    (waiter : Waiter) : Option (Effect α) :=
  (call.turn l).map fun turned =>
    let store := s.setLatch place turned.object
    let effect : Effect α :=
      { store
        notes := call.notes place l
        alarm := .of (.latch place) turned.wake }
    match turned.next with
    | .goes (.running job succeeded) =>
      { effect with
        ops := [
          .perform (.latch place) job.programs,
          .latch place (.running job succeeded) waiter] }
    | .goes call => { effect with ops := [.latch place call waiter] }
    | .returns .done => effect
    | .returns (.waited succeeded) => waiter.effect store succeeded

def Backlog.Call.effect (s : Store α) (place : Nat) (pool : Pool) (call : Backlog.Call) :
    Option (Effect α) :=
  (call.turn pool.backlog).map fun turned =>
    { store := s.setPool place { pool with backlog := turned.object }
      ops :=
        match turned.next with
        | .goes call => [.backlog place call]
        | .returns () => []
      alarm := .of (.backlog place) turned.wake }

end WorkerPool
