import WorkerPool.Op

/-! The beginning and the end of a pool. A pool is set up, its threads are started one by one, and
when all of them have reported for duty it gets its name.

A name can be taken away from a pool, or given to another one, while somebody is still in a call on
the pool. So the end comes with the last to let go of it: whoever finds that the pool has no name
any more and that nobody else is in a call on it shuts it down and waits for its threads, one by
one. That may be a function that one of these threads performs. A thread cannot wait for itself, nor
for one that is waiting for it: it panics, and the threads that are left are not waited for. -/

namespace WorkerPool

variable {α : Type}

/-- Sets up a pool and has its threads started. -/
def Pool.setUp (s : Store α) (name : String) (settings : Settings) : Effect α :=
  match settings.refusal? with
  | some payload => .fail s (.panicked payload)
  | none =>
    let created : Entry :=
      .line (.poolCreated settings.name settings.capacity settings.threadCount)
    match settings.obstacle? with
    | some payload => .fail s (.panicked payload) [created]
    | none =>
      if settings.threadRefused then
        .fail s (.threadRefused settings.name 0) [created, .line (.threadRefused settings.name 0)]
      else
        let pool : Pool :=
          { name := settings.name
            intake := Channel.empty settings.capacity
            busy := List.replicate settings.threadCount false
            started := s.latches.length }
        let latched := s.addLatch (Latch.expecting settings.threadCount none)
        { store := { latched with pools := s.pools ++ [pool] }
          ops := [.spawn s.pools.length 0 name]
          notes := [created] }

namespace Op

/-- Starting the threads of a pool one by one, and then waiting for all of them to report. -/
def spawnEffect (s : Store α) (place : Nat) (pool : Pool) (index : Nat) (name : String) :
    Effect α :=
  if index < pool.threads then
    { store := s
      ops := [.spawn place (index + 1) name]
      births := [{ who := .worker place index, ops := [.work place index .start] }] }
  else { store := s, ops := [.latch pool.started (.wait .arriving) (.ready place name)] }

/-- Letting go of a pool. -/
def releaseEffect (around : Around) (s : Store α) (place : Nat) (pool : Pool) : Effect α :=
  if s.isNamed place || around.inUse place then { store := s }
  else
    { store := s
      ops := [.shutDown place .check, .join place 0 false]
      notes := [.line (.poolShutDown pool.name)] }

/-- What a thread panics with that is about to wait for ever. -/
def deadlock : Payload :=
  .text "failed to join thread: Resource deadlock avoided (os error 35)"

/-- Waiting for the threads of a pool to end, one by one. Before the wait for a thread begins, it is
made sure that this thread is not `who` itself and is not waiting for `who`. -/
def joinEffect (around : Around) (s : Store α) (who : Who) (place : Nat) (pool : Pool)
    (index : Nat) (waiting : Bool) : Option (Effect α) :=
  let worker := Who.worker place index
  if pool.threads ≤ index then some { store := s, notes := [.line (.poolDestroyed pool.name)] }
  else if waiting then
    if around.ended worker then some { store := s, ops := [.join place (index + 1) false] }
    else none
  else if worker == who || around.awaits worker == some who then
    some { store := s, panic := some deadlock }
  else some { store := s, ops := [.join place index true] }

end Op

end WorkerPool
