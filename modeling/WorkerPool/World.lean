import WorkerPool.Turn.Command
import WorkerPool.Turn.Function
import WorkerPool.Turn.Worker

/-! A world: the objects, the threads that work on them, and the history of what they did. At any
moment any thread that can take a turn may take one, and a caller may give another command; nothing
else happens, so no sleeper gets up unless it is woken. A thread cannot take a turn when it has
ended, while it sleeps, before a closed gate, or while it waits for another thread to end. -/

namespace WorkerPool

variable {α : Type}

/-- The state of a run. The history is kept newest first, and `steps` counts the commands. -/
structure World (α : Type) where
  store : Store α
  threads : List (Thread α) := []
  history : List (Who × Entry) := []
  steps : Nat := 0

/-- The name of a thread. -/
def Who.name (s : Store α) : Who → String
  | .step index => "step-" ++ toString index
  | .worker place index =>
    threadName ((s.pools[place]?.map (·.name)).getD "") index

namespace Op

/-- One turn of an operation, if it can take one. -/
def effect (around : Around) (s : Store α) (who : Who) : Op α → Option (Effect α)
  | .command given => some (given.effect around s)
  | .code origin position current later =>
    Program.effect s (who.name s) origin position current later
  | .monitor place call => s.monitors[place]?.bind fun m => call.effect s place m
  | .channel place call => s.channels[place]?.bind fun c => call.effect s place c
  | .latch place call waiter => s.latches[place]?.bind fun l => call.effect s place l waiter
  | .backlog place call => s.pools[place]?.bind fun pool => call.effect s place pool
  | .submit submission phase =>
    s.pools[submission.pool]?.bind fun pool => phase.effect s pool submission
  | .construct construction succeeded => construction.effect s succeeded
  | .work place index phase => s.pools[place]?.bind fun pool => phase.effect s place pool index
  | .shutDown place phase => s.pools[place]?.bind fun pool => phase.effect s place pool
  | .spawn place index name => s.pools[place]?.map fun pool => spawnEffect s place pool index name
  | .join place index waiting =>
    s.pools[place]?.bind fun pool => joinEffect around s who place pool index waiting
  | .release place => s.pools[place]?.map fun pool => releaseEffect around s place pool
  | .hand ticket name => some (ticket.hand s name)
  | .answer given => some { store := s, answer := some given }

end Op

namespace World

/-- A world with nothing in it but memory. -/
def start (cells : List Int) : World α where
  store := { cells }

/-- Gives a command to a new thread. -/
def issue (w : World α) (command : Command α) : World α :=
  { w with
    threads := w.threads ++ [{ who := .step w.steps, ops := [.command command] }]
    steps := w.steps + 1 }

/-- What the thread at `index` can see in its turn. -/
def around (w : World α) (index : Nat) : Around where
  inUse place := (w.threads.modify index fun t => { t with ops := t.ops.tail }).any (·.holds place)
  ended who := w.threads.any fun t => t.who == who && t.ended
  awaits who := (w.threads.find? (·.who == who)).bind (·.awaits)

/-- Wakes one sleeper at the bell: of those who sleep there, the one that `pick` others precede. -/
def wakeOne (bell : Bell) : Nat → List (Thread α) → List (Thread α)
  | _, [] => []
  | pick, t :: rest =>
    if t.sleepsAt == some bell then
      match pick with
      | 0 => t.wake :: rest
      | pick + 1 => t :: wakeOne bell pick rest
    else t :: wakeOne bell pick rest

def wakeAll (bell : Bell) (threads : List (Thread α)) : List (Thread α) :=
  threads.map fun t => if t.sleepsAt == some bell then t.wake else t

/-- The thread after a turn with this effect, where `rest` stood behind the operation, and the notes
of a panic. A panic also ends what the operation itself had left to do. -/
def continued (t : Thread α) (rest : List (Op α)) (effect : Effect α) : Thread α × List Entry :=
  match effect.panic with
  | none => ({ t with ops := effect.ops ++ rest, answer := effect.answer.or t.answer }, [])
  | some payload =>
    match unwind payload (effect.ops ++ rest) with
    | (notes, some ops) => ({ t with ops }, notes)
    | (notes, none) => ({ t with ops := [], answer := some (.error (.panicked payload)) }, notes)

/-- The threads after somebody has been woken. Of the sleepers at one bell, `pick` says which one.
-/
def rouse (alarm : Alarm) (pick : Nat) (threads : List (Thread α)) : List (Thread α) :=
  match alarm with
  | .silent => threads
  | .one bell => wakeOne bell pick threads
  | .everyone bell => wakeAll bell threads

/-- The world after a turn with this effect of the thread `t` at `index`, where `rest` stood behind
the operation that took the turn. -/
def apply (w : World α) (index pick : Nat) (t : Thread α) (rest : List (Op α)) (effect : Effect α) :
    World α :=
  let (next, panicNotes) := continued t rest effect
  { w with
    store := effect.store
    threads := rouse effect.alarm pick (w.threads.set index next) ++ effect.births
    history := ((effect.notes ++ panicNotes).map (t.who, ·)).reverse ++ w.history }

/-- Lets the thread at `index` take a turn, if it can. When the turn wakes a single sleeper, `pick`
says which one. -/
def turn (w : World α) (index pick : Nat) : Option (World α) :=
  w.threads[index]?.bind fun t =>
    match t.ops with
    | [] => none
    | op :: rest => (op.effect (w.around index) w.store t.who).map (w.apply index pick t rest)

/-- What can happen to a world: a thread takes a turn, or a command is given. -/
inductive Step : World α → World α → Prop
  | turn {w v : World α} (index pick : Nat) (took : w.turn index pick = some v) : Step w v
  | issue (w : World α) (command : Command α) : Step w (w.issue command)

/-- The worlds that a run can come to. -/
inductive Reachable : World α → Prop
  | start (cells : List Int) : Reachable (start cells)
  | next {w v : World α} (reachable : Reachable w) (step : Step w v) : Reachable v

/-- No thread can take a turn. -/
def Quiescent (w : World α) : Prop :=
  ∀ index pick, w.turn index pick = none

/-- The answers of the steps that have ended, in order. -/
def answers (w : World α) : List (Nat × Answer α) :=
  w.threads.filterMap fun t =>
    match t.who with
    | .step index => if t.ended then t.answer.map (index, ·) else none
    | .worker .. => none

end World

end WorkerPool
