import WorkerPool.World

/-! Scenarios: commands given one after the other, each only when no thread can go on by itself any
more, and a report on each of them. Which thread takes the next turn in between is not fixed by what
a world is. Here a thread goes on as long as it can, because one that has just been woken needs more
time to get going; then the first one that can go on does, and the first sleeper is woken. -/

namespace WorkerPool

variable {α : Type}

/-- The turns after which a command is reported on even if some thread could still go on. -/
def patience : Nat := 10000000

namespace World

/-- The first thread from `index` on that can take a turn takes it. -/
def advanceFrom (w : World α) (index : Nat) : Nat → Option (Nat × World α)
  | 0 => none
  | count + 1 =>
    match w.turn index 0 with
    | some next => some (index, next)
    | none => advanceFrom w (index + 1) count

/-- A turn of the thread that is `running`, or else of the first one that can take a turn. -/
def advance (w : World α) (running : Nat) : Option (Nat × World α) :=
  match w.turn running 0 with
  | some next => some (running, next)
  | none => w.advanceFrom 0 w.threads.length

/-- Lets the threads run, for at most `limit` turns, until none of them can. -/
def settle : Nat → Nat → World α → World α
  | 0, _, w => w
  | limit + 1, running, w =>
    match w.advance running with
    | some (running, next) => settle limit running next
    | none => w

end World

/-- What became of one command: its answer unless it is still going on, the answers of earlier ones
that came in meanwhile, what was recorded meanwhile, and how the objects look afterwards. -/
structure Report (α : Type) where
  answer : Option (Answer α)
  late : List (Nat × Answer α)
  events : List String
  lines : List (Who × LogLine)
  state : Snapshot

/-- The report on the latest command, which led from `before` to `after`. -/
def Report.between (before after : World α) : Report α :=
  let index := before.steps
  let known := before.answers.map (·.1)
  let fresh := after.answers.filter fun (i, _) => !known.contains i
  let recorded := (after.history.take (after.history.length - before.history.length)).reverse
  { answer := fresh.lookup index
    late := fresh.filter fun (i, _) => i != index
    events := recorded.filterMap fun (_, entry) => entry.event?
    lines := recorded.filterMap fun (who, entry) => entry.line?.map (who, ·)
    state := after.store.snapshot }

/-- The commands to be given to a world that starts with a number of cells, all zero. -/
structure Scenario (α : Type) where
  cells : Nat
  commands : List (Command α)

namespace Scenario

/-- Gives the commands one by one. -/
def runFrom (w : World α) : List (Command α) → List (Report α)
  | [] => []
  | command :: rest =>
    let next := (w.issue command).settle patience w.threads.length
    Report.between w next :: runFrom next rest

def run (scenario : Scenario α) : List (Report α) :=
  runFrom (World.start (List.replicate scenario.cells 0)) scenario.commands

end Scenario

end WorkerPool
