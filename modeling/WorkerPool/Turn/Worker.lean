import WorkerPool.Op

/-! The life of a worker, and the end of its pool. A worker reports for duty and then handles one
item after the other: it takes the item, sets its busy flag, performs the job, tells the item's
latch how that went, clears the flag and counts the item out of the backlog. It ends when the intake
is terminated.

A shutdown terminates the intake and then drains it. What it drains is discarded item by item: the
latch hears of a failure and the backlog of a departure. Of several shutdowns, those that find the
intake terminated do nothing. -/

namespace WorkerPool

variable {α : Type}

namespace WorkerPhase

/-- What a worker has to do after a turn of its receive. -/
def afterReceive (place index : Nat) : Next (Channel.Call Item) (Channel.Reply Item) → List (Op α)
  | .goes call => [.work place index (.receive call)]
  | .returns (.received (some item)) => [.work place index (.begin item)]
  | .returns _ => []

/-- What is recorded of a turn of a receive: the item, if the turn took one out of the ring, or that
the worker stops. -/
def receiveNotes (place : Nat) : Next (Channel.Call Item) (Channel.Reply Item) → List Entry
  | .goes (.announce (.received (some item))) => [.taken place item]
  | .goes _ | .returns (.received (some _)) => []
  | .returns _ => [.line .workerStopped]

/-- One turn of the worker at `index` of `pool`. -/
def effect (s : Store α) (place : Nat) (pool : Pool) (index : Nat) :
    WorkerPhase → Option (Effect α)
  | .start =>
    some {
      store := s
      ops := [
        .latch pool.started (.count false) .nobody,
        .work place index (.receive (.receive .arriving))]
      notes := [.line (.workerSpan pool.name index), .line .workerStarted] }
  | .receive call =>
    (call.turn pool.intake).map fun turned =>
      { store := s.setPool place { pool with intake := turned.object }
        ops := afterReceive place index turned.next
        notes := receiveNotes place turned.next
        alarm := .of (.intake place) turned.wake }
  | .begin item =>
    some {
      store := s.setPool place { pool with busy := pool.busy.set index true }
      ops := [
        .perform (.item place item.id) item.job.programs,
        .work place index (.running item none)]
      notes := [.line (.jobStarted item.id)] }
  | .running item none =>
    some {
      store := s
      ops := Op.complete item.latch false ++ [.work place index (.finish item true)] }
  | .running item (some payload) =>
    some {
      store := s
      ops := Op.complete item.latch true ++ [.work place index (.finish item false)]
      notes := [.line (.jobPanicked item.id payload)] }
  | .finish item succeeded =>
    some {
      store := s.setPool place { pool with busy := pool.busy.set index false }
      ops := [.backlog place .leave, .work place index (.receive (.receive .arriving))]
      notes := if succeeded then [.line (.jobFinished item.id)] else [] }

end WorkerPhase

namespace ShutdownPhase

/-- What a shutdown has to do after a turn of its call on the intake. -/
def afterCall (place : Nat) : Next (Channel.Call Item) (Channel.Reply Item) → List (Op α)
  | .goes intakeCall => [.shutDown place (.call intakeCall)]
  | .returns (.drained items) => items.flatMap (Op.discard place) ++ [.shutDown place .done]
  | .returns _ => [.shutDown place (.call .drain)]

/-- What is recorded of a turn of such a call: the items that it took out of the ring, and a line on
their number if there were any. -/
def callNotes (place : Nat) (pool : Pool) :
    Next (Channel.Call Item) (Channel.Reply Item) → List Entry
  | .goes (.announce (.drained items)) => items.map (.discarded place)
  | .returns (.drained items) =>
    if items.isEmpty then [] else [.line (.itemsAbandoned pool.name items.length)]
  | _ => []

/-- One turn of a shutdown of `pool`. -/
def effect (s : Store α) (place : Nat) (pool : Pool) : ShutdownPhase → Option (Effect α)
  | .check =>
    some {
      store := s
      ops := [.shutDown place (if pool.isDown then .done else .call .terminate)] }
  | .call intakeCall =>
    (intakeCall.turn pool.intake).map fun turned =>
      { store := s.setPool place { pool with intake := turned.object }
        ops := afterCall place turned.next
        notes := callNotes place pool turned.next
        alarm := .of (.intake place) turned.wake }
  | .done => some { store := s }

end ShutdownPhase

end WorkerPool
