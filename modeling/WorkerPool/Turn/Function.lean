import WorkerPool.Snapshot
import WorkerPool.Turn.Submission

/-! The turns of the functions of jobs. Calling a function, carrying out one of its actions and
returning from it are turns of their own. An action that makes a call leaves the call in front of
the rest of the function. -/

namespace WorkerPool

variable {α : Type}

/-- What happens instead of an action on an object that is not there. -/
def Action.missing (s : Store α) (name : String) : Effect α :=
  { store := s, notes := [.event ("missing " ++ name)] }

/-- One action in the thread called `self`. It cannot be carried out while it stands before a closed
gate. -/
def Action.effect (s : Store α) (self : String) : Action → Option (Effect α)
  | .say event => some { store := s, notes := [.event event] }
  | .sayThread => some { store := s, notes := [.event ("@" ++ self)] }
  | .passGate gate => if s.openGates.contains gate then some { store := s } else none
  | .openGate gate => some { store := { s with openGates := gate :: s.openGates } }
  | .panic payload => some { store := s, panic := some payload }
  | .write index value =>
    some (
      if index < s.cells.length then { store := { s with cells := s.cells.set index value } }
      else
        { store := s
          panic := some (.text ("index out of bounds: the len is " ++ toString s.cells.length ++
            " but the index is " ++ toString index)) })
  | .put value => some { store := { s with put := value } }
  | .count name failed =>
    some (match s.names.latches.find? name with
      | some place => { store := s, ops := [.latch place (.count failed) .nobody] }
      | none => missing s name)
  | .terminate name =>
    some (match s.names.latches.find? name with
      | some place => { store := s, ops := [.latch place .terminate .nobody] }
      | none => missing s name)
  | .inspectLatch name =>
    some (match s.latchNamed? name with
      | some (_, latch) => { store := s, notes := [.event (name ++ " " ++ latch.view.text)] }
      | none => missing s name)
  | .inspectPool name =>
    some (match s.poolNamed? name with
      | some (_, pool) => { store := s, notes := [.event (name ++ " " ++ pool.view.text)] }
      | none => missing s name)
  | .shutDown name =>
    some (match s.poolNamed? name with
      | some (place, pool) =>
        .holding place
          { store := s
            ops := [.shutDown place .check]
            notes := [.line (.poolShutDown pool.name)] }
      | none => missing s name)
  | .submit name job =>
    some (match job.resolve s.names.jobs.find? with
      | .ok job =>
        match s.poolNamed? name with
        | some (place, pool) => Submission.ofJob s place pool job .function
        | none => missing s name
      | .error unknown => missing s unknown)
  | .perform name =>
    some (match s.names.jobs.find? name with
      | some job => { store := s, ops := [.perform .caller job.programs] }
      | none => missing s name)

/-- One turn of a chain of functions. -/
def Program.effect (s : Store α) (self : String) (origin : Origin) (position : Nat) :
    Option Program → List Program → Option (Effect α)
  | none, [] => some { store := s }
  | none, program :: later =>
    some {
      store := s
      ops := [.code origin (position + 1) (some program) later]
      notes := [.called origin position program] }
  | some [], later =>
    some {
      store := s
      ops := [.code origin position none later]
      notes := [.returned origin (position - 1)] }
  | some (action :: rest), later =>
    (action.effect s self).map fun effect =>
      { effect with ops := effect.ops ++ [.code origin position (some rest) later] }

/-- What a panic leaves of the things a thread had to do, and the notes it leaves behind. It ends
every function it passes. It is caught where a worker performs a job and where a continuation is
performed, and both remember it. Without anything to catch it the thread ends. -/
def unwind (payload : Payload) : List (Op α) → List Entry × Option (List (Op α))
  | [] => ([], none)
  | .code origin position (some _) _ :: rest =>
    let (notes, left) := unwind payload rest
    (.raised origin (position - 1) :: notes, left)
  | .latch place (.running job _) waiter :: rest =>
    ([.line (.continuationPanicked payload)],
      some (.latch place (.running job false) waiter :: rest))
  | .construct construction _ :: rest =>
    ([.line (.continuationPanicked payload)], some (.construct construction false :: rest))
  | .work place index (.running item _) :: rest =>
    ([], some (.work place index (.running item (some payload)) :: rest))
  | _ :: rest => unwind payload rest

end WorkerPool
