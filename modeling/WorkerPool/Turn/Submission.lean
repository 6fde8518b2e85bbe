import WorkerPool.Op

/-! Submitting to a pool. An item is counted into the backlog before it is sent, so the backlog
never falls behind what is in the pool. A job that may be waited for gets a latch of its own. The
members of a batch share one latch, which also holds the finale; the batch gets it if somebody may
wait for the batch or if there is a finale.

If an item is not accepted, the submission as a whole is refused. The item and every member behind
it are counted as failed, and a batch that has a latch first waits for the members that were
accepted before. -/

namespace WorkerPool

variable {α : Type}

namespace Submission

/-- The first turn of the submission of a job. -/
def ofJob (s : Store α) (place : Nat) (pool : Pool) (job : Job) (asker : Asker) : Effect α :=
  let id := pool.nextId
  let latch := if job.waitable then some s.latches.length else none
  let latches := if job.waitable then [Latch.expecting 1 none] else []
  let ticket := Ticket.job id latch
  { store := { s with latches := s.latches ++ latches }.setPool place { pool with nextId := id + 1 }
    ops := [.submit { pool := place, asker, ticket } (.enlist { id, job, latch })]
    notes := [
      .issued place id (.job job),
      .ticketed place ticket,
      .line (.jobAdded pool.name id job.waitable)] }

/-- Goes on to the members of a batch after its latch, if any, has been made. -/
def ofMembers (s : Store α) (place : Nat) (pool : Pool) (batch : Batch) (id : Nat)
    (latch : Option Nat) (asker : Asker) (notes : List Entry) : Effect α :=
  let ticket := Ticket.batch id batch.size batch.waitable latch
  { store := s
    ops := [.submit { pool := place, asker, ticket, rest := batch.members } .next]
    notes := notes ++ [
      .ticketed place ticket,
      .line (.batchAdded pool.name id batch.size batch.waitable)] }

/-- The first turn of the submission of a batch. The finale of a batch without members is performed
right away, before the latch is made. -/
def ofBatch (s : Store α) (place : Nat) (pool : Pool) (batch : Batch) (asker : Asker) : Effect α :=
  let id := pool.nextId
  let store := s.setPool place { pool with nextId := id + 1 }
  let issued := Entry.issued place id (.batch batch)
  match batch.finale, batch.members with
  | some job, [] =>
    { store
      ops := [
        .perform (.batch place id) job.programs,
        .construct (.submission place batch id asker) true]
      notes := [issued] }
  | finale, _ =>
    if finale.isSome || batch.waitable then
      ofMembers (store.addLatch (Latch.expecting batch.size finale)) place pool batch id
        (some s.latches.length) asker [issued]
    else ofMembers store place pool batch id none asker [issued]

/-- The end of a submission that was accepted: the asker gets the ticket. -/
def accept (s : Store α) (submission : Submission) : Effect α :=
  match submission.asker with
  | .step name .holding =>
    { store := s, ops := [.hand submission.ticket name, .release submission.pool] }
  | .step name .released =>
    { store := s, ops := [.release submission.pool, .hand submission.ticket name] }
  | .function =>
    { store := s
      ops := [.release submission.pool]
      notes := [.event ("submitted " ++ idText submission.ticket.id)] }

def refuse (s : Store α) (submission : Submission) : Effect α :=
  match submission.asker with
  | .step .. =>
    { store := s, ops := [.release submission.pool, .answer (.error .poolTerminated)] }
  | .function =>
    let words := ((Failure.poolTerminated : Failure α).message?).getD ""
    { store := s
      ops := [.release submission.pool]
      notes := [.event ("rejected " ++ words)] }

/-- What follows once the item that was given back has been settled. -/
def afterRefusal (submission : Submission) : List (Op α) :=
  match submission.ticket with
  | .batch _ _ _ (some latch) =>
    submission.rest.map (fun _ => .latch latch (.count true) .nobody) ++
      [.latch latch (.wait .arriving) (.refused submission)]
  | _ => [.submit submission .refused]

end Submission

namespace SubmissionPhase

/-- Where a submission stands after a turn of its send. -/
def afterSend : Next (Channel.Call Item) (Channel.Reply Item) → SubmissionPhase
  | .goes call => .send call
  | .returns (.givenBack item) => .refuse item
  | .returns _ => .next

/-- What is recorded of a turn of a send: the item, if the turn put it into the ring. -/
def sendNotes (place : Nat) :
    Channel.Call Item → Next (Channel.Call Item) (Channel.Reply Item) → List Entry
  | .send item _, .goes (.announce .sent) => [.pushed place item]
  | _, _ => []

/-- One turn of a submission to `pool`. -/
def effect (s : Store α) (pool : Pool) (submission : Submission) :
    SubmissionPhase → Option (Effect α)
  | .next =>
    match submission.rest with
    | [] => some (submission.accept s)
    | job :: rest =>
      let id := pool.nextId
      some {
        store := s.setPool submission.pool { pool with nextId := id + 1 }
        ops := [
          .submit { submission with rest } (.enlist { id, job, latch := submission.ticket.latch })]
        notes := [.issued submission.pool id (.member submission.ticket.id job)] }
  | .enlist item =>
    (Backlog.Call.enlist.turn pool.backlog).map fun turned =>
      { store := s.setPool submission.pool { pool with backlog := turned.object }
        ops := [.submit submission (.send (.offer item))] }
  | .send call =>
    (call.turn pool.intake).map fun turned =>
      { store := s.setPool submission.pool { pool with intake := turned.object }
        ops := [.submit submission (afterSend turned.next)]
        notes := sendNotes submission.pool call turned.next
        alarm := .of (.intake submission.pool) turned.wake }
  | .refuse item =>
    some {
      store := s
      ops := Op.discard submission.pool item ++ submission.afterRefusal
      notes := [.refused submission.pool item, .line (.rejected pool.name item.id)] }
  | .refused => some (submission.refuse s)

end SubmissionPhase

/-- A ticket is given to the step that has submitted something, which may keep it under a name. -/
def Ticket.hand (s : Store α) (ticket : Ticket) : Option String → Effect α
  | none => .succeed s (.submitted ticket)
  | some name =>
    let names := { s.names with tickets := s.names.tickets.insert name ticket }
    .succeed { s with names } (.submitted ticket)

/-- The turn after a continuation without anything to wait for has been performed: what it stood in
the way of is made, with a latch that is settled already. -/
def Construction.effect (s : Store α) (succeeded : Bool) : Construction → Option (Effect α)
  | .latch name =>
    let names := { s.names with latches := s.names.latches.insert name s.latches.length }
    some (.succeed { s.addLatch (Latch.settled succeeded) with names } .nothing)
  | .submission place batch id asker =>
    s.pools[place]?.map fun pool =>
      Submission.ofMembers (s.addLatch (Latch.settled succeeded)) place pool batch id
        (some s.latches.length) asker []

end WorkerPool
