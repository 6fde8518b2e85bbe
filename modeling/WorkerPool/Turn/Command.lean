import WorkerPool.Description
import WorkerPool.Turn.Calls
import WorkerPool.Turn.Lifetime
import WorkerPool.Turn.Submission

/-! The first turn of every command. Most commands are over with it. Those that call something that
may wait, or that perform functions, leave that to be done. What a command refers to beside its own
object is looked up first, so of two things that are not there that one is missed. -/

namespace WorkerPool

open Text (Style)

variable {α : Type}

namespace Effect

/-- The effect on an object that may not be there. -/
def withObject {β : Type} (s : Store α) (name : String) (object? : Option β) (f : β → Effect α) :
    Effect α :=
  match object? with
  | some object => f object
  | none => .fail s (.noSuchObject name)

/-- The effect with a job that may refer to one that is not there. -/
def withJob (s : Store α) (text : JobText) (f : Job → Effect α) : Effect α :=
  match text.resolve s.names.jobs.find? with
  | .ok job => f job
  | .error name => .fail s (.noSuchObject name)

/-- Functions performed by the caller itself. -/
def performing (s : Store α) (programs : List Program) : Effect α :=
  { store := s, ops := [.perform .caller programs, .answer (.ok .nothing)] }

end Effect

open Effect (withObject withJob performing)

def MonitorRequest.effect (s : Store α) (place : Nat) (m : Monitor Int) :
    MonitorRequest → Effect α
  | .store value => call (.update fun _ => value)
  | .wait => call (.wait .arriving)
  | .waitWhile condition => call (.waitWhile condition.judge .arriving)
  | .signal => call .signal
  | .broadcast => call .broadcast
  | .terminate => call .terminate
  | .terminateIf condition => call (.terminateIf fun value => (condition.judge value).map (·.2))
  | .poison =>
    match successor m.value with
    | .ok value =>
      .fail (s.setMonitor place { m with value }) (.panicked (.text "panicked under the lock"))
    | .error payload => .fail s (.panicked payload)
where
  call (call : Monitor.Call Int) : Effect α :=
    { store := s, ops := [.monitor place call] }

def ChannelRequest.effect (s : Store α) (place : Nat) (c : Channel α) :
    ChannelRequest α → Effect α
  | .send item => { store := s, ops := [.channel place (.offer item)] }
  | .receive => { store := s, ops := [.channel place (.receive .arriving)] }
  | .drain => { store := s, ops := [.channel place .drain] }
  | .terminate => { store := s, ops := [.channel place .terminate] }
  | .capacity => .succeed s (.count c.value.capacity)

def LatchRequest.effect (s : Store α) (place : Nat) (l : Latch) : LatchRequest → Effect α
  | .count failed =>
    { store := s, ops := [.latch place (.count failed) .nobody, .answer (.ok .nothing)] }
  | .terminate => { store := s, ops := [.latch place .terminate .nobody, .answer (.ok .nothing)] }
  | .wait => { store := s, ops := [.latch place (.wait .arriving) .caller] }
  | .describe style => .succeed s (.text (l.shape.describe style))

/-- A latch that waits for nothing performs its continuation before it exists. -/
def Latch.setUp (s : Store α) (name : String) (count : Nat) : Option Job → Effect α
  | some job =>
    if count = 0 then
      { store := s, ops := [.perform .caller job.programs, .construct (.latch name) true] }
    else make (some job)
  | none => make none
where
  make (continuation : Option Job) : Effect α :=
    let names := { s.names with latches := s.names.latches.insert name s.latches.length }
    .succeed { s.addLatch (Latch.expecting count continuation) with names } .nothing

def Store.keepJob (s : Store α) (name : String) (job : Job) : Store α :=
  { s with names := { s.names with jobs := s.names.jobs.insert name job } }

def JobRequest.effect (s : Store α) (name : String) : JobRequest → Effect α
  | .followBy next =>
    withJob s next fun next =>
      kept fun job => .succeed (s.keepJob name (job.followedBy next)) .nothing
  | .perform => kept fun job => performing s job.programs
  | .describe style => kept fun job => .succeed s (.job job (job.shape.describe style))
where
  kept : (Job → Effect α) → Effect α :=
    withObject s name (s.names.jobs.find? name)

def Store.keepBatch (s : Store α) (name : String) (b : Batch) : Store α :=
  { s with names := { s.names with batches := s.names.batches.insert name b } }

def BatchRequest.effect (s : Store α) (name : String) : BatchRequest → Effect α
  | .add job =>
    withJob s job fun job =>
      kept fun b =>
        match b.add? job with
        | some b => .succeed (s.keepBatch name b) (.count b.size)
        | none => .fail s (.panicked b.overflow)
  | .addProgram program =>
    kept fun b =>
      match b.addProgram? program with
      | some b => .succeed (s.keepBatch name b) (.flag b.waitable)
      | none => .fail s (.panicked b.overflow)
  | .setFinale job builder =>
    withJob s job fun job =>
      kept fun b =>
        .succeed (s.keepBatch name (b.setFinale job)) (if builder then .nothing else .count b.size)
  | .perform => kept fun b => performing s b.programs
  | .describe style => kept fun b => .succeed s (.batch b (b.shape.describe style))
where
  kept : (Batch → Effect α) → Effect α :=
    withObject s name (s.names.batches.find? name)

def PoolRequest.effect (around : Around) (s : Store α) (name : String) : PoolRequest → Effect α
  | .submit job ticket handover =>
    withJob s job fun job =>
      known fun place pool => Submission.ofJob s place pool job (.step ticket handover)
  | .submitBatch batch ticket =>
    withObject s batch (s.names.batches.find? batch) fun batch =>
      known fun place pool => Submission.ofBatch s place pool batch (.step ticket .released)
  | .awaitIdle =>
    known fun place pool =>
      .holding place
        { store := s
          ops := [.backlog place (.awaitIdle .arriving), .answer (.ok .nothing)]
          notes := [.line (.idleAwaited pool.name)] }
  | .shutDown =>
    known fun place pool =>
      .holding place
        { store := s
          ops := [.shutDown place .check, .answer (.ok .nothing)]
          notes := [.line (.poolShutDown pool.name)] }
  | .destroy =>
    known fun place _ =>
      if around.inUse place then .fail s .poolInUse
      else
        { store := { s with names := { s.names with pools := s.names.pools.erase name } }
          ops := [.release place, .answer (.ok .nothing)] }
  | .describe =>
    known fun _ pool => .succeed s (.pool pool.name pool.intake.value.capacity pool.threads)
where
  known (f : Nat → Pool → Effect α) : Effect α :=
    withObject s name (s.poolNamed? name) fun (place, pool) => f place pool

/-- What the holder of a ticket learns from its latch. -/
def Ticket.ask (s : Store α) (ticket : Ticket) (f : Latch → Value α) : Effect α :=
  match ticket.awaited with
  | .error payload => .fail s (.panicked payload)
  | .ok place =>
    match s.latches[place]? with
    | some latch => .succeed s (f latch)
    | none => { store := s }

/-- Waits for what a ticket stands for. -/
def Ticket.await (s : Store α) (ticket : Ticket) : Effect α :=
  let line :=
    match ticket with
    | .job id _ => LogLine.jobAwaited id
    | .batch id size _ _ => .batchAwaited id size
  match ticket.awaited with
  | .error payload => .fail s (.panicked payload) [.line line]
  | .ok place =>
    { store := s
      ops := [.latch place (.wait .arriving) (.ticket ticket.id)]
      notes := [.line line] }

/-- A ticket that is waited for is gone, whatever comes of it, even if the pool to wait through is
not there. -/
def TicketRequest.effect (s : Store α) (name : String) : TicketRequest → Effect α
  | .describe style =>
    kept s fun ticket => .succeed s (.ticket ticket ((ticket.shape s.latches).describe style))
  | .isComplete => kept s fun ticket => ticket.ask s fun latch => .flag latch.realized
  | .remaining =>
    match s.names.tickets.find? name with
    | some ticket@(.batch ..) => ticket.ask s fun latch => .count latch.value.remaining
    | _ => .fail s (.noSuchBatchTicket name)
  | .isBefore other =>
    kept s fun ticket =>
      withObject s other (s.names.tickets.find? other) fun other =>
        .succeed s (.flag (ticket.id < other.id))
  | .wait via =>
    let rest := { s with names := { s.names with tickets := s.names.tickets.erase name } }
    match via with
    | none => kept rest fun ticket => ticket.await rest
    | some pool =>
      withObject rest pool (s.names.pools.find? pool) fun place =>
        kept rest fun ticket => (ticket.await rest).holding place
where
  kept (left : Store α) : (Ticket → Effect α) → Effect α :=
    withObject left name (s.names.tickets.find? name)

def Store.keepSettings (s : Store α) (name : String) (settings : Settings) : Store α :=
  { s with names := { s.names with settings := s.names.settings.insert name settings } }

/-- The first turn of a command. -/
def Command.effect (around : Around) (s : Store α) : Command α → Effect α
  | .openGate gate => .succeed { s with openGates := gate :: s.openGates } .nothing
  | .readCells => .succeed s (.memory s.cells s.put)
  | .readStandards => .succeed s (.standards Settings.standard.capacity Settings.standard.name)
  | .newSettings name settings style =>
    .succeed (s.keepSettings name settings) (.settings settings (settings.shape.describe style))
  | .compareSettings left right =>
    withObject s left (s.names.settings.find? left) fun left =>
      withObject s right (s.names.settings.find? right) fun right =>
        .succeed s (.flag (left.agree right))
  | .newMonitor name value =>
    let names := { s.names with monitors := s.names.monitors.insert name s.monitors.length }
    .succeed { s with names, monitors := s.monitors ++ [{ value }] } .nothing
  | .onMonitor name request =>
    withObject s name (s.names.monitors.find? name) fun place =>
      withObject s name s.monitors[place]? fun m => request.effect s place m
  | .newChannel name capacity =>
    if capacity = 0 then .fail s (.panicked (.text "queue capacity must be at least 1"))
    else if !Footprint.message.fits capacity then .fail s (.panicked Footprint.overflow)
    else
      let names := { s.names with channels := s.names.channels.insert name s.channels.length }
      .succeed { s with names, channels := s.channels ++ [Channel.empty capacity] } .nothing
  | .onChannel name request =>
    withObject s name (s.names.channels.find? name) fun place =>
      withObject s name s.channels[place]? fun c => request.effect s place c
  | .newLatch name count none => Latch.setUp s name count none
  | .newLatch name count (some continuation) =>
    withJob s continuation fun job => Latch.setUp s name count (some job)
  | .aliasLatch name other =>
    withObject s other (s.names.latches.find? other) fun place =>
      let names := { s.names with latches := s.names.latches.insert name place }
      .succeed { s with names } .nothing
  | .onLatch name request =>
    withObject s name (s.latchNamed? name) fun (place, l) => request.effect s place l
  | .newJob name job => withJob s job fun job => .succeed (s.keepJob name job) .nothing
  | .onJob name request => request.effect s name
  | .newBatch name capacity waitable =>
    if Footprint.member.fits capacity then
      .succeed (s.keepBatch name { capacity, waitable }) .nothing
    else .fail s (.panicked Footprint.overflow)
  | .newFullBatch name programs waitable =>
    match Batch.ofPrograms? programs waitable with
    | some b => .succeed (s.keepBatch name b) .nothing
    | none => .fail s (.panicked (Batch.overflow { capacity := programs.length, waitable }))
  | .copyBatch name other =>
    withObject s other (s.names.batches.find? other) fun b => .succeed (s.keepBatch name b) .nothing
  | .onBatch name request => request.effect s name
  | .newPool name (.given settings) => Pool.setUp s name settings
  | .newPool name (.named source) =>
    withObject s source (s.names.settings.find? source) fun settings => Pool.setUp s name settings
  | .onPool name request => request.effect around s name
  | .onTicket name request => request.effect s name
  | .unknown word => .fail s (.noSuchRequest word)

end WorkerPool
