import WorkerPool.Proofs.Calls
import WorkerPool.Proofs.Lookup
import WorkerPool.Proofs.RingOrder
import WorkerPool.World

/-! What a turn can do, said once. `Deed` lists every turn that an operation can take, with the
condition under which it takes it and the effect that the turn then has. All that is proved about
the turns of a world is proved by going through this list, so that nothing but this module looks
into the definitions of the effects.

The turns of commands and actions that touch neither a pool nor a latch are one entry each: it says
which lists of operations they leave behind, and that they change nothing but memory and names. -/

namespace WorkerPool

variable {α : Type}

namespace Store

@[simp] theorem setLatch_pools (s : Store α) (place : Nat) (l : Latch) :
    (s.setLatch place l).pools = s.pools := rfl

@[simp] theorem setLatch_latches (s : Store α) (place : Nat) (l : Latch) :
    (s.setLatch place l).latches = s.latches.set place l := rfl

@[simp] theorem setLatch_names (s : Store α) (place : Nat) (l : Latch) :
    (s.setLatch place l).names = s.names := rfl

@[simp] theorem setPool_pools (s : Store α) (place : Nat) (p : Pool) :
    (s.setPool place p).pools = s.pools.set place p := rfl

@[simp] theorem setPool_latches (s : Store α) (place : Nat) (p : Pool) :
    (s.setPool place p).latches = s.latches := rfl

@[simp] theorem setPool_names (s : Store α) (place : Nat) (p : Pool) :
    (s.setPool place p).names = s.names := rfl

@[simp] theorem addLatch_pools (s : Store α) (l : Latch) : (s.addLatch l).pools = s.pools := rfl

@[simp] theorem addLatch_latches (s : Store α) (l : Latch) :
    (s.addLatch l).latches = s.latches ++ [l] := rfl

@[simp] theorem addLatch_names (s : Store α) (l : Latch) : (s.addLatch l).names = s.names := rfl

private theorem set_self {β : Type} {l : List β} {i : Nat} {x : β} (h : l[i]? = some x) :
    l.set i x = l := by
  obtain ⟨hi, rfl⟩ := List.getElem?_eq_some_iff.mp h
  exact List.set_getElem_self hi

theorem setLatch_self {s : Store α} {place : Nat} {l : Latch} (h : s.latches[place]? = some l) :
    s.setLatch place l = s := by
  rw [setLatch, set_self h]

theorem setPool_self {s : Store α} {place : Nat} {p : Pool} (h : s.pools[place]? = some p) :
    s.setPool place p = s := by
  rw [setPool, set_self h]

/-- Some name stands for the latch at `place`. -/
def NamesLatch (s : Store α) (place : Nat) : Prop :=
  ∃ name, s.names.latches.find? name = some place

/-- Some name stands for the pool at `place`. -/
def NamesPool (s : Store α) (place : Nat) : Prop :=
  ∃ name, s.names.pools.find? name = some place

/-- The ticket is kept under some name. -/
def Keeps (s : Store α) (ticket : Ticket) : Prop :=
  ∃ name, s.names.tickets.find? name = some ticket

theorem of_poolNamed? {s : Store α} {name : String} {place : Nat} {pool : Pool}
    (h : s.poolNamed? name = some (place, pool)) :
    s.names.pools.find? name = some place ∧ s.pools[place]? = some pool := by
  simp only [poolNamed?, bind, Option.bind_eq_some_iff, pure, Option.some.injEq,
    Prod.mk.injEq] at h
  obtain ⟨_, hname, _, hpool, rfl, rfl⟩ := h
  exact ⟨hname, hpool⟩

/-- `s'` is `s` but for memory, monitors, channels, jobs, batches and settings, and for names that
are new for what had a name before or are given up. -/
structure Eases (s s' : Store α) : Prop where
  pools : s'.pools = s.pools
  latches : s'.latches = s.latches
  latchNames : ∀ place, s'.NamesLatch place → s.NamesLatch place
  poolTable : s'.names.pools = s.names.pools ∨
    ∃ name, s'.names.pools = s.names.pools.erase name
  tickets : ∀ ticket, s'.Keeps ticket → s.Keeps ticket

theorem Eases.refl (s : Store α) : s.Eases s :=
  ⟨rfl, rfl, fun _ h => h, .inl rfl, fun _ h => h⟩

theorem Eases.poolNames {s s' : Store α} (eases : s.Eases s') {place : Nat}
    (named : s'.NamesPool place) : s.NamesPool place := by
  obtain ⟨name, named⟩ := named
  rcases eases.poolTable with same | ⟨erased, same⟩
  · exact ⟨name, same ▸ named⟩
  · exact ⟨name, Table.of_find?_erase (same ▸ named)⟩

end Store

/-- Lines that say nothing of a single item. -/
def LogLine.Plain : LogLine → Prop
  | .rejected .. | .jobStarted .. | .jobFinished .. | .jobPanicked .. | .itemsAbandoned .. => False
  | _ => True

/-- Entries that keep track of nothing. -/
def Entry.Plain : Entry → Prop
  | .event .. => True
  | .line written => written.Plain
  | _ => False

/-- The calls on an intake that belong to a submission. -/
def Channel.Call.Sends : Channel.Call α → Prop
  | .offer _ | .send _ _ | .announce .sent => True
  | _ => False

/-- The calls on an intake that belong to a worker. -/
def Channel.Call.Receives : Channel.Call α → Prop
  | .receive _ | .announce (.received (some _)) => True
  | _ => False

/-- The calls on an intake that belong to a shutdown. -/
def Channel.Call.Closes : Channel.Call α → Prop
  | .terminate | .drain | .announce (.drained _) => True
  | _ => False

/-- An operation makes only the calls that are its own, and only a wait is made for somebody. -/
def Op.Proper : Op α → Prop
  | .submit _ (.send call) => call.Sends
  | .work _ _ (.receive call) => call.Receives
  | .shutDown _ (.call call) => call.Closes
  | .backlog _ .enlist => False
  | .latch _ (.wait _) waiter => waiter ≠ .nobody
  | .latch _ _ waiter => waiter = .nobody
  | _ => True

/-- What a command leaves to do if it neither submits anything nor makes a pool. -/
inductive Command.Leaves (s : Store α) : List (Op α) → Prop
  | nothing : Leaves s []
  | monitor (place : Nat) (call : Monitor.Call Int) (awake : call.asleep = false) :
      Leaves s [.monitor place call]
  | channel (place : Nat) (call : Channel.Call α) (awake : call.asleep = false) :
      Leaves s [.channel place call]
  | count (place : Nat) (failed : Bool) (answer : Answer α) (named : s.NamesLatch place) :
      Leaves s [.latch place (.count failed) .nobody, .answer answer]
  | terminate (place : Nat) (answer : Answer α) (named : s.NamesLatch place) :
      Leaves s [.latch place .terminate .nobody, .answer answer]
  | wait (place : Nat) (named : s.NamesLatch place) :
      Leaves s [.latch place (.wait .arriving) .caller]
  | perform (programs : List Program) (answer : Answer α) :
      Leaves s [.perform .caller programs, .answer answer]
  | construct (programs : List Program) (name : String) :
      Leaves s [.perform .caller programs, .construct (.latch name) true]
  | idle (place : Nat) (answer : Answer α) (named : s.NamesPool place) :
      Leaves s [.backlog place (.awaitIdle .arriving), .answer answer, .release place]
  | shutDown (place : Nat) (answer : Answer α) (named : s.NamesPool place) :
      Leaves s [.shutDown place .check, .answer answer, .release place]
  | destroy (place : Nat) (answer : Answer α) (named : s.NamesPool place) :
      Leaves s [.release place, .answer answer]
  | letGo (place : Nat) (named : s.NamesPool place) : Leaves s [.release place]
  | ticket (ticket : Ticket) (place : Nat) (kept : s.Keeps ticket)
      (awaited : ticket.awaited = .ok place) :
      Leaves s [.latch place (.wait .arriving) (.ticket ticket.id)]
  | ticketVia (ticket : Ticket) (place pool : Nat) (kept : s.Keeps ticket)
      (awaited : ticket.awaited = .ok place) (named : s.NamesPool pool) :
      Leaves s [.latch place (.wait .arriving) (.ticket ticket.id), .release pool]

/-- What an action leaves to do in front of the rest of its function if it does not submit. -/
inductive Action.Leaves (s : Store α) : List (Op α) → Prop
  | nothing : Leaves s []
  | count (place : Nat) (failed : Bool) (named : s.NamesLatch place) :
      Leaves s [.latch place (.count failed) .nobody]
  | terminate (place : Nat) (named : s.NamesLatch place) :
      Leaves s [.latch place .terminate .nobody]
  | shutDown (place : Nat) (named : s.NamesPool place) :
      Leaves s [.shutDown place .check, .release place]
  | perform (programs : List Program) : Leaves s [.perform .caller programs]

/-- The operations that submit a job, with what stands behind the submission. -/
inductive Op.Submits : Op α → List (Op α) → Asker → Prop
  | command (command : Command α) (name : Option String) (handover : Handover) :
      Submits (.command command) [] (.step name handover)
  | action (origin : Origin) (position : Nat) (action : Action) (rest : Program)
      (later : List Program) :
      Submits (.code origin position (some (action :: rest)) later)
        [.code origin position (some rest) later] .function

/-- The operation presents a job or a batch to the pool at `place`, which a name stands for: a command
the job that its text stands for or the batch that is kept under a name, an action only a job. -/
inductive Op.Presents (s : Store α) (place : Nat) (pool : Pool) : Op α → Asker → Issue → Prop
  | job (name : String) (text : JobText) (ticket : Option String) (handover : Handover) (job : Job)
      (known : s.poolNamed? name = some (place, pool))
      (resolved : text.resolve s.names.jobs.find? = .ok job) :
      Presents s place pool (.command (.onPool name (.submit text ticket handover)))
        (.step ticket handover) (.job job)
  | batch (name kept : String) (ticket : Option String) (batch : Batch)
      (known : s.poolNamed? name = some (place, pool))
      (found : s.names.batches.find? kept = some batch) :
      Presents s place pool (.command (.onPool name (.submitBatch kept ticket)))
        (.step ticket .released) (.batch batch)
  | action (origin : Origin) (position : Nat) (name : String) (text : JobText) (rest : Program)
      (later : List Program) (job : Job) (known : s.poolNamed? name = some (place, pool))
      (resolved : text.resolve s.names.jobs.find? = .ok job) :
      Presents s place pool (.code origin position (some (.submit name text :: rest)) later)
        .function (.job job)

/-- What is left when a submission has been accepted. -/
inductive Submission.Hands (submission : Submission) : List (Op α) → Prop
  | early (name : Option String) (asked : submission.asker = .step name .holding) :
      Hands submission [.hand submission.ticket name, .release submission.pool]
  | late (name : Option String) (asked : submission.asker = .step name .released) :
      Hands submission [.release submission.pool, .hand submission.ticket name]
  | function (asked : submission.asker = .function) : Hands submission [.release submission.pool]

/-- What is left when a submission has been refused. -/
inductive Submission.Refuses (submission : Submission) : List (Op α) → Prop
  | step (name : Option String) (handover : Handover) (answer : Answer α)
      (asked : submission.asker = .step name handover) :
      Refuses submission [.release submission.pool, .answer answer]
  | function (asked : submission.asker = .function) : Refuses submission [.release submission.pool]

/-- What a wait on the latch is told if it does not have to sleep. -/
def Latch.Judges (l : Latch) (succeeded : Bool) : Prop :=
  (l.value.remaining = 0 ∧ succeeded = !l.value.failed) ∨ (l.terminated = true ∧ succeeded = false)

/-- Every turn that an operation can take. -/
inductive Deed (around : Around) (s : Store α) (who : Who) : Op α → Effect α → Prop
  -- commands
  | commanded (command : Command α) {s' : Store α} {ops : List (Op α)} {notes : List Entry}
      {answer : Option (Answer α)} (eases : s.Eases s') (leaves : Command.Leaves s ops)
      (plain : ∀ note ∈ notes, note.Plain) :
      Deed around s who (.command command) { store := s', ops, notes, answer }
  | latchMade (command : Command α) (name : String) (count : Nat) (continuation : Option Job)
      {answer : Option (Answer α)} (held : count = 0 → continuation = none) :
      Deed around s who (.command command)
        { store := { s.addLatch (Latch.expecting count continuation) with
            names := { s.names with latches := s.names.latches.insert name s.latches.length } }
          answer }
  | poolMade (command : Command α) (name : String) (settings : Settings)
      (capacity : 0 < settings.capacity) (threads : 0 < settings.threadCount) :
      Deed around s who (.command command)
        { store := { s.addLatch (Latch.expecting settings.threadCount none) with
            pools := s.pools ++ [{
              name := settings.name
              intake := Channel.empty settings.capacity
              busy := List.replicate settings.threadCount false
              started := s.latches.length }] }
          ops := [.spawn s.pools.length 0 name]
          notes := [.line (.poolCreated settings.name settings.capacity settings.threadCount)] }
  -- submissions that begin
  | jobAdded {op : Op α} {rest : List (Op α)} {asker : Asker} (submits : op.Submits rest asker)
      (place : Nat) (pool : Pool) (job : Job) (found : s.pools[place]? = some pool)
      (waitable : job.waitable = true) (named : s.NamesPool place)
      (presents : op.Presents s place pool asker (.job job)) :
      Deed around s who op
        { store :=
            (s.addLatch (Latch.expecting 1 none)).setPool place
              { pool with nextId := pool.nextId + 1 }
          ops := [
            .submit { pool := place, asker, ticket := .job pool.nextId (some s.latches.length) }
              (.enlist { id := pool.nextId, job, latch := some s.latches.length })] ++ rest
          notes := [
            .issued place pool.nextId (.job job),
            .ticketed place (.job pool.nextId (some s.latches.length)),
            .line (.jobAdded pool.name pool.nextId true)] }
  | freeJobAdded {op : Op α} {rest : List (Op α)} {asker : Asker} (submits : op.Submits rest asker)
      (place : Nat) (pool : Pool) (job : Job) (found : s.pools[place]? = some pool)
      (free : job.waitable = false) (named : s.NamesPool place)
      (presents : op.Presents s place pool asker (.job job)) :
      Deed around s who op
        { store := s.setPool place { pool with nextId := pool.nextId + 1 }
          ops := [
            .submit { pool := place, asker, ticket := .job pool.nextId none }
              (.enlist { id := pool.nextId, job, latch := none })] ++ rest
          notes := [
            .issued place pool.nextId (.job job),
            .ticketed place (.job pool.nextId none),
            .line (.jobAdded pool.name pool.nextId false)] }
  | batchAdded (command : Command α) (place : Nat) (pool : Pool) (batch : Batch)
      (ticket : Option String) (found : s.pools[place]? = some pool)
      (counted : batch.finale.isSome ∨ batch.waitable = true)
      (ahead : batch.finale.isSome → batch.members ≠ []) (named : s.NamesPool place)
      (presents : (Op.command command).Presents s place pool (.step ticket .released)
        (.batch batch)) :
      Deed around s who (.command command)
        { store :=
            (s.setPool place { pool with nextId := pool.nextId + 1 }).addLatch
              (Latch.expecting batch.size batch.finale)
          ops := [
            .submit
              { pool := place
                asker := .step ticket .released
                ticket := .batch pool.nextId batch.size batch.waitable (some s.latches.length)
                rest := batch.members }
              .next]
          notes := [
            .issued place pool.nextId (.batch batch),
            .ticketed place
              (.batch pool.nextId batch.size batch.waitable (some s.latches.length)),
            .line (.batchAdded pool.name pool.nextId batch.size batch.waitable)] }
  | freeBatchAdded (command : Command α) (place : Nat) (pool : Pool) (batch : Batch)
      (ticket : Option String) (found : s.pools[place]? = some pool)
      (bare : batch.finale = none) (free : batch.waitable = false) (named : s.NamesPool place)
      (presents : (Op.command command).Presents s place pool (.step ticket .released)
        (.batch batch)) :
      Deed around s who (.command command)
        { store := s.setPool place { pool with nextId := pool.nextId + 1 }
          ops := [
            .submit
              { pool := place
                asker := .step ticket .released
                ticket := .batch pool.nextId batch.size batch.waitable none
                rest := batch.members }
              .next]
          notes := [
            .issued place pool.nextId (.batch batch),
            .ticketed place (.batch pool.nextId batch.size batch.waitable none),
            .line (.batchAdded pool.name pool.nextId batch.size batch.waitable)] }
  | emptyBatchAdded (command : Command α) (place : Nat) (pool : Pool) (batch : Batch) (job : Job)
      (ticket : Option String) (found : s.pools[place]? = some pool)
      (finale : batch.finale = some job) (empty : batch.members = []) (named : s.NamesPool place)
      (presents : (Op.command command).Presents s place pool (.step ticket .released)
        (.batch batch)) :
      Deed around s who (.command command)
        { store := s.setPool place { pool with nextId := pool.nextId + 1 }
          ops := [
            .perform (.batch place pool.nextId) job.programs,
            .construct (.submission place batch pool.nextId (.step ticket .released)) true]
          notes := [.issued place pool.nextId (.batch batch)] }
  | latchSettled (name : String) (succeeded : Bool) {answer : Option (Answer α)} :
      Deed around s who (.construct (.latch name) succeeded)
        { store := { s.addLatch (Latch.settled succeeded) with
            names := { s.names with latches := s.names.latches.insert name s.latches.length } }
          answer }
  | batchSettled (place : Nat) (pool : Pool) (batch : Batch) (id : Nat) (asker : Asker)
      (succeeded : Bool) (found : s.pools[place]? = some pool) :
      Deed around s who (.construct (.submission place batch id asker) succeeded)
        { store := s.addLatch (Latch.settled succeeded)
          ops := [
            .submit
              { pool := place
                asker
                ticket := .batch id batch.size batch.waitable (some s.latches.length)
                rest := batch.members }
              .next]
          notes := [
            .ticketed place (.batch id batch.size batch.waitable (some s.latches.length)),
            .line (.batchAdded pool.name id batch.size batch.waitable)] }
  -- functions
  | codeOver (origin : Origin) (position : Nat) :
      Deed around s who (.code origin position none []) { store := s }
  | codeCalled (origin : Origin) (position : Nat) (program : Program) (later : List Program) :
      Deed around s who (.code origin position none (program :: later))
        { store := s
          ops := [.code origin (position + 1) (some program) later]
          notes := [.called origin position program] }
  | codeReturned (origin : Origin) (position : Nat) (later : List Program) :
      Deed around s who (.code origin position (some []) later)
        { store := s
          ops := [.code origin position none later]
          notes := [.returned origin (position - 1)] }
  | acted (origin : Origin) (position : Nat) (action : Action) (rest : Program)
      (later : List Program) {s' : Store α} {ops : List (Op α)} {notes : List Entry}
      (eases : s.Eases s') (leaves : Action.Leaves s ops) (plain : ∀ note ∈ notes, note.Plain) :
      Deed around s who (.code origin position (some (action :: rest)) later)
        { store := s', ops := ops ++ [.code origin position (some rest) later], notes }
  | actionRaised (origin : Origin) (position : Nat) (action : Action) (rest : Program)
      (later : List Program) (payload : Payload) :
      Deed around s who (.code origin position (some (action :: rest)) later)
        { store := s
          ops := [.code origin position (some rest) later]
          panic := some payload }
  -- calls on objects that no pool has
  | monitorTurned (place : Nat) (call : Monitor.Call Int) {m : Monitor Int} {ops : List (Op α)}
      {wake : Wake} {answer : Option (Answer α)}
      (left : ops = [] ∨ ∃ call, ops = [.monitor place call]) :
      Deed around s who (.monitor place call)
        { store := s.setMonitor place m, ops, alarm := .of (.monitor place) wake, answer }
  | channelTurned (place : Nat) (call : Channel.Call α) {c : Channel α} {ops : List (Op α)}
      {wake : Wake} {answer : Option (Answer α)}
      (left : ops = [] ∨ ∃ call, ops = [.channel place call]) :
      Deed around s who (.channel place call)
        { store := s.setChannel place c, ops, alarm := .of (.channel place) wake, answer }
  -- calls on latches
  | countIgnored (place : Nat) (l : Latch) (failed : Bool) (found : s.latches[place]? = some l)
      (idle : l.counts = false) :
      Deed around s who (.latch place (.count failed) .nobody) { store := s }
  | countSkipped (place : Nat) (l : Latch) (failed : Bool) (job : Job)
      (found : s.latches[place]? = some l) (counts : l.counts = true)
      (last : l.value.remaining = 1) (held : l.value.continuation = some job)
      (spoilt : (l.value.failed || failed) = true) :
      Deed around s who (.latch place (.count failed) .nobody)
        { store := s.setLatch place
            { l with value := { l.value with remaining := 0, failed := true, continuation := none } }
          ops := [.latch place .announce .nobody]
          notes := [.counted place failed, .line .continuationSkipped] }
  | countStarted (place : Nat) (l : Latch) (job : Job) (found : s.latches[place]? = some l)
      (counts : l.counts = true) (last : l.value.remaining = 1)
      (held : l.value.continuation = some job) (sound : l.value.failed = false) :
      Deed around s who (.latch place (.count false) .nobody)
        { store := s.setLatch place
            { l with value :=
                { l.value with failed := false, continuation := none, finishing := true } }
          ops := [.perform (.latch place) job.programs, .latch place (.running job true) .nobody]
          notes := [.counted place false] }
  | counted (place : Nat) (l : Latch) (failed : Bool) (found : s.latches[place]? = some l)
      (counts : l.counts = true) (plain : l.value.remaining ≠ 1 ∨ l.value.continuation = none) :
      Deed around s who (.latch place (.count failed) .nobody)
        { store := s.setLatch place
            { l with value := { l.value with
                remaining := l.value.remaining - 1
                failed := l.value.failed || failed } }
          ops := if l.value.remaining = 1 then [.latch place .announce .nobody] else []
          notes := [.counted place failed] }
  | continued (place : Nat) (l : Latch) (job : Job) (succeeded : Bool)
      (found : s.latches[place]? = some l) :
      Deed around s who (.latch place (.running job succeeded) .nobody)
        { store := s.setLatch place
            { l with value := { l.value with
                remaining := l.value.remaining - 1
                failed := l.value.failed || !succeeded
                finishing := false } }
          ops := if l.value.remaining - 1 = 0 then [.latch place .announce .nobody] else [] }
  | latchAnnounced (place : Nat) (l : Latch) (found : s.latches[place]? = some l) :
      Deed around s who (.latch place .announce .nobody)
        { store := s, alarm := .everyone (.latch place) }
  | waitSlept (place : Nat) (l : Latch) (stage : Stage) (waiter : Waiter)
      (found : s.latches[place]? = some l) (awake : stage ≠ .asleep)
      (up : l.terminated = false) (held : 0 < l.value.remaining) :
      Deed around s who (.latch place (.wait stage) waiter)
        { store := s, ops := [.latch place (.wait .asleep) waiter] }
  | callerWaited (place : Nat) (l : Latch) (stage : Stage) (succeeded : Bool)
      (found : s.latches[place]? = some l) (awake : stage ≠ .asleep)
      (verdict : l.Judges succeeded) :
      Deed around s who (.latch place (.wait stage) .caller)
        { store := s
          answer := some (if succeeded then .ok .nothing else .error .waitTerminated) }
  | ticketWaited (place : Nat) (l : Latch) (stage : Stage) (id : Nat) (succeeded : Bool)
      (found : s.latches[place]? = some l) (awake : stage ≠ .asleep)
      (verdict : l.Judges succeeded) :
      Deed around s who (.latch place (.wait stage) (.ticket id))
        { store := s
          answer := some (if succeeded then .ok .nothing else .error (.abandoned id)) }
  | refusedWaited (place : Nat) (l : Latch) (stage : Stage) (sub : Submission) (succeeded : Bool)
      (found : s.latches[place]? = some l) (awake : stage ≠ .asleep)
      (verdict : l.Judges succeeded) :
      Deed around s who (.latch place (.wait stage) (.refused sub))
        { store := s, ops := [.submit sub .refused] }
  | poolReady (place : Nat) (l : Latch) (stage : Stage) (pool : Nat) (p : Pool) (name : String)
      (succeeded : Bool) (found : s.latches[place]? = some l) (awake : stage ≠ .asleep)
      (verdict : l.Judges succeeded) (present : s.pools[pool]? = some p) :
      Deed around s who (.latch place (.wait stage) (.ready pool name))
        { store := { s with names := { s.names with pools := s.names.pools.insert name pool } }
          ops := (s.names.pools.find? name).toList.map .release ++ [.answer (.ok .nothing)]
          notes := [.line (.poolReady p.name)] }
  | poolMissed (place : Nat) (l : Latch) (stage : Stage) (pool : Nat) (name : String)
      (succeeded : Bool) (found : s.latches[place]? = some l) (awake : stage ≠ .asleep)
      (verdict : l.Judges succeeded) (absent : s.pools[pool]? = none) :
      Deed around s who (.latch place (.wait stage) (.ready pool name)) { store := s }
  | latchTerminated (place : Nat) (l : Latch) (found : s.latches[place]? = some l)
      (held : 0 < l.value.remaining) (idle : l.value.finishing = false) :
      Deed around s who (.latch place .terminate .nobody)
        { store := s.setLatch place (Monitor.terminate l), alarm := .everyone (.latch place) }
  | latchSpared (place : Nat) (l : Latch) (found : s.latches[place]? = some l)
      (closed : l.value.remaining = 0 ∨ l.value.finishing = true) :
      Deed around s who (.latch place .terminate .nobody) { store := s }
  -- calls on backlogs
  | left (place : Nat) (pool : Pool) (found : s.pools[place]? = some pool) :
      Deed around s who (.backlog place .leave)
        { store := s.setPool place
            { pool with backlog := { pool.backlog with value := pool.backlog.value - 1 } }
          ops := if pool.backlog.value - 1 = 0 then [.backlog place .announce] else [] }
  | backlogAnnounced (place : Nat) (pool : Pool) (found : s.pools[place]? = some pool) :
      Deed around s who (.backlog place .announce)
        { store := s, alarm := .everyone (.backlog place) }
  | idleSlept (place : Nat) (pool : Pool) (stage : Stage) (found : s.pools[place]? = some pool)
      (awake : stage ≠ .asleep) (held : 0 < pool.backlog.value) :
      Deed around s who (.backlog place (.awaitIdle stage))
        { store := s, ops := [.backlog place (.awaitIdle .asleep)] }
  | idled (place : Nat) (pool : Pool) (stage : Stage) (found : s.pools[place]? = some pool)
      (awake : stage ≠ .asleep)
      (through : pool.backlog.value = 0 ∨ pool.backlog.terminated = true) :
      Deed around s who (.backlog place (.awaitIdle stage)) { store := s }
  -- submissions
  | accepted (sub : Submission) (pool : Pool) {ops : List (Op α)} {notes : List Entry}
      (found : s.pools[sub.pool]? = some pool) (through : sub.rest = [])
      (hands : sub.Hands ops) (plain : ∀ note ∈ notes, note.Plain) :
      Deed around s who (.submit sub .next) { store := s, ops, notes }
  | memberAdded (sub : Submission) (pool : Pool) (job : Job) (rest : List Job)
      (found : s.pools[sub.pool]? = some pool) (ahead : sub.rest = job :: rest) :
      Deed around s who (.submit sub .next)
        { store := s.setPool sub.pool { pool with nextId := pool.nextId + 1 }
          ops := [
            .submit { sub with rest }
              (.enlist { id := pool.nextId, job, latch := sub.ticket.latch })]
          notes := [.issued sub.pool pool.nextId (.member sub.ticket.id job)] }
  | enlisted (sub : Submission) (pool : Pool) (item : Item)
      (found : s.pools[sub.pool]? = some pool) :
      Deed around s who (.submit sub (.enlist item))
        { store := s.setPool sub.pool
            { pool with backlog := { pool.backlog with value := pool.backlog.value + 1 } }
          ops := [.submit sub (.send (.offer item))] }
  | offered (sub : Submission) (pool : Pool) (item : Item)
      (found : s.pools[sub.pool]? = some pool) (up : pool.isDown = false) :
      Deed around s who (.submit sub (.send (.offer item)))
        { store := s, ops := [.submit sub (.send (.send item .arriving))] }
  | givenBack (sub : Submission) (pool : Pool) (item : Item) (call : Channel.Call Item)
      (found : s.pools[sub.pool]? = some pool) (down : pool.isDown = true)
      (sends : call = .offer item ∨ ∃ stage, stage ≠ .asleep ∧ call = .send item stage) :
      Deed around s who (.submit sub (.send call))
        { store := s, ops := [.submit sub (.refuse item)] }
  | pushed (sub : Submission) (pool : Pool) (item : Item) (stage : Stage)
      (found : s.pools[sub.pool]? = some pool) (awake : stage ≠ .asleep)
      (up : pool.isDown = false) (room : pool.intake.value.full = false) :
      Deed around s who (.submit sub (.send (.send item stage)))
        { store := s.setPool sub.pool
            { pool with intake := { pool.intake with value := pool.intake.value.push item } }
          ops := [.submit sub (.send (.announce .sent))]
          notes := [.pushed sub.pool item] }
  | sendSlept (sub : Submission) (pool : Pool) (item : Item) (stage : Stage)
      (found : s.pools[sub.pool]? = some pool) (awake : stage ≠ .asleep)
      (up : pool.isDown = false) (full : pool.intake.value.full = true) :
      Deed around s who (.submit sub (.send (.send item stage)))
        { store := s, ops := [.submit sub (.send (.send item .asleep))] }
  | sendAnnounced (sub : Submission) (pool : Pool) (found : s.pools[sub.pool]? = some pool) :
      Deed around s who (.submit sub (.send (.announce .sent)))
        { store := s, ops := [.submit sub .next], alarm := .everyone (.intake sub.pool) }
  | refusing (sub : Submission) (pool : Pool) (item : Item)
      (found : s.pools[sub.pool]? = some pool) :
      Deed around s who (.submit sub (.refuse item))
        { store := s
          ops := Op.discard sub.pool item ++ sub.afterRefusal
          notes := [.refused sub.pool item, .line (.rejected pool.name item.id)] }
  | refused (sub : Submission) (pool : Pool) {ops : List (Op α)} {notes : List Entry}
      (found : s.pools[sub.pool]? = some pool) (refuses : sub.Refuses ops)
      (plain : ∀ note ∈ notes, note.Plain) :
      Deed around s who (.submit sub .refused) { store := s, ops, notes }
  | handed (ticket : Ticket) (name : Option String) {s' : Store α} {answer : Option (Answer α)}
      (same : s'.pools = s.pools ∧ s'.latches = s.latches ∧
        s'.names.latches = s.names.latches ∧ s'.names.pools = s.names.pools)
      (kept : ∀ other, s'.Keeps other → other = ticket ∨ s.Keeps other) :
      Deed around s who (.hand ticket name) { store := s', answer }
  -- workers
  | workStarted (place index : Nat) (pool : Pool) (found : s.pools[place]? = some pool) :
      Deed around s who (.work place index .start)
        { store := s
          ops := [
            .latch pool.started (.count false) .nobody,
            .work place index (.receive (.receive .arriving))]
          notes := [.line (.workerSpan pool.name index), .line .workerStarted] }
  | receiveSlept (place index : Nat) (pool : Pool) (stage : Stage)
      (found : s.pools[place]? = some pool) (awake : stage ≠ .asleep)
      (up : pool.isDown = false) (empty : pool.intake.value.isEmpty = true) :
      Deed around s who (.work place index (.receive (.receive stage)))
        { store := s, ops := [.work place index (.receive (.receive .asleep))] }
  | taken (place index : Nat) (pool : Pool) (stage : Stage) (item : Item) (ring : Ring Item)
      (found : s.pools[place]? = some pool) (awake : stage ≠ .asleep)
      (up : pool.isDown = false) (valid : ring.Valid)
      (first : pool.intake.value.toList = item :: ring.toList)
      (capacity : ring.capacity = pool.intake.value.capacity) :
      Deed around s who (.work place index (.receive (.receive stage)))
        { store := s.setPool place { pool with intake := { pool.intake with value := ring } }
          ops := [.work place index (.receive (.announce (.received (some item))))]
          notes := [.taken place item] }
  | workerStopped (place index : Nat) (pool : Pool) (stage : Stage)
      (found : s.pools[place]? = some pool) (awake : stage ≠ .asleep)
      (down : pool.isDown = true) :
      Deed around s who (.work place index (.receive (.receive stage)))
        { store := s, notes := [.line .workerStopped] }
  | receiveAnnounced (place index : Nat) (pool : Pool) (item : Item)
      (found : s.pools[place]? = some pool) :
      Deed around s who (.work place index (.receive (.announce (.received (some item)))))
        { store := s
          ops := [.work place index (.begin item)]
          alarm := .everyone (.intake place) }
  | jobStarted (place index : Nat) (pool : Pool) (item : Item)
      (found : s.pools[place]? = some pool) :
      Deed around s who (.work place index (.begin item))
        { store := s.setPool place { pool with busy := pool.busy.set index true }
          ops := [
            .perform (.item place item.id) item.job.programs,
            .work place index (.running item none)]
          notes := [.line (.jobStarted item.id)] }
  | jobRan (place index : Nat) (pool : Pool) (item : Item)
      (found : s.pools[place]? = some pool) :
      Deed around s who (.work place index (.running item none))
        { store := s
          ops := Op.complete item.latch false ++ [.work place index (.finish item true)] }
  | jobBroke (place index : Nat) (pool : Pool) (item : Item) (payload : Payload)
      (found : s.pools[place]? = some pool) :
      Deed around s who (.work place index (.running item (some payload)))
        { store := s
          ops := Op.complete item.latch true ++ [.work place index (.finish item false)]
          notes := [.line (.jobPanicked item.id payload)] }
  | jobFinished (place index : Nat) (pool : Pool) (item : Item) (succeeded : Bool)
      (found : s.pools[place]? = some pool) :
      Deed around s who (.work place index (.finish item succeeded))
        { store := s.setPool place { pool with busy := pool.busy.set index false }
          ops := [.backlog place .leave, .work place index (.receive (.receive .arriving))]
          notes := if succeeded then [.line (.jobFinished item.id)] else [] }
  -- shutdowns
  | checkedDown (place : Nat) (pool : Pool) (found : s.pools[place]? = some pool)
      (down : pool.isDown = true) :
      Deed around s who (.shutDown place .check)
        { store := s, ops := [.shutDown place .done] }
  | checkedUp (place : Nat) (pool : Pool) (found : s.pools[place]? = some pool)
      (up : pool.isDown = false) :
      Deed around s who (.shutDown place .check)
        { store := s, ops := [.shutDown place (.call .terminate)] }
  | poolTerminated (place : Nat) (pool : Pool) (found : s.pools[place]? = some pool) :
      Deed around s who (.shutDown place (.call .terminate))
        { store := s.setPool place { pool with intake := Monitor.terminate pool.intake }
          ops := [.shutDown place (.call .drain)]
          alarm := .everyone (.intake place) }
  | drained (place : Nat) (pool : Pool) (ring : Ring Item) (found : s.pools[place]? = some pool)
      (valid : ring.Valid) (empty : ring.toList = [])
      (capacity : ring.capacity = pool.intake.value.capacity) :
      Deed around s who (.shutDown place (.call .drain))
        { store := s.setPool place { pool with intake := { pool.intake with value := ring } }
          ops := [.shutDown place (.call (.announce (.drained pool.intake.value.toList)))]
          notes := pool.intake.value.toList.map (.discarded place) }
  | abandoned (place : Nat) (pool : Pool) (items : List Item)
      (found : s.pools[place]? = some pool) :
      Deed around s who (.shutDown place (.call (.announce (.drained items))))
        { store := s
          ops := items.flatMap (Op.discard place) ++ [.shutDown place .done]
          notes := if items.isEmpty then [] else [.line (.itemsAbandoned pool.name items.length)]
          alarm := .everyone (.intake place) }
  | shutDownOver (place : Nat) (pool : Pool) (found : s.pools[place]? = some pool) :
      Deed around s who (.shutDown place .done) { store := s }
  -- the beginning and the end of a pool
  | spawned (place index : Nat) (name : String) (pool : Pool)
      (found : s.pools[place]? = some pool) (inside : index < pool.threads) :
      Deed around s who (.spawn place index name)
        { store := s
          ops := [.spawn place (index + 1) name]
          births := [{ who := .worker place index, ops := [.work place index .start] }] }
  | spawnedAll (place index : Nat) (name : String) (pool : Pool)
      (found : s.pools[place]? = some pool) (outside : pool.threads ≤ index) :
      Deed around s who (.spawn place index name)
        { store := s, ops := [.latch pool.started (.wait .arriving) (.ready place name)] }
  | released (place : Nat) (pool : Pool) (found : s.pools[place]? = some pool)
      (kept : s.isNamed place = true ∨ around.inUse place = true) :
      Deed around s who (.release place) { store := s }
  | lastReleased (place : Nat) (pool : Pool) (found : s.pools[place]? = some pool)
      (nameless : s.isNamed place = false) (unused : around.inUse place = false) :
      Deed around s who (.release place)
        { store := s
          ops := [.shutDown place .check, .join place 0 false]
          notes := [.line (.poolShutDown pool.name)] }
  | joinedAll (place index : Nat) (waiting : Bool) (pool : Pool)
      (found : s.pools[place]? = some pool) (outside : pool.threads ≤ index) :
      Deed around s who (.join place index waiting)
        { store := s, notes := [.line (.poolDestroyed pool.name)] }
  | joined (place index : Nat) (pool : Pool) (found : s.pools[place]? = some pool)
      (ended : around.ended (.worker place index) = true) :
      Deed around s who (.join place index true)
        { store := s, ops := [.join place (index + 1) false] }
  | joinBegun (place index : Nat) (pool : Pool) (found : s.pools[place]? = some pool)
      (inside : index < pool.threads) :
      Deed around s who (.join place index false)
        { store := s, ops := [.join place index true] }
  | deadlocked (place index : Nat) (pool : Pool) (found : s.pools[place]? = some pool)
      (inside : index < pool.threads)
      (stuck : who = .worker place index ∨ around.awaits (.worker place index) = some who) :
      Deed around s who (.join place index false) { store := s, panic := some Op.deadlock }
  | answered (answer : Answer α) :
      Deed around s who (.answer answer) { store := s, answer := some answer }

section Submissions

variable {around : Around} {s : Store α} {who : Who}

/-- What is presented to a pool is presented under a name of it. -/
theorem Op.Presents.pool {op : Op α} {place : Nat} {pool : Pool} {asker : Asker} {issue : Issue}
    (presents : op.Presents s place pool asker issue) :
    s.pools[place]? = some pool ∧ s.NamesPool place := by
  cases presents with
  | job name _ _ _ _ known | batch name _ _ _ known | action _ _ name _ _ _ _ known =>
      obtain ⟨named, found⟩ := Store.of_poolNamed? known
      exact ⟨found, name, named⟩

theorem Submission.deed_ofJob {op : Op α} {rest : List (Op α)} {asker : Asker} {place : Nat}
    {pool : Pool} {job : Job} (submits : op.Submits rest asker)
    (presents : op.Presents s place pool asker (.job job)) {effect : Effect α}
    (heq : effect = { Submission.ofJob s place pool job asker with
      ops := (Submission.ofJob s place pool job asker).ops ++ rest }) :
    Deed around s who op effect := by
  obtain ⟨found, named⟩ := presents.pool
  cases hw : job.waitable with
  | true =>
      have : Deed around s who _ _ := .jobAdded submits place pool job found hw named presents
      simpa [heq, ofJob, hw, Store.addLatch] using this
  | false =>
      have : Deed around s who _ _ := .freeJobAdded submits place pool job found hw named presents
      simpa [heq, ofJob, hw] using this

theorem Submission.deed_ofBatch {command : Command α} {place : Nat} {pool : Pool} {batch : Batch}
    {ticket : Option String}
    (presents : (Op.command command).Presents s place pool (.step ticket .released)
      (.batch batch)) :
    Deed around s who (.command command)
      (Submission.ofBatch s place pool batch (.step ticket .released)) := by
  obtain ⟨found, named⟩ := presents.pool
  unfold ofBatch
  split
  · rename_i job hfinale hmembers
    exact .emptyBatchAdded command place pool batch job ticket found hfinale hmembers named presents
  · rename_i hplain
    have ahead : batch.finale.isSome → batch.members ≠ [] := by
      intro hsome hnil
      obtain ⟨job, hjob⟩ := Option.isSome_iff_exists.mp hsome
      exact hplain job hjob hnil
    split
    · rename_i counted
      exact .batchAdded command place pool batch ticket found (by simpa using counted) ahead named
        presents
    · rename_i free
      simp only [Bool.or_eq_true, not_or, Bool.not_eq_true, Option.isSome_eq_false_iff,
        Option.isNone_iff_eq_none] at free
      exact .freeBatchAdded command place pool batch ticket found free.1 free.2 named presents

end Submissions

end WorkerPool
