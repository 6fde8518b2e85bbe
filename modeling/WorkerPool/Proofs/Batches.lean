import WorkerPool.Proofs.Attendance
import WorkerPool.Proofs.Bystanders
import WorkerPool.Proofs.Filling
import WorkerPool.Proofs.InPlace

/-! The batches of a run. Batches are made and changed by commands alone, each in its first turn,
and what such a turn has done to a batch can be told from the answer that it finds: it was done, or
a panic has kept it from being done. So the log of every batch can be read off the turns of a run. A
name that is given to a copy gets the log of what was copied. In every world the batch that a name
stands for reflects the log of this name. Therefore an addition panics exactly if the batch is full,
and a panic leaves everything as it was; and a batch that is made of functions takes all of them. -/

namespace WorkerPool

variable {α : Type}

/-! ### Logs -/

/-- A log for every name. It is empty as long as the name stands for no batch. -/
abbrev Batch.Logs := String → List Batch.Change

/-- Whether something has been done, or a panic has kept it from being done. Nothing at all has come
of a command that has no answer yet or has named something that is not there. -/
def Effect.done? (e : Effect α) : Option Bool :=
  match e.answer with
  | some (.ok _) => some true
  | some (.error (.panicked _)) => some false
  | _ => none

/-- What a request does to the batch, according to whether it was done. -/
def BatchRequest.change? (s : Store α) (done : Bool) : BatchRequest → Option Batch.Change
  | .add text => (text.resolve s.names.jobs.find?).toOption.map (.offered · done)
  | .addProgram program => some (.offeredProgram program done)
  | .setFinale text _ => (text.resolve s.names.jobs.find?).toOption.map .finaleSet
  | .perform | .describe _ => none

/-- What a command enters in the logs, according to whether it was done. -/
def Command.enter (s : Store α) (logs : Batch.Logs) : Bool → Command α → Batch.Logs
  | true, .newBatch name capacity waitable =>
    Function.update logs name [.begun capacity waitable]
  | true, .newFullBatch name programs waitable =>
    Function.update logs name (Batch.filled programs waitable)
  | true, .copyBatch name other => Function.update logs name (logs other)
  | done, .onBatch name request =>
    Function.update logs name (logs name ++ (request.change? s done).toList)
  | _, _ => logs

/-- The logs after the first turn of a command. -/
def Command.log (around : Around) (s : Store α) (logs : Batch.Logs) (command : Command α) :
    Batch.Logs :=
  match (command.effect around s).done? with
  | some done => command.enter s logs done
  | none => logs

/-- The logs after a turn. -/
def Moment.log (logs : Batch.Logs) (m : Moment α) : Batch.Logs :=
  match m.due? with
  | some (_, .command command) => command.log (m.world.around m.index) m.world.store logs
  | _ => logs

/-- The logs of the batches of a run that begins with no batch. -/
def batchLogs (moments : List (Moment α)) : Batch.Logs :=
  moments.foldl Moment.log fun _ => []

/-- What a name stands for reflects the log of the name, which is empty if that is nothing. -/
inductive Batch.Kept : Option Batch → List Batch.Change → Prop
  | nothing : Kept none []
  | batch {b : Batch} {log : List Batch.Change} (reflects : b.Reflects log) : Kept (some b) log

/-- Each name stands for what its log tells. -/
def Store.Tells (s : Store α) (logs : Batch.Logs) : Prop :=
  ∀ name, Batch.Kept (s.names.batches.find? name) (logs name)

namespace Store

variable {s t : Store α} {logs : Batch.Logs} {name : String} {b : Batch}

theorem Tells.same (tells : s.Tells logs) (same : t.names.batches = s.names.batches) :
    t.Tells logs := by
  intro name
  rw [same]
  exact tells name

theorem Tells.reflects (tells : s.Tells logs) (found : s.names.batches.find? name = some b) :
    b.Reflects (logs name) := by
  have kept := tells name
  rw [found] at kept
  cases kept with
  | batch reflects => exact reflects

theorem Tells.keep (tells : s.Tells logs) {log : List Batch.Change} (reflects : b.Reflects log) :
    (s.keepBatch name b).Tells (Function.update logs name log) := by
  intro other
  rw [show (s.keepBatch name b).names.batches.find? other = _ from Table.find?_insert ..,
    Function.update_apply]
  split
  · exact .batch reflects
  · exact tells other

end Store

/-! ### The turns of commands -/

section Commands

variable {around : Around} {s : Store α} {logs : Batch.Logs} {name : String} {b : Batch}

/-- The request offers this job to the batch. A single function is made a job with the flag of the
batch. -/
inductive BatchRequest.Adds (s : Store α) (b : Batch) : BatchRequest → Job → Prop
  | job (text : JobText) (job : Job) (known : text.resolve s.names.jobs.find? = .ok job) :
      Adds s b (.add text) job
  | program (program : Program) :
      Adds s b (.addProgram program) { first := { program, waitable := b.waitable } }

theorem BatchRequest.kept_of_found (found : s.names.batches.find? name = some b)
    (f : Batch → Effect α) : BatchRequest.effect.kept s name f = f b := by
  rw [effect.kept, found]
  rfl

/-- What is offered is taken, and the batch is kept with one more member, or there is a panic and
everything is left as it was. -/
theorem BatchRequest.Adds.effect {request : BatchRequest} {job : Job}
    (adds : request.Adds s b job) (found : s.names.batches.find? name = some b) :
    (∃ b' value, b.add? job = some b' ∧
        request.effect s name = .succeed (s.keepBatch name b') value) ∨
      (b.add? job = none ∧ request.effect s name = .fail s (.panicked b.overflow)) := by
  cases adds with
  | job text job known =>
      rw [BatchRequest.effect, Effect.withJob, known]
      dsimp only
      rw [kept_of_found found]
      cases b.add? job with
      | some b' => exact .inl ⟨b', _, rfl, rfl⟩
      | none => exact .inr ⟨rfl, rfl⟩
  | program program =>
      rw [BatchRequest.effect, kept_of_found found]
      cases added : b.addProgram? program with
      | some b' => exact .inl ⟨b', _, added, rfl⟩
      | none => exact .inr ⟨added, rfl⟩

/-- What an addition enters in the log. -/
theorem BatchRequest.Adds.change? {request : BatchRequest} {job : Job}
    (adds : request.Adds s b job) (done : Bool) :
    ∃ change, request.change? s done = some change ∧ change.finale? = none ∧
      change.taken? = if done then some job.body else none := by
  cases adds with
  | job text job known =>
      refine ⟨.offered job done, ?_, rfl, by cases done <;> rfl⟩
      simp [BatchRequest.change?, known, Except.toOption]
  | program program => exact ⟨.offeredProgram program done, rfl, rfl, by cases done <;> rfl⟩

variable {command : Command α} {e : Effect α}

/-- A turn that does nothing leaves the logs as they are. -/
theorem Command.tells_of_undone (effect : command.effect around s = e) (undone : e.done? = none)
    (same : e.store.names.batches = s.names.batches) (tells : s.Tells logs) :
    (command.effect around s).store.Tells (command.log around s logs) := by
  rw [log, effect, undone]
  exact tells.same same

theorem Command.tells_of_done {done : Bool} (effect : command.effect around s = e)
    (answered : e.done? = some done) (tells : e.store.Tells (command.enter s logs done)) :
    (command.effect around s).store.Tells (command.log around s logs) := by
  rw [log, effect, answered]
  exact tells

theorem BatchRequest.Adds.tells {request : BatchRequest} {job : Job}
    (adds : request.Adds s b job) (found : s.names.batches.find? name = some b)
    (tells : s.Tells logs) :
    ((Command.onBatch name request).effect around s).store.Tells
      ((Command.onBatch name request).log around s logs) := by
  have reflects := tells.reflects found
  rcases adds.effect found with ⟨b', value, added, effect⟩ | ⟨-, effect⟩
  · obtain ⟨change, entered, other, taken⟩ := adds.change? true
    refine Command.tells_of_done effect rfl ?_
    rw [Command.enter, entered]
    exact tells.keep (reflects.took added taken other)
  · -- the refusal is entered in the log as well
    obtain ⟨change, entered, other, refused⟩ := adds.change? false
    refine Command.tells_of_done effect rfl ?_
    rw [Command.enter, entered]
    intro name'
    by_cases same : name' = name
    · subst same
      rw [Function.update_self]
      exact found ▸ .batch (reflects.passed refused other)
    · rw [Function.update_of_ne same]
      exact tells name'

/-- A request on a batch that is not there fails. -/
theorem BatchRequest.effect_of_absent (absent : s.names.batches.find? name = none)
    (request : BatchRequest) :
    ∃ unknown, request.effect s name = .fail s (.noSuchObject unknown) := by
  have kept : ∀ f, BatchRequest.effect.kept s name f = .fail s (.noSuchObject name) := by
    intro f
    rw [BatchRequest.effect.kept, absent]
    rfl
  cases request with
  | add text | setFinale text builder =>
      simp only [BatchRequest.effect, Effect.withJob, kept]
      split
      · exact ⟨name, rfl⟩
      · exact ⟨_, rfl⟩
  | _ => exact ⟨name, kept _⟩

/-- What a request does to a batch is entered in its log. -/
theorem BatchRequest.tells (request : BatchRequest) (tells : s.Tells logs) :
    ((Command.onBatch name request).effect around s).store.Tells
      ((Command.onBatch name request).log around s logs) := by
  have missing : ∀ unknown, request.effect s name = .fail s (.noSuchObject unknown) →
      ((Command.onBatch name request).effect around s).store.Tells
        ((Command.onBatch name request).log around s logs) :=
    fun unknown effect => Command.tells_of_undone effect rfl rfl tells
  cases found : s.names.batches.find? name with
  | none =>
      obtain ⟨unknown, effect⟩ := effect_of_absent found request
      exact missing unknown effect
  | some b =>
      cases request with
      | add text =>
          cases known : text.resolve s.names.jobs.find? with
          | error unknown =>
              exact missing unknown (by simp [BatchRequest.effect, Effect.withJob, known])
          | ok job => exact (BatchRequest.Adds.job text job known).tells found tells
      | addProgram program => exact (BatchRequest.Adds.program program).tells found tells
      | setFinale text builder =>
          cases known : text.resolve s.names.jobs.find? with
          | error unknown =>
              exact missing unknown (by simp [BatchRequest.effect, Effect.withJob, known])
          | ok job =>
              refine Command.tells_of_done (e := .succeed (s.keepBatch name (b.setFinale job))
                (if builder then .nothing else .count b.size)) ?_ rfl ?_
              · simp [Command.effect, BatchRequest.effect, Effect.withJob, known,
                  kept_of_found found]
              · rw [Command.enter, BatchRequest.change?, known]
                exact tells.keep ((tells.reflects found).setFinale job)
      | perform => exact Command.tells_of_undone (kept_of_found found _) rfl rfl tells
      | describe style =>
          refine Command.tells_of_done (e := .succeed s (.batch b (b.shape.describe style)))
            (kept_of_found found _) rfl ?_
          rw [Command.enter, BatchRequest.change?, Option.toList_none, List.append_nil,
            Function.update_eq_self]
          exact tells

theorem Command.enter_of_aside (aside : ¬command.OnBatches) (done : Bool) :
    command.enter s logs done = logs := by
  cases command with
  | newBatch | newFullBatch | copyBatch | onBatch => exact absurd trivial aside
  | _ => cases done <;> rfl

/-- After the first turn of a command every name still stands for what its log tells. -/
theorem Command.tells (command : Command α) (tells : s.Tells logs) :
    (command.effect around s).store.Tells (command.log around s logs) := by
  by_cases about : command.OnBatches
  case neg =>
      have same : (command.effect around s).store.Tells logs := tells.same (command.batches about)
      rw [log]
      split
      · rwa [enter_of_aside about]
      · exact same
  cases command with
  | newBatch name capacity waitable =>
      by_cases fits : Footprint.member.fits capacity = true
      · refine tells_of_done (e := .succeed (s.keepBatch name { capacity, waitable }) .nothing)
          (by simp [effect, fits]) rfl ?_
        exact tells.keep (Batch.reflects_new capacity waitable)
      · refine tells_of_done (e := .fail s (.panicked Footprint.overflow))
          (by simp [effect, fits]) rfl tells
  | newFullBatch name programs waitable =>
      obtain ⟨b, filled, reflects, -⟩ := Batch.ofPrograms?_eq_some programs waitable
      refine tells_of_done (e := .succeed (s.keepBatch name b) .nothing)
        (by simp [effect, filled]) rfl ?_
      exact tells.keep reflects
  | copyBatch name other =>
      cases found : s.names.batches.find? other with
      | none =>
          exact tells_of_undone (e := .fail s (.noSuchObject other))
            (by simp [effect, Effect.withObject, found]) rfl rfl tells
      | some b =>
          refine tells_of_done (e := .succeed (s.keepBatch name b) .nothing)
            (by simp [effect, Effect.withObject, found]) rfl ?_
          exact tells.keep (tells.reflects found)
  | onBatch name request => exact request.tells tells
  | _ => exact about.elim

end Commands

/-! ### Turns and runs -/

namespace World

variable {v w : World α} {index pick : Nat} {moments : List (Moment α)} {logs : Batch.Logs}

/-- What a turn does to the batches is entered in the logs. -/
theorem tells_of_turn (orderly : w.Orderly) (turn : w.turn index pick = some v)
    (tells : w.store.Tells logs) : v.store.Tells ((Moment.mk w index).log logs) := by
  obtain ⟨t, got, due⟩ := Option.bind_eq_some_iff.mp turn
  split at due
  · cases due
  rename_i op rest ops
  obtain ⟨e, effect, rfl, deed, -⟩ := took_cases orderly got ops turn
  rw [Moment.log, due?_eq got ops]
  by_cases commanded : ∃ command, op = .command command
  · obtain ⟨command, rfl⟩ := commanded
    obtain rfl := Option.some.inj effect
    exact command.tells tells
  · have other : ∀ command, op ≠ .command command := fun command same =>
      commanded ⟨command, same⟩
    have same := tells.same (Op.batches effect deed other)
    cases op with
    | command given => exact absurd rfl (other given)
    | _ => exact same

/-- In a run that begins with no batch, every name stands for what its log tells. -/
theorem Run.tells {cells : List Int} (run : (World.start cells).Run moments w) :
    w.store.Tells (batchLogs moments) := by
  induction run with
  | nil => exact fun name => .nothing
  | issue run command ih => exact ih
  | turn run index pick turn ih =>
      rw [batchLogs, List.foldl_append]
      exact tells_of_turn (run.reachable (.start cells)).orderly turn ih

/-- A command that leaves nothing to do can take its turn, and its thread has ended then, with the
answer that was found. -/
theorem Reachable.turn_of_command (h : w.Reachable) {who : Who} {command : Command α}
    (due : (Moment.mk w index).due? = some (who, .command command)) (pick : Nat) {e : Effect α}
    (effect : command.effect (w.around index) w.store = e) (quiet : e.panic = none)
    (nothing : e.ops = []) {answer : Answer α} (answered : e.answer = some answer) :
    ∃ v t, w.turn index pick = some v ∧ v.store = e.store ∧ v.threads[index]? = some t ∧
      t.ops = [] ∧ t.answer = some answer := by
  obtain ⟨t, rest, got, -, ops⟩ := of_due? due
  obtain rfl := h.orderly.command_alone (List.mem_of_getElem? got) ops
  have turn : w.turn index pick = some (w.apply index pick t [] e) :=
    turn_of_effect got ops (congrArg some effect) pick
  have next : (continued t [] e).1 = { t with ops := [], answer := some answer } := by
    simp [continued, quiet, nothing, answered]
  obtain ⟨t', got', after⟩ := thread_of_apply got pick [] e
  rw [next] at after
  refine ⟨_, t', turn, rfl, got', ?_⟩
  rcases after with rfl | rfl <;> exact ⟨rfl, rfl⟩

/-- The batches of a world and what the logs tell of them. Each name stands for a batch that
reflects its log, or for nothing. An addition can take its turn; it panics exactly if the batch is
full, and then it says so and leaves everything as it was. A batch is made of functions, however
many they are, without a panic, and it is full. -/
structure KeepsBatches (w : World α) (logs : Batch.Logs) : Prop where
  kept : ∀ name, Batch.Kept (w.store.names.batches.find? name) (logs name)
  additions : ∀ index who name request b job,
    (Moment.mk w index).due? = some (who, .command (.onBatch name request)) →
    w.store.names.batches.find? name = some b → request.Adds w.store b job →
    ∀ pick, ∃ v t, w.turn index pick = some v ∧ v.threads[index]? = some t ∧ t.ops = [] ∧
      (b.isFull = true ↔ ∃ payload, t.answer = some (.error (.panicked payload))) ∧
      ∀ payload, t.answer = some (.error (.panicked payload)) →
        payload = b.overflow ∧ v.store = w.store
  fillings : ∀ index who name programs waitable,
    (Moment.mk w index).due? = some (who, .command (.newFullBatch name programs waitable)) →
    ∀ pick, ∃ v t b, w.turn index pick = some v ∧ v.threads[index]? = some t ∧ t.ops = [] ∧
      t.answer = some (.ok .nothing) ∧ v.store.names.batches.find? name = some b ∧
      b.waitable = waitable ∧ b.size = programs.length ∧ b.isFull = true

/-- The batches of every run are built as their logs say. -/
theorem Run.keeps_batches {cells : List Int} (run : (World.start cells).Run moments w) :
    w.KeepsBatches (batchLogs moments) where
  kept := run.tells
  additions index who name request b job due found adds pick := by
    have reachable := run.reachable (.start cells)
    have reflects := run.tells.reflects found
    rcases adds.effect found with ⟨b', value, added, effect⟩ | ⟨refused, effect⟩
    · obtain ⟨v, t, turn, -, got, ended, answer⟩ :=
        reachable.turn_of_command due pick effect rfl rfl rfl
      have succeeded : ∀ payload, t.answer ≠ some (.error (.panicked payload)) := by
        simp [answer]
      refine ⟨v, t, turn, got, ended, ⟨fun full => ?_, fun ⟨payload, panicked⟩ => ?_⟩,
        fun payload panicked => absurd panicked (succeeded payload)⟩
      · have refused := (reflects.add?_eq_none job).mpr full
        rw [refused] at added
        cases added
      · exact absurd panicked (succeeded payload)
    · obtain ⟨v, t, turn, store, got, ended, answer⟩ :=
        reachable.turn_of_command due pick effect rfl rfl rfl
      have full : b.isFull = true := (reflects.add?_eq_none job).mp refused
      refine ⟨v, t, turn, got, ended, ⟨fun _ => ⟨_, answer⟩, fun _ => full⟩,
        fun payload panicked => ⟨?_, store⟩⟩
      rw [answer] at panicked
      cases panicked
      rfl
  fillings index who name programs waitable due pick := by
    obtain ⟨b, filled, reflects, full, size⟩ := Batch.ofPrograms?_eq_some programs waitable
    have effect : (Command.newFullBatch name programs waitable).effect (w.around index) w.store =
        .succeed (w.store.keepBatch name b) .nothing := by
      simp [Command.effect, filled]
    obtain ⟨v, t, turn, store, got, ended, answer⟩ :=
      (run.reachable (.start cells)).turn_of_command due pick effect rfl rfl rfl
    refine ⟨v, t, b, turn, got, ended, answer, ?_, ?_, size, full⟩
    · rw [store]
      exact (Table.find?_insert ..).trans (if_pos rfl)
    · exact (Batch.Change.begun.inj (Option.some.inj reflects.begun)).2.symm

/-- A batch is given a job with a continuation and a function, and is offered a second job for which
it has no room. Then it is copied, and the copy is given a finale. -/
def stocking : List (Command Unit) := [
  .newBatch "a" 2 true,
  .onBatch "a" (.add (.linkThen [.put 1] false (.link [.put 2] false))),
  .onBatch "a" (.addProgram [.put 3]),
  .onBatch "a" (.add (.link [.put 4] true)),
  .copyBatch "b" "a",
  .onBatch "b" (.setFinale (.link [.put 5] false) false)]

/-- After that, an addition to the copy is due, and a batch of no functions at all is to be made. -/
def stocked : World Unit :=
  ((follow 10 stocking (.start [])).issue (.onBatch "b" (.addProgram [.put 6]))).issue
    (.newFullBatch "c" [] false)

theorem keeps_batches_of_stocked :
    ∃ b, stocked.store.names.batches.find? "b" = some b ∧
      b.Reflects [
        .begun 2 true,
        .offered { first := ⟨[.put 1], false⟩, next := [⟨[.put 2], false⟩] } true,
        .offeredProgram [.put 3] true,
        .offered { first := ⟨[.put 4], true⟩ } false,
        .finaleSet { first := ⟨[.put 5], false⟩ }] ∧
      (∃ v t, stocked.turn 6 0 = some v ∧ v.threads[6]? = some t ∧
        t.answer = some (.error (.panicked b.overflow)) ∧ v.store = stocked.store) ∧
      ∃ v b', stocked.turn 7 0 = some v ∧ v.store.names.batches.find? "c" = some b' ∧
        b'.size = 0 ∧ b'.isFull = true := by
  have run : (World.start []).Run (following 10 stocking (.start [])) stocked :=
    ((run_following 10 stocking (.start [])).issue _).issue _
  have keeps := run.keeps_batches
  have tells : stocked.store.Tells _ := keeps.kept
  have found : stocked.store.names.batches.find? "b" = some {
      capacity := 2
      waitable := true
      members := [
        { first := ⟨[.put 1], true⟩, next := [⟨[.put 2], false⟩] },
        { first := ⟨[.put 3], true⟩ }]
      finale := some { first := ⟨[.put 5], false⟩ } } := rfl
  refine ⟨_, found, tells.reflects found, ?_, ?_⟩
  · obtain ⟨v, t, turn, got, -, full, panicked⟩ :=
      keeps.additions 6 (.step 6) "b" _ _ _ rfl found (.program [.put 6]) 0
    obtain ⟨payload, answer⟩ := full.mp rfl
    obtain ⟨rfl, store⟩ := panicked payload answer
    exact ⟨v, t, turn, got, answer, store⟩
  · obtain ⟨v, t, b, turn, -, -, -, found, -, size, full⟩ :=
      keeps.fillings 7 (.step 7) "c" [] false rfl 0
    exact ⟨v, b, turn, found, size, full⟩

end World

end WorkerPool
