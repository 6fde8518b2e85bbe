import WorkerPool.Proofs.Deed

/-! The list of deeds is complete: a turn of an operation that makes only its own calls, in a store
whose rings are in order, is one of them. The proof follows the definitions of the effects, one
lemma for each kind of operation. -/

namespace WorkerPool

variable {α : Type} {around : Around} {s : Store α} {who : Who}

/-- Every pool has a ring that has only been pushed to and popped from. -/
def Store.RingsValid (s : Store α) : Prop :=
  ∀ (place : Nat) (pool : Pool), s.pools[place]? = some pool → pool.intake.value.Valid

section Commands

theorem deed_fail (command : Command α) (failure : Failure α) (notes : List Entry)
    (plain : ∀ note ∈ notes, note.Plain) :
    Deed around s who (.command command) (.fail s failure notes) :=
  .commanded command (.refl s) .nothing plain

theorem deed_succeed (command : Command α) {s' : Store α} (eases : s.Eases s') (value : Value α) :
    Deed around s who (.command command) (.succeed s' value) :=
  .commanded command eases .nothing (by simp)

theorem deed_withObject {β : Type} (command : Command α) {t : Store α} (eases : s.Eases t)
    (name : String) (object? : Option β) (f : β → Effect α)
    (h : ∀ object, object? = some object → Deed around s who (.command command) (f object)) :
    Deed around s who (.command command) (Effect.withObject t name object? f) := by
  cases object? with
  | none => exact .commanded command eases .nothing (by simp)
  | some object => exact h object rfl

theorem deed_withJob (command : Command α) (text : JobText) (f : Job → Effect α)
    (h : ∀ job, text.resolve s.names.jobs.find? = .ok job →
      Deed around s who (.command command) (f job)) :
    Deed around s who (.command command) (Effect.withJob s text f) := by
  unfold Effect.withJob
  split
  · rename_i job resolved
    exact h job resolved
  · exact deed_fail command _ [] (by simp)

theorem deed_performing (command : Command α) (programs : List Program) :
    Deed around s who (.command command) (Effect.performing s programs) :=
  .commanded command (.refl s) (.perform programs _) (by simp)

theorem MonitorRequest.deed (command : Command α) (place : Nat) (m : Monitor Int)
    (request : MonitorRequest) :
    Deed around s who (.command command) (request.effect s place m) := by
  have hcall : ∀ call : Monitor.Call Int, call.asleep = false →
      Deed around s who (.command command) (MonitorRequest.effect.call s place call) :=
    fun call awake => .commanded command (.refl s) (.monitor place call awake) (by simp)
  cases request with
  | poison =>
      cases h : successor m.value with
      | ok value =>
          simp only [effect, h]
          exact .commanded command ⟨rfl, rfl, fun _ h => h, .inl rfl, fun _ h => h⟩ .nothing
            (by simp)
      | error payload =>
          simp only [effect, h]
          exact deed_fail command _ [] (by simp)
  | _ => exact hcall _ rfl

theorem ChannelRequest.deed (command : Command α) (place : Nat) (c : Channel α)
    (request : ChannelRequest α) :
    Deed around s who (.command command) (request.effect s place c) := by
  have hcall : ∀ call : Channel.Call α, call.asleep = false →
      Deed around s who (.command command) { store := s, ops := [.channel place call] } :=
    fun call awake => .commanded command (.refl s) (.channel place call awake) (by simp)
  cases request with
  | capacity => exact deed_succeed command (.refl s) _
  | _ => exact hcall _ rfl

theorem LatchRequest.deed (command : Command α) {place : Nat} (l : Latch)
    (named : s.NamesLatch place) (request : LatchRequest) :
    Deed around s who (.command command) (request.effect s place l) := by
  cases request with
  | count failed => exact .commanded command (.refl s) (.count place failed _ named) (by simp)
  | terminate => exact .commanded command (.refl s) (.terminate place _ named) (by simp)
  | wait => exact .commanded command (.refl s) (.wait place named) (by simp)
  | describe style => exact deed_succeed command (.refl s) _

theorem Latch.deed_setUp (command : Command α) (name : String) (count : Nat)
    (continuation : Option Job) :
    Deed around s who (.command command) (Latch.setUp s name count continuation) := by
  cases continuation with
  | none => exact .latchMade command name count none fun _ => rfl
  | some job =>
      by_cases hcount : count = 0
      · simp only [setUp, if_pos hcount]
        exact .commanded command (.refl s) (.construct job.programs name) (by simp)
      · simp only [setUp, if_neg hcount]
        exact .latchMade command name count (some job) fun hzero => absurd hzero hcount

theorem Store.eases_keepJob (s : Store α) (name : String) (job : Job) :
    s.Eases (s.keepJob name job) :=
  ⟨rfl, rfl, fun _ h => h, .inl rfl, fun _ h => h⟩

theorem Store.eases_keepBatch (s : Store α) (name : String) (b : Batch) :
    s.Eases (s.keepBatch name b) :=
  ⟨rfl, rfl, fun _ h => h, .inl rfl, fun _ h => h⟩

theorem Store.eases_keepSettings (s : Store α) (name : String) (settings : Settings) :
    s.Eases (s.keepSettings name settings) :=
  ⟨rfl, rfl, fun _ h => h, .inl rfl, fun _ h => h⟩

theorem JobRequest.deed (command : Command α) (name : String) (request : JobRequest) :
    Deed around s who (.command command) (request.effect s name) := by
  cases request with
  | followBy next =>
      refine deed_withJob command next _ fun job _ => ?_
      refine deed_withObject command (.refl s) name _ _ fun found _ => ?_
      exact deed_succeed command (s.eases_keepJob name _) _
  | perform =>
      exact deed_withObject command (.refl s) name _ _ fun found _ => deed_performing command _
  | describe style =>
      exact deed_withObject command (.refl s) name _ _ fun found _ =>
        deed_succeed command (.refl s) _

theorem BatchRequest.deed (command : Command α) (name : String) (request : BatchRequest) :
    Deed around s who (.command command) (request.effect s name) := by
  cases request with
  | add text =>
      refine deed_withJob command text _ fun job _ => ?_
      refine deed_withObject command (.refl s) name _ _ fun b _ => ?_
      split
      · exact deed_succeed command (s.eases_keepBatch name _) _
      · exact deed_fail command _ [] (by simp)
  | addProgram program =>
      refine deed_withObject command (.refl s) name _ _ fun b _ => ?_
      split
      · exact deed_succeed command (s.eases_keepBatch name _) _
      · exact deed_fail command _ [] (by simp)
  | setFinale text builder =>
      refine deed_withJob command text _ fun job _ => ?_
      refine deed_withObject command (.refl s) name _ _ fun b _ => ?_
      exact deed_succeed command (s.eases_keepBatch name _) _
  | perform =>
      exact deed_withObject command (.refl s) name _ _ fun b _ => deed_performing command _
  | describe style =>
      exact deed_withObject command (.refl s) name _ _ fun b _ => deed_succeed command (.refl s) _

theorem Store.of_latchNamed? {name : String} {place : Nat} {l : Latch}
    (h : s.latchNamed? name = some (place, l)) :
    s.names.latches.find? name = some place ∧ s.latches[place]? = some l := by
  simp only [latchNamed?, bind, Option.bind_eq_some_iff, pure, Option.some.injEq,
    Prod.mk.injEq] at h
  obtain ⟨_, hname, _, hlatch, rfl, rfl⟩ := h
  exact ⟨hname, hlatch⟩

theorem PoolRequest.deed (name : String) (request : PoolRequest) :
    Deed around s who (.command (.onPool name request)) (request.effect around s name) := by
  have hknown : ∀ f : Nat → Pool → Effect α,
      (∀ place pool, s.poolNamed? name = some (place, pool) →
        Deed around s who (.command (.onPool name request)) (f place pool)) →
      Deed around s who (.command (.onPool name request)) (PoolRequest.effect.known s name f) :=
    fun f hf => deed_withObject _ (.refl s) name _ _ fun _ known => hf _ _ known
  have hnamed : ∀ {place : Nat} {pool : Pool}, s.poolNamed? name = some (place, pool) →
      s.NamesPool place := fun known => ⟨name, (Store.of_poolNamed? known).1⟩
  cases request with
  | submit text ticket handover =>
      refine deed_withJob _ text _ fun job resolved => hknown _ fun place pool known => ?_
      exact Submission.deed_ofJob (.command _ ticket handover)
        (.job name text ticket handover job known resolved) (by simp)
  | submitBatch kept ticket =>
      refine deed_withObject _ (.refl s) kept _ _ fun b found => hknown _ fun place pool known => ?_
      exact Submission.deed_ofBatch (.batch name kept ticket b known found)
  | awaitIdle =>
      simp only [effect]
      refine hknown _ fun place pool known => ?_
      exact .commanded _ (.refl s) (.idle place _ (hnamed known)) (by simp [Entry.Plain,
        LogLine.Plain])
  | shutDown =>
      simp only [effect]
      refine hknown _ fun place pool known => ?_
      exact .commanded _ (.refl s) (.shutDown place _ (hnamed known)) (by simp [Entry.Plain,
        LogLine.Plain])
  | destroy =>
      simp only [effect]
      refine hknown _ fun place pool known => ?_
      split
      · exact deed_fail _ _ [] (by simp)
      · exact .commanded _ ⟨rfl, rfl, fun _ h => h, .inr ⟨name, rfl⟩, fun _ h => h⟩
          (.destroy place _ (hnamed known)) (by simp)
  | describe =>
      simp only [effect]
      exact hknown _ fun place pool known => deed_succeed _ (.refl s) _

theorem Ticket.deed_ask (command : Command α) (ticket : Ticket) (f : Latch → Value α) :
    Deed around s who (.command command) (ticket.ask s f) := by
  unfold ask
  split
  · exact deed_fail command _ [] (by simp)
  · split
    · exact deed_succeed command (.refl s) _
    · exact .commanded command (.refl s) .nothing (by simp)

theorem TicketRequest.deed (command : Command α) (name : String) (request : TicketRequest) :
    Deed around s who (.command command) (request.effect s name) := by
  have hkept : ∀ f : Ticket → Effect α,
      (∀ ticket, s.Keeps ticket → Deed around s who (.command command) (f ticket)) →
      ∀ {left : Store α}, s.Eases left →
        Deed around s who (.command command) (TicketRequest.effect.kept s name left f) :=
    fun f hf left eases =>
      deed_withObject command eases name _ _ fun ticket hticket => hf ticket ⟨name, hticket⟩
  -- the ticket is taken out of its name before anything else is looked up
  have htaken : s.Eases
      { s with names := { s.names with tickets := s.names.tickets.erase name } } :=
    ⟨rfl, rfl, fun _ h => h, .inl rfl,
      fun ticket kept => kept.imp fun other h => Table.of_find?_erase h⟩
  cases request with
  | describe style => exact hkept _ (fun ticket _ => deed_succeed command (.refl s) _) (.refl s)
  | isComplete => exact hkept _ (fun ticket _ => ticket.deed_ask command _) (.refl s)
  | remaining =>
      simp only [effect]
      split
      · exact Ticket.deed_ask command _ _
      · exact deed_fail command _ [] (by simp)
  | isBefore other =>
      refine hkept _ (fun ticket _ => ?_) (.refl s)
      exact deed_withObject command (.refl s) other _ _ fun _ _ => deed_succeed command (.refl s) _
  | wait via =>
      have hplain : ∀ written : LogLine, written.Plain →
          ∀ note ∈ [Entry.line written], note.Plain := by
        rintro written plain note hnote
        obtain rfl := List.mem_singleton.mp hnote
        exact plain
      simp only [effect]
      cases via with
      | none =>
          refine hkept _ (fun ticket kept => ?_) htaken
          unfold Ticket.await
          dsimp only
          split
          · exact .commanded command htaken .nothing (hplain _ (by cases ticket <;> trivial))
          · rename_i place awaited
            exact .commanded command htaken (.ticket ticket place kept awaited)
              (hplain _ (by cases ticket <;> trivial))
      | some pool =>
          refine deed_withObject command htaken pool _ _ fun pool' hpool => ?_
          refine hkept _ (fun ticket kept => ?_) htaken
          unfold Ticket.await
          dsimp only
          split
          · exact .commanded command htaken (.letGo pool' ⟨pool, hpool⟩)
              (hplain _ (by cases ticket <;> trivial))
          · rename_i place awaited
            exact .commanded command htaken
              (.ticketVia ticket place pool' kept awaited ⟨pool, hpool⟩)
              (hplain _ (by cases ticket <;> trivial))

theorem Settings.of_refusal? {settings : Settings} (h : settings.refusal? = none) :
    0 < settings.capacity ∧ 0 < settings.threadCount := by
  unfold refusal? at h
  split at h
  · cases h
  · split at h
    · cases h
    · omega

theorem Pool.deed_setUp (command : Command α) (name : String) (settings : Settings) :
    Deed around s who (.command command) (Pool.setUp s name settings) := by
  unfold setUp
  split
  · exact deed_fail command _ [] (by simp)
  · rename_i fine
    obtain ⟨capacity, threads⟩ := Settings.of_refusal? fine
    dsimp only
    split
    · exact deed_fail command _ _ (by simp [Entry.Plain, LogLine.Plain])
    · split
      · exact deed_fail command _ _ (by simp [Entry.Plain, LogLine.Plain])
      · exact .poolMade command name settings capacity threads

theorem Command.deed (command : Command α) :
    Deed around s who (.command command) (command.effect around s) := by
  have heases : ∀ {s' : Store α}, s'.pools = s.pools → s'.latches = s.latches →
      s'.names.latches = s.names.latches → s'.names.pools = s.names.pools →
      s'.names.tickets = s.names.tickets → s.Eases s' := by
    intro s' hpools hlatches hl hp ht
    refine ⟨hpools, hlatches, fun place => ?_, .inl hp, fun ticket => ?_⟩
    · rw [Store.NamesLatch, hl]
      exact id
    · rw [Store.Keeps, ht]
      exact id
  cases command with
  | openGate gate => exact .commanded _ (heases rfl rfl rfl rfl rfl) .nothing (by simp)
  | readCells => exact deed_succeed _ (.refl s) _
  | readStandards => exact deed_succeed _ (.refl s) _
  | newSettings name settings style => exact deed_succeed _ (s.eases_keepSettings name settings) _
  | compareSettings left right =>
      refine deed_withObject _ (.refl s) left _ _ fun _ _ => ?_
      exact deed_withObject _ (.refl s) right _ _ fun _ _ => deed_succeed _ (.refl s) _
  | newMonitor name value => exact .commanded _ (heases rfl rfl rfl rfl rfl) .nothing (by simp)
  | onMonitor name request =>
      refine deed_withObject _ (.refl s) name _ _ fun place _ => ?_
      exact deed_withObject _ (.refl s) name _ _ fun m _ => request.deed _ place m
  | newChannel name capacity =>
      simp only [effect]
      split
      · exact deed_fail _ _ [] (by simp)
      · split
        · exact deed_fail _ _ [] (by simp)
        · exact .commanded _ (heases rfl rfl rfl rfl rfl) .nothing (by simp)
  | onChannel name request =>
      refine deed_withObject _ (.refl s) name _ _ fun place _ => ?_
      exact deed_withObject _ (.refl s) name _ _ fun c _ => request.deed _ place c
  | newLatch name count continuation =>
      cases continuation with
      | none => exact Latch.deed_setUp _ name count none
      | some text => exact deed_withJob _ text _ fun job _ => Latch.deed_setUp _ name count (some job)
  | aliasLatch name other =>
      refine deed_withObject _ (.refl s) other _ _ fun place hplace => ?_
      refine .commanded _ ⟨rfl, rfl, ?_, .inl rfl, fun _ h => h⟩ .nothing (by simp)
      rintro place' ⟨name', h⟩
      rcases Table.of_find?_insert h with rfl | h
      · exact ⟨other, hplace⟩
      · exact ⟨name', h⟩
  | onLatch name request =>
      refine deed_withObject _ (.refl s) name _ _ fun object hobject => ?_
      obtain ⟨hname, -⟩ := Store.of_latchNamed? hobject
      exact request.deed _ object.2 ⟨name, hname⟩
  | newJob name job =>
      exact deed_withJob _ job _ fun job _ => deed_succeed _ (s.eases_keepJob name job) _
  | onJob name request => exact request.deed _ name
  | newBatch name capacity waitable =>
      simp only [effect]
      split
      · exact deed_succeed _ (s.eases_keepBatch name _) _
      · exact deed_fail _ _ [] (by simp)
  | newFullBatch name programs waitable =>
      simp only [effect]
      split
      · exact deed_succeed _ (s.eases_keepBatch name _) _
      · exact deed_fail _ _ [] (by simp)
  | copyBatch name other =>
      refine deed_withObject _ (.refl s) other _ _ fun b _ => ?_
      exact deed_succeed _ (s.eases_keepBatch name b) _
  | onBatch name request => exact request.deed _ name
  | newPool name source =>
      cases source with
      | given settings => exact Pool.deed_setUp _ name settings
      | named source =>
          exact deed_withObject _ (.refl s) source _ _ fun settings _ =>
            Pool.deed_setUp _ name settings
  | onPool name request => exact request.deed name
  | onTicket name request => exact request.deed _ name
  | unknown word => exact deed_fail _ _ [] (by simp)

end Commands

section Functions

theorem Action.deed (self : String) (origin : Origin) (position : Nat) (action : Action)
    (rest : Program) (later : List Program) {e : Effect α}
    (h : action.effect s self = some e) :
    Deed around s who (.code origin position (some (action :: rest)) later)
      { e with ops := e.ops ++ [.code origin position (some rest) later] } := by
  have hacted : ∀ {s' : Store α} {ops : List (Op α)} {notes : List Entry}, s.Eases s' →
      Action.Leaves s ops → (∀ note ∈ notes, note.Plain) →
      Deed around s who (.code origin position (some (action :: rest)) later)
        { store := s', ops := ops ++ [.code origin position (some rest) later], notes } :=
    fun eases leaves plain => .acted origin position action rest later eases leaves plain
  have hevent : ∀ text : String, ∀ note ∈ [Entry.event text], note.Plain := by
    intro text note hnote
    rw [List.mem_singleton.mp hnote]
    trivial
  have hself : s.Eases s := .refl s
  cases action with
  | say event =>
      obtain rfl := Option.some.inj h
      exact hacted hself .nothing (hevent _)
  | sayThread =>
      obtain rfl := Option.some.inj h
      exact hacted hself .nothing (hevent _)
  | passGate gate =>
      simp only [effect] at h
      split at h
      · obtain rfl := Option.some.inj h
        exact hacted hself .nothing (by simp)
      · cases h
  | openGate gate =>
      obtain rfl := Option.some.inj h
      exact hacted ⟨rfl, rfl, fun _ h => h, .inl rfl, fun _ h => h⟩ .nothing (by simp)
  | panic payload =>
      obtain rfl := Option.some.inj h
      exact .actionRaised origin position _ rest later payload
  | write index value =>
      obtain rfl := Option.some.inj h
      split
      · exact hacted ⟨rfl, rfl, fun _ h => h, .inl rfl, fun _ h => h⟩ .nothing (by simp)
      · exact .actionRaised origin position _ rest later _
  | put value =>
      obtain rfl := Option.some.inj h
      exact hacted ⟨rfl, rfl, fun _ h => h, .inl rfl, fun _ h => h⟩ .nothing (by simp)
  | count name failed =>
      obtain rfl := Option.some.inj h
      split
      · rename_i place hplace
        exact hacted hself (.count place failed ⟨name, hplace⟩) (by simp)
      · exact hacted hself .nothing (hevent _)
  | terminate name =>
      obtain rfl := Option.some.inj h
      split
      · rename_i place hplace
        exact hacted hself (.terminate place ⟨name, hplace⟩) (by simp)
      · exact hacted hself .nothing (hevent _)
  | inspectLatch name =>
      obtain rfl := Option.some.inj h
      split
      · exact hacted hself .nothing (hevent _)
      · exact hacted hself .nothing (hevent _)
  | inspectPool name =>
      obtain rfl := Option.some.inj h
      split
      · exact hacted hself .nothing (hevent _)
      · exact hacted hself .nothing (hevent _)
  | shutDown name =>
      obtain rfl := Option.some.inj h
      split
      · rename_i place pool hpool
        exact hacted hself (.shutDown place ⟨name, (Store.of_poolNamed? hpool).1⟩)
          (by simp [Effect.holding, Entry.Plain, LogLine.Plain])
      · exact hacted hself .nothing (hevent _)
  | submit name text =>
      obtain rfl := Option.some.inj h
      split
      · rename_i job resolved
        split
        · rename_i place pool known
          exact Submission.deed_ofJob (.action origin position _ rest later)
            (.action origin position name text rest later job known resolved) rfl
        · exact hacted hself .nothing (hevent _)
      · exact hacted hself .nothing (hevent _)
  | perform name =>
      obtain rfl := Option.some.inj h
      split
      · exact hacted hself (.perform _) (by simp)
      · exact hacted hself .nothing (hevent _)

theorem Program.deed (self : String) (origin : Origin) (position : Nat) (current : Option Program)
    (later : List Program) {e : Effect α}
    (h : Program.effect s self origin position current later = some e) :
    Deed around s who (.code origin position current later) e := by
  cases current with
  | none =>
      cases later with
      | nil =>
          obtain rfl := Option.some.inj h
          exact .codeOver origin position
      | cons program later =>
          obtain rfl := Option.some.inj h
          exact .codeCalled origin position program later
  | some program =>
      cases program with
      | nil =>
          obtain rfl := Option.some.inj h
          exact .codeReturned origin position later
      | cons action rest =>
          obtain ⟨inner, hinner, rfl⟩ := Option.map_eq_some_iff.mp h
          exact Action.deed self origin position action rest later hinner

end Functions

section Calls

theorem Monitor.Call.deed {place : Nat} {m : Monitor Int} (call : Monitor.Call Int) {e : Effect α}
    (h : call.effect s place m = some e) : Deed around s who (.monitor place call) e := by
  obtain ⟨⟨object, next, wake⟩, -, rfl⟩ := Option.map_eq_some_iff.mp h
  cases next with
  | goes next => exact .monitorTurned place call (.inr ⟨next, rfl⟩)
  | returns reply => exact .monitorTurned place call (.inl rfl)

theorem Channel.Call.deed {place : Nat} {c : Channel α} (call : Channel.Call α) {e : Effect α}
    (h : call.effect s place c = some e) : Deed around s who (.channel place call) e := by
  obtain ⟨⟨object, next, wake⟩, -, rfl⟩ := Option.map_eq_some_iff.mp h
  cases next with
  | goes next => exact .channelTurned place call (.inr ⟨next, rfl⟩)
  | returns reply => exact .channelTurned place call (.inl rfl)

/-- A wait that ends is judged once; what follows is up to who waits. -/
theorem Waiter.deed {place : Nat} {l : Latch} {stage : Stage} {succeeded : Bool} (waiter : Waiter)
    (somebody : waiter ≠ .nobody) (found : s.latches[place]? = some l) (awake : stage ≠ .asleep)
    (verdict : l.Judges succeeded) :
    Deed around s who (.latch place (.wait stage) waiter) (waiter.effect s succeeded) := by
  cases waiter with
  | nobody => exact absurd rfl somebody
  | caller =>
      have : Deed around s who _ _ := .callerWaited place l stage succeeded found awake
        verdict
      cases succeeded with
      | true => exact this
      | false => exact this
  | ticket id =>
      have : Deed around s who _ _ := .ticketWaited place l stage id succeeded found
        awake verdict
      cases succeeded with
      | true => exact this
      | false => exact this
  | refused sub => exact .refusedWaited place l stage sub succeeded found awake verdict
  | ready pool name =>
      simp only [effect]
      split
      · rename_i p present
        exact .poolReady place l stage pool p name succeeded found awake verdict present
      · rename_i absent
        exact .poolMissed place l stage pool name succeeded found awake verdict absent

theorem Latch.Call.deed {place : Nat} {l : Latch} {call : Latch.Call} {waiter : Waiter}
    {e : Effect α} (proper : (Op.latch place call waiter : Op α).Proper)
    (found : s.latches[place]? = some l) (h : call.effect s place l waiter = some e) :
    Deed around s who (.latch place call waiter) e := by
  obtain ⟨turned, hturn, rfl⟩ := Option.map_eq_some_iff.mp h
  have hself : s.setLatch place l = s := Store.setLatch_self found
  cases turns_of_turn hturn with
  | ignored failed idle =>
      obtain rfl : waiter = .nobody := proper
      simp only [Latch.Call.notes, Latch.skips, idle, hself]
      exact .countIgnored place l failed found idle
  | skipped failed job counts last held spoilt =>
      obtain rfl : waiter = .nobody := proper
      simp only [Latch.Call.notes, Latch.skips, counts, last, held, spoilt]
      exact .countSkipped place l failed job found counts last held spoilt
  | started job counts last held sound =>
      obtain rfl : waiter = .nobody := proper
      simp only [Latch.Call.notes, Latch.skips, counts, last, held, sound]
      have : Deed around s who _ _ := .countStarted place l job found counts last held
        sound
      simpa [sound, last, Alarm.of] using this
  | counted failed counts plain =>
      obtain rfl : waiter = .nobody := proper
      have hskips : l.skips failed = false := by
        rcases plain with hlast | hnone
        · simp [Latch.skips, hlast]
        · simp [Latch.skips, hnone]
      have hpositive : l.value.remaining ≠ 0 := by
        intro hzero
        simp [Latch.counts, hzero] at counts
      simp only [Latch.Call.notes, hskips, counts]
      have : Deed around s who _ _ := .counted place l failed found counts plain
      rw [afterCount]
      by_cases hlast : l.value.remaining = 1
      · simpa [hlast, Alarm.of] using this
      · rw [if_neg hlast] at this
        rw [if_neg (show ¬l.value.remaining - 1 = 0 by omega)]
        exact this
  | through job succeeded =>
      obtain rfl : waiter = .nobody := proper
      have : Deed around s who _ _ := .continued place l job succeeded found
      rw [afterCount]
      by_cases hlast : l.value.remaining - 1 = 0
      · rw [if_pos hlast] at this ⊢
        exact this
      · rw [if_neg hlast] at this ⊢
        exact this
  | announced =>
      obtain rfl : waiter = .nobody := proper
      simp only [hself]
      exact .latchAnnounced place l found
  | passed stage awake zero =>
      simp only [hself]
      exact waiter.deed proper found awake (.inl ⟨zero, rfl⟩)
  | refused stage awake down =>
      simp only [hself]
      exact waiter.deed proper found awake (.inr ⟨down, rfl⟩)
  | asleep stage awake up held =>
      simp only [hself]
      exact .waitSlept place l stage waiter found awake up held
  | terminated held idle =>
      obtain rfl : waiter = .nobody := proper
      exact .latchTerminated place l found held idle
  | spared closed =>
      obtain rfl : waiter = .nobody := proper
      simp only [hself]
      exact .latchSpared place l found closed

theorem Backlog.Call.deed {place : Nat} {pool : Pool} {call : Backlog.Call} {e : Effect α}
    (proper : (Op.backlog place call : Op α).Proper) (found : s.pools[place]? = some pool)
    (h : call.effect s place pool = some e) : Deed around s who (.backlog place call) e := by
  obtain ⟨turned, hturn, rfl⟩ := Option.map_eq_some_iff.mp h
  have hself : s.setPool place { pool with backlog := pool.backlog } = s := Store.setPool_self found
  cases turns_of_turn hturn with
  | enlisted => exact proper.elim
  | left =>
      have : Deed around s who _ _ := .left place pool found
      by_cases hlast : pool.backlog.value - 1 = 0
      · simp only [if_pos hlast] at this ⊢
        exact this
      · simp only [if_neg hlast] at this ⊢
        exact this
  | announced =>
      simp only [hself]
      exact .backlogAnnounced place pool found
  | idle stage awake through =>
      simp only [hself]
      exact .idled place pool stage found awake through
  | asleep stage awake held =>
      simp only [hself]
      exact .idleSlept place pool stage found awake held

end Calls

section Pools

theorem Submission.deed_accept {sub : Submission} {pool : Pool}
    (found : s.pools[sub.pool]? = some pool) (through : sub.rest = []) :
    Deed around s who (.submit sub .next) (sub.accept s) := by
  unfold accept
  split
  · rename_i name asked
    exact .accepted sub pool found through (.early name asked) (by simp)
  · rename_i name asked
    exact .accepted sub pool found through (.late name asked) (by simp)
  · rename_i asked
    exact .accepted sub pool found through (.function asked) (by simp [Entry.Plain])

theorem Submission.deed_refuse {sub : Submission} {pool : Pool}
    (found : s.pools[sub.pool]? = some pool) :
    Deed around s who (.submit sub .refused) (sub.refuse s) := by
  unfold refuse
  split
  · rename_i name handover asked
    exact .refused sub pool found (.step name handover _ asked) (by simp)
  · rename_i asked
    exact .refused sub pool found (.function asked) (by simp [Entry.Plain])

theorem SubmissionPhase.deed {sub : Submission} {phase : SubmissionPhase} {pool : Pool}
    {e : Effect α} (proper : (Op.submit sub phase : Op α).Proper)
    (found : s.pools[sub.pool]? = some pool) (h : phase.effect s pool sub = some e) :
    Deed around s who (.submit sub phase) e := by
  have hself : s.setPool sub.pool { pool with intake := pool.intake } = s :=
    Store.setPool_self found
  cases phase with
  | next =>
      simp only [effect] at h
      split at h
      · rename_i through
        obtain rfl := Option.some.inj h
        exact Submission.deed_accept found through
      · rename_i job rest ahead
        obtain rfl := Option.some.inj h
        exact .memberAdded sub pool job rest found ahead
  | enlist item =>
      obtain rfl := Option.some.inj h
      exact .enlisted sub pool item found
  | send call =>
      obtain ⟨turned, hturn, rfl⟩ := Option.map_eq_some_iff.mp h
      cases Channel.Call.turns_of_turn hturn with
      | shut item down =>
          simp only [hself]
          exact .givenBack sub pool item _ found down (.inl rfl)
      | offered item up =>
          simp only [hself]
          exact .offered sub pool item found up
      | givenBack item stage awake down =>
          simp only [hself]
          exact .givenBack sub pool item _ found down (.inr ⟨stage, awake, rfl⟩)
      | pushed item stage awake up room => exact .pushed sub pool item stage found awake up room
      | full item stage awake up full =>
          simp only [hself]
          exact .sendSlept sub pool item stage found awake up full
      | announced reply =>
          cases reply with
          | sent =>
              simp only [hself]
              exact .sendAnnounced sub pool found
          | _ => exact proper.elim
      | stopped | popped | empty | drained | terminated => exact proper.elim
  | refuse item =>
      obtain rfl := Option.some.inj h
      exact .refusing sub pool item found
  | refused =>
      obtain rfl := Option.some.inj h
      exact Submission.deed_refuse found

theorem Ticket.deed_hand (ticket : Ticket) (name : Option String) :
    Deed around s who (.hand ticket name) (ticket.hand s name) := by
  cases name with
  | none => exact .handed ticket none ⟨rfl, rfl, rfl, rfl⟩ fun _ h => .inr h
  | some name =>
      refine .handed ticket (some name) ⟨rfl, rfl, rfl, rfl⟩ ?_
      rintro other ⟨name', h⟩
      exact (Table.of_find?_insert h).imp_right fun h => ⟨name', h⟩

theorem Construction.deed {construction : Construction} {succeeded : Bool} {e : Effect α}
    (h : construction.effect s succeeded = some e) :
    Deed around s who (.construct construction succeeded) e := by
  cases construction with
  | latch name =>
      obtain rfl := Option.some.inj h
      exact .latchSettled name succeeded
  | submission place batch id asker =>
      obtain ⟨pool, found, rfl⟩ := Option.map_eq_some_iff.mp h
      exact .batchSettled place pool batch id asker succeeded found

theorem WorkerPhase.deed {place index : Nat} {phase : WorkerPhase} {pool : Pool} {e : Effect α}
    (proper : (Op.work place index phase : Op α).Proper) (valid : pool.intake.value.Valid)
    (found : s.pools[place]? = some pool) (h : phase.effect s place pool index = some e) :
    Deed around s who (.work place index phase) e := by
  have hself : s.setPool place { pool with intake := pool.intake } = s := Store.setPool_self found
  cases phase with
  | start =>
      obtain rfl := Option.some.inj h
      exact .workStarted place index pool found
  | receive call =>
      obtain ⟨turned, hturn, rfl⟩ := Option.map_eq_some_iff.mp h
      cases Channel.Call.turns_of_turn hturn with
      | stopped stage awake down =>
          simp only [hself]
          exact .workerStopped place index pool stage found awake down
      | popped stage awake up stock =>
          obtain ⟨item, left, hpop, hvalid, hlist, hcapacity⟩ := valid.pop stock
          simp only [hpop]
          exact .taken place index pool stage item left found awake up hvalid hlist hcapacity
      | empty stage awake up empty =>
          simp only [hself]
          exact .receiveSlept place index pool stage found awake up empty
      | announced reply =>
          cases reply with
          | received item =>
              cases item with
              | none => exact proper.elim
              | some item =>
                  simp only [hself]
                  exact .receiveAnnounced place index pool item found
          | _ => exact proper.elim
      | shut | offered | givenBack | pushed | full | drained | terminated => exact proper.elim
  | begin item =>
      obtain rfl := Option.some.inj h
      exact .jobStarted place index pool item found
  | running item panic =>
      cases panic with
      | none =>
          obtain rfl := Option.some.inj h
          exact .jobRan place index pool item found
      | some payload =>
          obtain rfl := Option.some.inj h
          exact .jobBroke place index pool item payload found
  | finish item succeeded =>
      obtain rfl := Option.some.inj h
      exact .jobFinished place index pool item succeeded found

theorem ShutdownPhase.deed {place : Nat} {phase : ShutdownPhase} {pool : Pool} {e : Effect α}
    (proper : (Op.shutDown place phase : Op α).Proper) (valid : pool.intake.value.Valid)
    (found : s.pools[place]? = some pool) (h : phase.effect s place pool = some e) :
    Deed around s who (.shutDown place phase) e := by
  have hself : s.setPool place { pool with intake := pool.intake } = s := Store.setPool_self found
  cases phase with
  | check =>
      obtain rfl := Option.some.inj h
      cases hdown : pool.isDown with
      | true => exact .checkedDown place pool found hdown
      | false => exact .checkedUp place pool found hdown
  | call call =>
      obtain ⟨turned, hturn, rfl⟩ := Option.map_eq_some_iff.mp h
      cases Channel.Call.turns_of_turn hturn with
      | drained =>
          obtain ⟨left, hdrain, hvalid, hempty, hcapacity⟩ := valid.drain
          simp only [hdrain]
          exact .drained place pool left found hvalid hempty hcapacity
      | terminated => exact .poolTerminated place pool found
      | announced reply =>
          cases reply with
          | drained items =>
              simp only [hself]
              exact .abandoned place pool items found
          | _ => exact proper.elim
      | shut | offered | givenBack | pushed | full | stopped | popped | empty => exact proper.elim
  | done =>
      obtain rfl := Option.some.inj h
      exact .shutDownOver place pool found

theorem Op.deed_spawn {place index : Nat} {name : String} {pool : Pool}
    (found : s.pools[place]? = some pool) :
    Deed around s who (.spawn place index name) (Op.spawnEffect s place pool index name) := by
  unfold spawnEffect
  split
  · rename_i inside
    exact .spawned place index name pool found inside
  · rename_i outside
    exact .spawnedAll place index name pool found (Nat.le_of_not_lt outside)

theorem Op.deed_join {place index : Nat} {waiting : Bool} {pool : Pool} {e : Effect α}
    (found : s.pools[place]? = some pool)
    (h : Op.joinEffect around s who place pool index waiting = some e) :
    Deed around s who (.join place index waiting) e := by
  simp only [joinEffect] at h
  split at h
  · rename_i outside
    obtain rfl := Option.some.inj h
    exact .joinedAll place index waiting pool found outside
  · rename_i inside
    cases waiting with
    | true =>
        simp only [if_true] at h
        split at h
        · rename_i ended
          obtain rfl := Option.some.inj h
          exact .joined place index pool found ended
        · cases h
    | false =>
        simp only [Bool.false_eq_true, if_false] at h
        split at h
        · rename_i stuck
          obtain rfl := Option.some.inj h
          refine .deadlocked place index pool found (Nat.lt_of_not_le inside) ?_
          rw [Bool.or_eq_true, beq_iff_eq, beq_iff_eq] at stuck
          exact stuck.imp_left Eq.symm
        · obtain rfl := Option.some.inj h
          exact .joinBegun place index pool found (Nat.lt_of_not_le inside)

theorem Op.deed_release {place : Nat} {pool : Pool} (found : s.pools[place]? = some pool) :
    Deed around s who (.release place) (Op.releaseEffect around s place pool) := by
  unfold releaseEffect
  split
  · rename_i kept
    exact .released place pool found (by simpa using kept)
  · rename_i unheld
    simp only [Bool.or_eq_true, not_or, Bool.not_eq_true] at unheld
    exact .lastReleased place pool found unheld.1 unheld.2

end Pools

/-- Every turn is in the list. -/
theorem Op.deed {op : Op α} {e : Effect α} (proper : op.Proper) (rings : s.RingsValid)
    (h : op.effect around s who = some e) : Deed around s who op e := by
  cases op with
  | command command =>
      obtain rfl := Option.some.inj h
      exact command.deed
  | code origin position current later => exact Program.deed _ origin position current later h
  | monitor place call =>
      obtain ⟨m, -, h⟩ := Option.bind_eq_some_iff.mp h
      exact call.deed h
  | channel place call =>
      obtain ⟨c, -, h⟩ := Option.bind_eq_some_iff.mp h
      exact call.deed h
  | latch place call waiter =>
      obtain ⟨l, found, h⟩ := Option.bind_eq_some_iff.mp h
      exact Latch.Call.deed proper found h
  | backlog place call =>
      obtain ⟨pool, found, h⟩ := Option.bind_eq_some_iff.mp h
      exact Backlog.Call.deed proper found h
  | submit sub phase =>
      obtain ⟨pool, found, h⟩ := Option.bind_eq_some_iff.mp h
      exact SubmissionPhase.deed proper found h
  | construct construction succeeded => exact Construction.deed h
  | work place index phase =>
      obtain ⟨pool, found, h⟩ := Option.bind_eq_some_iff.mp h
      exact WorkerPhase.deed proper (rings place pool found) found h
  | shutDown place phase =>
      obtain ⟨pool, found, h⟩ := Option.bind_eq_some_iff.mp h
      exact ShutdownPhase.deed proper (rings place pool found) found h
  | spawn place index name =>
      obtain ⟨pool, found, rfl⟩ := Option.map_eq_some_iff.mp h
      exact Op.deed_spawn found
  | join place index waiting =>
      obtain ⟨pool, found, h⟩ := Option.bind_eq_some_iff.mp h
      exact Op.deed_join found h
  | release place =>
      obtain ⟨pool, found, rfl⟩ := Option.map_eq_some_iff.mp h
      exact Op.deed_release found
  | hand ticket name =>
      obtain rfl := Option.some.inj h
      exact ticket.deed_hand name
  | answer given =>
      obtain rfl := Option.some.inj h
      exact .answered given

end WorkerPool
