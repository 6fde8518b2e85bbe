import WorkerPool.Proofs.Moments

/-! What most turns leave alone. Channels and monitors that anybody may use, and the cells of
memory, are changed by few turns: by the commands that make a channel or a monitor or ask something
of one, by the turns of the calls that such commands begin, and by a function that writes a cell.
Every other turn leaves all three as they are, and leaves no call on a channel or a monitor to be
made. -/

namespace WorkerPool

variable {α : Type}

/-- The store `t` has the channels, the monitors and the cells of `s`. -/
structure Store.Retains (s t : Store α) : Prop where
  channels : t.channels = s.channels
  monitors : t.monitors = s.monitors
  cells : t.cells = s.cells

theorem Store.Retains.refl (s : Store α) : s.Retains s :=
  ⟨rfl, rfl, rfl⟩

/-- The operation is a call on a channel or a monitor. -/
def Op.Outer : Op α → Prop
  | .monitor .. | .channel .. => True
  | _ => False

/-- The command is about a channel or a monitor. -/
def Command.Outer : Command α → Prop
  | .newMonitor .. | .onMonitor .. | .newChannel .. | .onChannel .. => True
  | _ => False

/-- Operations whose turn may change a channel, a monitor or a cell. -/
def Op.Active : Op α → Prop
  | .command given => given.Outer
  | .monitor .. | .channel .. | .code _ _ (some (.write .. :: _)) _ => True
  | _ => False

theorem Op.Active.write {origin : Origin} {position : Nat} {current : Option Program}
    {later : List Program} (active : (Op.code origin position current later : Op α).Active) :
    ∃ index value rest, current = some (.write index value :: rest) := by
  rcases current with _ | ⟨_ | ⟨action, rest⟩⟩
  · exact active.elim
  · exact active.elim
  · cases action with
    | write index value => exact ⟨index, value, rest, rfl⟩
    | _ => exact active.elim

/-- The effect leaves channels, monitors and cells as they are and calls no channel and no monitor.
-/
structure Effect.Inert (s : Store α) (e : Effect α) : Prop where
  retains : s.Retains e.store
  quiet : ∀ op ∈ e.ops, ¬op.Outer

section Commands

variable {around : Around} {s t : Store α}

open Effect (Inert)

theorem inert_fail (failure : Failure α) (notes : List Entry) (retains : s.Retains t) :
    Inert s (.fail t failure notes) :=
  ⟨retains, by simp [Effect.fail]⟩

theorem inert_succeed (value : Value α) (retains : s.Retains t) : Inert s (.succeed t value) :=
  ⟨retains, by simp [Effect.succeed]⟩

theorem inert_withObject {β : Type} (name : String) (object? : Option β) (f : β → Effect α)
    (retains : s.Retains t) (h : ∀ object, object? = some object → Inert s (f object)) :
    Inert s (Effect.withObject t name object? f) := by
  cases object? with
  | none => exact inert_fail _ [] retains
  | some object => exact h object rfl

theorem inert_withJob (text : JobText) (f : Job → Effect α) (h : ∀ job, Inert s (f job)) :
    Inert s (Effect.withJob s text f) := by
  unfold Effect.withJob
  split
  · exact h _
  · exact inert_fail _ [] (.refl s)

theorem inert_performing (programs : List Program) : Inert s (Effect.performing s programs) :=
  ⟨.refl s, by simp [Effect.performing, Op.perform, Op.Outer]⟩

theorem LatchRequest.inert (place : Nat) (l : Latch) (request : LatchRequest) :
    Inert s (request.effect s place l) := by
  cases request with
  | describe => exact inert_succeed _ (.refl s)
  | _ => exact ⟨.refl s, by simp [effect, Op.Outer]⟩

theorem Latch.inert_setUp (name : String) (count : Nat) (continuation : Option Job) :
    Inert s (Latch.setUp s name count continuation) := by
  cases continuation with
  | none => exact inert_succeed _ ⟨rfl, rfl, rfl⟩
  | some job =>
      unfold setUp
      dsimp only
      split
      · exact ⟨.refl s, by simp [Op.perform, Op.Outer]⟩
      · exact inert_succeed _ ⟨rfl, rfl, rfl⟩

theorem JobRequest.inert (name : String) (request : JobRequest) :
    Inert s (request.effect s name) := by
  cases request with
  | followBy next =>
      exact inert_withJob next _ fun job =>
        inert_withObject name _ _ (.refl s) fun found _ => inert_succeed _ ⟨rfl, rfl, rfl⟩
  | perform => exact inert_withObject name _ _ (.refl s) fun found _ => inert_performing _
  | describe =>
      exact inert_withObject name _ _ (.refl s) fun found _ => inert_succeed _ (.refl s)

theorem BatchRequest.inert (name : String) (request : BatchRequest) :
    Inert s (request.effect s name) := by
  cases request with
  | add text =>
      refine inert_withJob text _ fun job => inert_withObject name _ _ (.refl s) fun b _ => ?_
      split
      · exact inert_succeed _ ⟨rfl, rfl, rfl⟩
      · exact inert_fail _ [] (.refl s)
  | addProgram program =>
      refine inert_withObject name _ _ (.refl s) fun b _ => ?_
      split
      · exact inert_succeed _ ⟨rfl, rfl, rfl⟩
      · exact inert_fail _ [] (.refl s)
  | setFinale text builder =>
      exact inert_withJob text _ fun job =>
        inert_withObject name _ _ (.refl s) fun b _ => inert_succeed _ ⟨rfl, rfl, rfl⟩
  | perform => exact inert_withObject name _ _ (.refl s) fun b _ => inert_performing _
  | describe => exact inert_withObject name _ _ (.refl s) fun b _ => inert_succeed _ (.refl s)

theorem Submission.inert_ofJob (place : Nat) (pool : Pool) (job : Job) (asker : Asker) :
    Inert s (Submission.ofJob s place pool job asker) := by
  unfold ofJob
  split <;> exact ⟨⟨rfl, rfl, rfl⟩, by simp [Op.Outer]⟩

theorem Submission.inert_ofBatch (place : Nat) (pool : Pool) (batch : Batch) (asker : Asker) :
    Inert s (Submission.ofBatch s place pool batch asker) := by
  unfold ofBatch
  dsimp only
  split
  · exact ⟨⟨rfl, rfl, rfl⟩, by simp [Op.perform, Op.Outer]⟩
  · split <;> exact ⟨⟨rfl, rfl, rfl⟩, by simp [ofMembers, Op.Outer]⟩

theorem PoolRequest.inert (name : String) (request : PoolRequest) :
    Inert s (request.effect around s name) := by
  cases request with
  | submit text ticket handover =>
      exact inert_withJob text _ fun job =>
        inert_withObject name _ _ (.refl s) fun found _ => Submission.inert_ofJob _ _ job _
  | submitBatch batch ticket =>
      exact inert_withObject batch _ _ (.refl s) fun b _ =>
        inert_withObject name _ _ (.refl s) fun found _ => Submission.inert_ofBatch _ _ b _
  | describe =>
      exact inert_withObject name _ _ (.refl s) fun found _ => inert_succeed _ (.refl s)
  | destroy =>
      refine inert_withObject name _ _ (.refl s) fun found _ => ?_
      dsimp only
      split
      · exact inert_fail _ [] (.refl s)
      · exact ⟨⟨rfl, rfl, rfl⟩, by simp [Op.Outer]⟩
  | _ =>
      exact inert_withObject name _ _ (.refl s) fun found _ =>
        ⟨.refl s, by simp [Effect.holding, Op.Outer]⟩

theorem Ticket.inert_ask (ticket : Ticket) (f : Latch → Value α) : Inert s (ticket.ask s f) := by
  unfold ask
  split
  · exact inert_fail _ [] (.refl s)
  · split
    · exact inert_succeed _ (.refl s)
    · exact ⟨.refl s, by simp⟩

theorem Ticket.inert_await (ticket : Ticket) (retains : s.Retains t) :
    Inert s (ticket.await t) := by
  unfold await
  dsimp only
  split
  · exact inert_fail _ _ retains
  · exact ⟨retains, by simp [Op.Outer]⟩

theorem Effect.Inert.holding {e : Effect α} (inert : Inert s e) (place : Nat) :
    Inert s (e.holding place) := by
  refine ⟨inert.retains, fun op hop => ?_⟩
  rcases List.mem_append.mp hop with hop | hop
  · exact inert.quiet op hop
  · obtain rfl := List.mem_singleton.mp hop
    exact id

theorem TicketRequest.inert (name : String) (request : TicketRequest) :
    Inert s (request.effect s name) := by
  cases request with
  | describe =>
      exact inert_withObject name _ _ (.refl s) fun ticket _ => inert_succeed _ (.refl s)
  | isComplete => exact inert_withObject name _ _ (.refl s) fun ticket _ => ticket.inert_ask _
  | remaining =>
      simp only [effect]
      split
      · exact Ticket.inert_ask _ _
      · exact inert_fail _ [] (.refl s)
  | isBefore other =>
      exact inert_withObject name _ _ (.refl s) fun ticket _ =>
        inert_withObject other _ _ (.refl s) fun other _ => inert_succeed _ (.refl s)
  | wait via =>
      cases via with
      | none =>
          exact inert_withObject name _ _ ⟨rfl, rfl, rfl⟩ fun ticket _ =>
            ticket.inert_await ⟨rfl, rfl, rfl⟩
      | some pool =>
          refine inert_withObject pool _ _ ⟨rfl, rfl, rfl⟩ fun place _ =>
            inert_withObject name _ _ ⟨rfl, rfl, rfl⟩ fun ticket _ =>
              Effect.Inert.holding ?_ place
          exact ticket.inert_await ⟨rfl, rfl, rfl⟩

theorem Pool.inert_setUp (name : String) (settings : Settings) :
    Inert s (Pool.setUp s name settings) := by
  unfold setUp
  dsimp only
  split
  · exact inert_fail _ [] (.refl s)
  · split
    · exact inert_fail _ _ (.refl s)
    · split
      · exact inert_fail _ _ (.refl s)
      · exact ⟨⟨rfl, rfl, rfl⟩, by simp [Op.Outer]⟩

/-- The first turn of a command that is about neither a channel nor a monitor. -/
theorem Command.inert (command : Command α) (inner : ¬command.Outer) :
    Inert s (command.effect around s) := by
  cases command with
  | newMonitor | onMonitor | newChannel | onChannel => exact absurd trivial inner
  | openGate | readCells | readStandards | newSettings =>
      exact inert_succeed _ ⟨rfl, rfl, rfl⟩
  | compareSettings left right =>
      exact inert_withObject left _ _ (.refl s) fun _ _ =>
        inert_withObject right _ _ (.refl s) fun _ _ => inert_succeed _ (.refl s)
  | newLatch name count continuation =>
      cases continuation with
      | none => exact Latch.inert_setUp name count none
      | some text => exact inert_withJob text _ fun job => Latch.inert_setUp name count (some job)
  | aliasLatch name other =>
      exact inert_withObject other _ _ (.refl s) fun _ _ => inert_succeed _ ⟨rfl, rfl, rfl⟩
  | onLatch name request =>
      exact inert_withObject name _ _ (.refl s) fun found _ => request.inert _ _
  | newJob name text => exact inert_withJob text _ fun _ => inert_succeed _ ⟨rfl, rfl, rfl⟩
  | onJob name request => exact request.inert name
  | newBatch name capacity waitable =>
      simp only [effect]
      split
      · exact inert_succeed _ ⟨rfl, rfl, rfl⟩
      · exact inert_fail _ [] (.refl s)
  | newFullBatch name programs waitable =>
      simp only [effect]
      split
      · exact inert_succeed _ ⟨rfl, rfl, rfl⟩
      · exact inert_fail _ [] (.refl s)
  | copyBatch name other =>
      exact inert_withObject other _ _ (.refl s) fun _ _ => inert_succeed _ ⟨rfl, rfl, rfl⟩
  | onBatch name request => exact request.inert name
  | newPool name source =>
      cases source with
      | given settings => exact Pool.inert_setUp name settings
      | named other =>
          exact inert_withObject other _ _ (.refl s) fun settings _ =>
            Pool.inert_setUp name settings
  | onPool name request => exact request.inert name
  | onTicket name request => exact request.inert name
  | unknown word => exact inert_fail _ [] (.refl s)

end Commands

section Operations

variable {around : Around} {s : Store α} {who : Who} {e : Effect α}

open Effect (Inert)

/-- Only a write changes a cell. -/
theorem Action.inert {self : String} {action : Action} (h : action.effect s self = some e)
    (reads : ∀ index value, action ≠ .write index value) : Inert s e := by
  have missing : ∀ name : String, Inert s (Action.missing s name) := fun name =>
    ⟨.refl s, by simp [Action.missing]⟩
  cases action with
  | write index value => exact absurd rfl (reads index value)
  | passGate gate =>
      simp only [effect] at h
      split at h
      · obtain rfl := Option.some.inj h
        exact ⟨.refl s, by simp⟩
      · cases h
  | submit name text =>
      obtain rfl := Option.some.inj h
      split
      · split
        · exact Submission.inert_ofJob _ _ _ _
        · exact missing _
      · exact missing _
  | count name failed | terminate name | inspectLatch name | inspectPool name | perform name =>
      obtain rfl := Option.some.inj h
      split
      · exact ⟨.refl s, by simp [Op.perform, Op.Outer]⟩
      · exact missing _
  | shutDown name =>
      obtain rfl := Option.some.inj h
      split
      · exact ⟨.refl s, by simp [Effect.holding, Op.Outer]⟩
      · exact missing _
  | _ =>
      obtain rfl := Option.some.inj h
      exact ⟨⟨rfl, rfl, rfl⟩, by simp⟩

theorem Program.inert {self : String} {origin : Origin} {position : Nat}
    {current : Option Program} {later : List Program}
    (h : Program.effect s self origin position current later = some e)
    (reads : ¬(Op.code origin position current later : Op α).Active) : Inert s e := by
  unfold Program.effect at h
  split at h
  · obtain rfl := Option.some.inj h
    exact ⟨.refl s, by simp⟩
  · obtain rfl := Option.some.inj h
    exact ⟨.refl s, by simp [Op.Outer]⟩
  · obtain rfl := Option.some.inj h
    exact ⟨.refl s, by simp [Op.Outer]⟩
  · obtain ⟨e', haction, rfl⟩ := Option.map_eq_some_iff.mp h
    have inert : Inert s e' := by
      refine Action.inert haction ?_
      rintro index value rfl
      exact reads trivial
    refine ⟨inert.retains, fun op hop => ?_⟩
    rcases List.mem_append.mp hop with hop | hop
    · exact inert.quiet op hop
    · obtain rfl := List.mem_singleton.mp hop
      exact id

/-- The operations that neither command, perform functions nor give anything to a step, and whose
calls are on objects that pools have. -/
def Op.Inner : Op α → Prop
  | .command _ | .code .. | .monitor .. | .channel .. | .hand .. => False
  | _ => True

theorem Op.Settles.not_outer {op : Op α} (settles : op.Settles) : ¬op.Outer := by
  cases settles <;> exact id

theorem Deed.inert {op : Op α} (deed : Deed around s who op e) (inner : op.Inner) : Inert s e := by
  have quiet : ∀ {ops : List (Op α)}, (∀ op ∈ ops, op.Settles) → ∀ op ∈ ops, ¬op.Outer :=
    fun settles op hop => (settles op hop).not_outer
  cases deed with
  | commanded | latchMade | poolMade | batchAdded | freeBatchAdded | emptyBatchAdded | codeOver
  | codeCalled | codeReturned | acted | actionRaised | monitorTurned | channelTurned | handed =>
      exact inner.elim
  | jobAdded submits | freeJobAdded submits => cases submits <;> exact inner.elim
  | accepted sub pool found through hands =>
      cases hands <;> exact ⟨.refl s, by simp [Op.Outer]⟩
  | refused sub pool found refuses => cases refuses <;> exact ⟨.refl s, by simp [Op.Outer]⟩
  | refusing sub pool item found =>
      refine ⟨.refl s, fun op hop => ?_⟩
      rcases List.mem_append.mp hop with hop | hop
      · exact quiet (Op.discard_settles sub.pool item) op hop
      · exact quiet sub.afterRefusal_settles op hop
  | jobRan place i pool item found | jobBroke place i pool item payload found =>
      refine ⟨.refl s, fun op hop => ?_⟩
      rcases List.mem_append.mp hop with hop | hop
      · exact quiet (Op.complete_settles item.latch _) op hop
      · obtain rfl := List.mem_singleton.mp hop
        exact id
  | abandoned place pool items found =>
      refine ⟨.refl s, fun op hop => ?_⟩
      rcases List.mem_append.mp hop with hop | hop
      · exact quiet (Op.flatMap_discard_settles place items) op hop
      · obtain rfl := List.mem_singleton.mp hop
        exact id
  | poolReady =>
      refine ⟨⟨rfl, rfl, rfl⟩, fun op hop => ?_⟩
      simp only [List.mem_append, List.mem_map, List.mem_singleton] at hop
      rcases hop with ⟨q, -, rfl⟩ | rfl <;> exact id
  | counted | continued | left =>
      refine ⟨⟨rfl, rfl, rfl⟩, fun op hop => ?_⟩
      dsimp only at hop
      split at hop
      · obtain rfl := List.mem_singleton.mp hop
        exact id
      · cases hop
  | _ => exact ⟨⟨rfl, rfl, rfl⟩, by simp [Op.perform, Op.Outer]⟩

theorem Ticket.inert_hand (ticket : Ticket) (name : Option String) :
    Inert s (ticket.hand s name) := by
  cases name <;> exact inert_succeed _ ⟨rfl, rfl, rfl⟩

/-- The turn of an operation that is not active. -/
theorem Op.inert {op : Op α} (h : op.effect around s who = some e)
    (deed : Deed around s who op e) (idle : ¬op.Active) : Inert s e := by
  cases op with
  | command given =>
      obtain rfl := Option.some.inj h
      exact given.inert idle
  | monitor | channel => exact absurd trivial idle
  | code => exact Program.inert h idle
  | hand ticket name =>
      obtain rfl := Option.some.inj h
      exact ticket.inert_hand name
  | _ => exact deed.inert trivial

/-- A write changes one cell, or panics where there is none. -/
theorem Op.effect_write {origin : Origin} {position index : Nat} {value : Int} {rest : List Action}
    {later : List Program}
    (h : (Op.code origin position (some (.write index value :: rest)) later).effect around s who =
      some e) :
    e.ops = [.code origin position (some rest) later] ∧
      ((index < s.cells.length ∧ e.store = { s with cells := s.cells.set index value } ∧
          e.panic = none) ∨
        (s.cells.length ≤ index ∧ e.store = s ∧ e.panic.isSome)) := by
  obtain rfl := Option.some.inj h
  by_cases there : index < s.cells.length
  · exact ⟨by simp [there], .inl ⟨there, by simp [there], by simp [there]⟩⟩
  · exact ⟨by simp [there], .inr ⟨Nat.le_of_not_lt there, by simp [there], by simp [there]⟩⟩

theorem Op.Loose.not_outer {op : Op α} (loose : op.Loose) : ¬op.Outer := by
  cases op with
  | monitor | channel => exact loose.elim
  | _ => exact id

theorem Op.Lands.not_outer {payload : Payload} {old new : List (Op α)} {notes : List Entry}
    (lands : Op.Lands payload old new notes) :
    (∀ op ∈ old, ¬op.Outer) ∧ ∀ op ∈ new, ¬op.Outer := by
  cases lands <;> simp [Op.Outer]

end Operations

end WorkerPool
