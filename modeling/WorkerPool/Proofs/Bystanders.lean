import WorkerPool.Proofs.Inert

/-! What has nothing to do with batches. A batch is a thing of its caller: it is handed to a pool as
it stands, and neither the calls on other objects nor the functions that are performed come near it.
So apart from the commands about batches no turn changes what the names of batches stand for. -/

namespace WorkerPool

variable {α : Type}

section Commands

variable {around : Around} {s t : Store α}

theorem batches_withObject {β : Type} (name : String) (object? : Option β) (f : β → Effect α)
    (same : t.names.batches = s.names.batches)
    (h : ∀ object, (f object).store.names.batches = s.names.batches) :
    (Effect.withObject t name object? f).store.names.batches = s.names.batches := by
  cases object? with
  | none => exact same
  | some object => exact h object

theorem batches_withJob (text : JobText) (f : Job → Effect α)
    (h : ∀ job, (f job).store.names.batches = s.names.batches) :
    (Effect.withJob s text f).store.names.batches = s.names.batches := by
  unfold Effect.withJob
  split
  · exact h _
  · rfl

theorem Latch.batches_setUp (name : String) (count : Nat) (continuation : Option Job) :
    (Latch.setUp s name count continuation).store.names.batches = s.names.batches := by
  cases continuation with
  | none => rfl
  | some job =>
      unfold setUp
      dsimp only
      split <;> rfl

theorem JobRequest.batches (name : String) (request : JobRequest) :
    (request.effect s name).store.names.batches = s.names.batches := by
  cases request with
  | followBy next =>
      exact batches_withJob next _ fun _ => batches_withObject name _ _ rfl fun _ => rfl
  | _ => exact batches_withObject name _ _ rfl fun _ => rfl

theorem Submission.batches_ofBatch (place : Nat) (pool : Pool) (batch : Batch) (asker : Asker) :
    (Submission.ofBatch s place pool batch asker).store.names.batches = s.names.batches := by
  unfold ofBatch
  dsimp only
  split
  · rfl
  · split <;> rfl

theorem PoolRequest.batches (name : String) (request : PoolRequest) :
    (request.effect around s name).store.names.batches = s.names.batches := by
  cases request with
  | submit text ticket handover =>
      exact batches_withJob text _ fun _ => batches_withObject name _ _ rfl fun _ => rfl
  | submitBatch batch ticket =>
      exact batches_withObject batch _ _ rfl fun _ =>
        batches_withObject name _ _ rfl fun _ => Submission.batches_ofBatch ..
  | destroy =>
      refine batches_withObject name _ _ rfl fun _ => ?_
      dsimp only
      split <;> rfl
  | _ => exact batches_withObject name _ _ rfl fun _ => rfl

theorem Ticket.batches_ask (ticket : Ticket) (f : Latch → Value α) :
    (ticket.ask s f).store.names.batches = s.names.batches := by
  unfold ask
  split
  · rfl
  · split <;> rfl

theorem Ticket.batches_await (ticket : Ticket) :
    (ticket.await s).store.names.batches = s.names.batches := by
  unfold await
  dsimp only
  split <;> rfl

theorem TicketRequest.batches (name : String) (request : TicketRequest) :
    (request.effect s name).store.names.batches = s.names.batches := by
  cases request with
  | describe => exact batches_withObject name _ _ rfl fun _ => rfl
  | isComplete => exact batches_withObject name _ _ rfl fun ticket => ticket.batches_ask _
  | remaining =>
      simp only [effect]
      split
      · exact Ticket.batches_ask _ _
      · rfl
  | isBefore other =>
      exact batches_withObject name _ _ rfl fun _ => batches_withObject other _ _ rfl fun _ => rfl
  | wait via =>
      cases via with
      | none => exact batches_withObject name _ _ rfl fun ticket => ticket.batches_await
      | some pool =>
          exact batches_withObject pool _ _ rfl fun _ =>
            batches_withObject name _ _ rfl fun ticket => ticket.batches_await

theorem Pool.batches_setUp (name : String) (settings : Settings) :
    (Pool.setUp s name settings).store.names.batches = s.names.batches := by
  unfold setUp
  dsimp only
  split
  · rfl
  · split
    · rfl
    · split <;> rfl

/-- The command is about a batch. -/
def Command.OnBatches : Command α → Prop
  | .newBatch .. | .newFullBatch .. | .copyBatch .. | .onBatch .. => True
  | _ => False

/-- No other command changes a batch. -/
theorem Command.batches (command : Command α) (aside : ¬command.OnBatches) :
    (command.effect around s).store.names.batches = s.names.batches := by
  cases command with
  | newBatch | newFullBatch | copyBatch | onBatch => exact absurd trivial aside
  | compareSettings left right =>
      exact batches_withObject left _ _ rfl fun _ => batches_withObject right _ _ rfl fun _ => rfl
  | onMonitor name request =>
      refine batches_withObject name _ _ rfl fun _ => batches_withObject name _ _ rfl fun _ => ?_
      cases request with
      | poison =>
          simp only [MonitorRequest.effect]
          split <;> rfl
      | _ => rfl
  | newChannel name capacity =>
      simp only [effect]
      split
      · rfl
      · split <;> rfl
  | onChannel name request =>
      refine batches_withObject name _ _ rfl fun _ => batches_withObject name _ _ rfl fun _ => ?_
      cases request <;> rfl
  | newLatch name count continuation =>
      cases continuation with
      | none => exact Latch.batches_setUp name count none
      | some text =>
          exact batches_withJob text _ fun job => Latch.batches_setUp name count (some job)
  | aliasLatch name other => exact batches_withObject other _ _ rfl fun _ => rfl
  | onLatch name request =>
      refine batches_withObject name _ _ rfl fun _ => ?_
      cases request <;> rfl
  | newJob name text => exact batches_withJob text _ fun _ => rfl
  | onJob name request => exact request.batches name
  | newPool name source =>
      cases source with
      | given settings => exact Pool.batches_setUp name settings
      | named other =>
          exact batches_withObject other _ _ rfl fun settings => Pool.batches_setUp name settings
  | onPool name request => exact request.batches name
  | onTicket name request => exact request.batches name
  | _ => rfl

end Commands

section Operations

variable {around : Around} {s : Store α} {who : Who} {e : Effect α}

theorem Action.batches {self : String} {action : Action} (h : action.effect s self = some e) :
    e.store.names.batches = s.names.batches := by
  cases action with
  | passGate gate =>
      simp only [effect] at h
      split at h
      · obtain rfl := Option.some.inj h
        rfl
      · cases h
  | submit name text =>
      obtain rfl := Option.some.inj h
      split
      · split <;> rfl
      · rfl
  | write index value | count name failed | terminate name | inspectLatch name | inspectPool name
  | perform name | shutDown name =>
      obtain rfl := Option.some.inj h
      split <;> rfl
  | _ =>
      obtain rfl := Option.some.inj h
      rfl

theorem Program.batches {self : String} {origin : Origin} {position : Nat}
    {current : Option Program} {later : List Program}
    (h : Program.effect s self origin position current later = some e) :
    e.store.names.batches = s.names.batches := by
  unfold Program.effect at h
  split at h
  · obtain rfl := Option.some.inj h
    rfl
  · obtain rfl := Option.some.inj h
    rfl
  · obtain rfl := Option.some.inj h
    rfl
  · obtain ⟨e', haction, rfl⟩ := Option.map_eq_some_iff.mp h
    exact Action.batches (e := e') haction

theorem Deed.batches {op : Op α} (deed : Deed around s who op e) (inner : op.Inner) :
    e.store.names.batches = s.names.batches := by
  cases deed with
  | commanded | latchMade | poolMade | batchAdded | freeBatchAdded | emptyBatchAdded | codeOver
  | codeCalled | codeReturned | acted | actionRaised | monitorTurned | channelTurned | handed =>
      exact inner.elim
  | jobAdded submits | freeJobAdded submits => cases submits <;> exact inner.elim
  | _ => rfl

/-- Only a command changes a batch. -/
theorem Op.batches {op : Op α} (h : op.effect around s who = some e)
    (deed : Deed around s who op e) (other : ∀ command, op ≠ .command command) :
    e.store.names.batches = s.names.batches := by
  cases op with
  | command given => exact absurd rfl (other given)
  | monitor place call =>
      obtain ⟨m, -, h⟩ := Option.bind_eq_some_iff.mp h
      obtain ⟨turned, -, rfl⟩ := Option.map_eq_some_iff.mp h
      split <;> rfl
  | channel place call =>
      obtain ⟨c, -, h⟩ := Option.bind_eq_some_iff.mp h
      obtain ⟨turned, -, rfl⟩ := Option.map_eq_some_iff.mp h
      split <;> rfl
  | code origin position current later => exact Program.batches h
  | hand ticket name =>
      obtain rfl := Option.some.inj h
      cases name <;> rfl
  | _ => exact deed.batches trivial

end Operations

end WorkerPool
