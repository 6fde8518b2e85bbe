import WorkerPool.Proofs.Sleepers

/-! What termination means for a channel. A send or a receive that is in progress learns in one of
its turns how it ends, and this turn reads the flag under the lock: while the flag is down the send
puts its item into the ring and the receive takes one out, and once it is up both go away with the
ring as it was. Nobody sleeps at a terminated channel, so both are told. From then on only a drain
changes the ring. The first one takes all there is, and since nothing is put in any more the ring
stays empty. -/

namespace WorkerPool

variable {α : Type}

/-- What the caller is told when its call comes to an end. -/
def Channel.told : Next (Channel.Call α) (Channel.Reply α) → Option (Answer α)
  | .goes _ => none
  | .returns reply => some reply.answer

/-- The call is a send that still has the item. -/
def Channel.Call.Offers (x : α) (call : Channel.Call α) : Prop :=
  call = .offer x ∨ ∃ stage, call = .send x stage

/-- The call that a request on a channel begins. -/
def ChannelRequest.call? : ChannelRequest α → Option (Channel.Call α)
  | .send x => some (.offer x)
  | .receive => some (.receive .arriving)
  | .drain => some .drain
  | .terminate => some .terminate
  | .capacity => none

namespace Moment

/-- The turn finds a channel at `place` of which `P` is true, and leaves one that `Q` relates to it.
-/
def Turns (place : Nat) (P : Channel α → Prop) (Q : Channel α → Channel α → Prop) (m : Moment α) :
    Prop :=
  ∃ c, m.world.store.channels[place]? = some c ∧ P c ∧
    ∀ pick v, m.world.turn m.index pick = some v →
      ∃ c', v.store.channels[place]? = some c' ∧ Q c c'

/-- The turn leaves the channel at `place` as it is. -/
def Leaves (place : Nat) : Moment α → Prop :=
  Turns place (fun _ => True) fun c c' => c' = c

/-- The turn is taken while the channel is terminated, and leaves it as it is. -/
def Stops (place : Nat) : Moment α → Prop :=
  Turns place (·.terminated = true) fun c c' => c' = c

/-- The turn puts `x` behind the items of a channel that is up. -/
def Inserts (place : Nat) (x : α) : Moment α → Prop :=
  Turns place (·.terminated = false) fun c c' =>
    c'.terminated = false ∧ c'.value.toList = c.value.toList ++ [x]

/-- The turn takes the first item, which is `x`, out of a channel that is up. -/
def Removes (place : Nat) (x : α) : Moment α → Prop :=
  Turns place (·.terminated = false) fun c c' =>
    c'.terminated = false ∧ c.value.toList = x :: c'.value.toList

/-- The turn takes all items, which are `xs`, out of the channel and does not touch its flag. -/
def Empties (place : Nat) (xs : List α) : Moment α → Prop :=
  Turns place (·.value.toList = xs) fun c c' =>
    c'.terminated = c.terminated ∧ c'.value.toList = [] ∧ c'.value.capacity = c.value.capacity

/-- The turn raises the flag of the channel and does not touch its items. -/
def Raises (place : Nat) : Moment α → Prop :=
  Turns place (fun _ => True) fun c c' => c' = Monitor.terminate c

theorem Stops.leaves {place : Nat} {m : Moment α} (stops : m.Stops place) : m.Leaves place := by
  obtain ⟨c, found, -, after⟩ := stops
  exact ⟨c, found, trivial, after⟩

/-- It is the turn of a drain of the channel at `place`. -/
def Drains (place : Nat) (m : Moment α) : Prop :=
  ∃ who, m.due? = some (who, .channel place .drain)

end Moment

namespace Channel

/-- The turn `m` decides that the call will come back with the reply. -/
inductive Call.Decides (place : Nat) (m : Moment α) : Call α → Reply α → Prop
  | sent (x : α) (call : Call α) (offers : call.Offers x) (inserts : m.Inserts place x) :
      Decides place m call .sent
  | givenBack (x : α) (call : Call α) (offers : call.Offers x) (stops : m.Stops place) :
      Decides place m call (.givenBack x)
  | received (x : α) (stage : Stage) (removes : m.Removes place x) :
      Decides place m (.receive stage) (.received (some x))
  | stopped (stage : Stage) (stops : m.Stops place) :
      Decides place m (.receive stage) (.received none)
  | drained (xs : List α) (empties : m.Empties place xs) : Decides place m .drain (.drained xs)
  | terminated (raises : m.Raises place) : Decides place m .terminate .terminated

/-- The calls that a call can go on as before it is decided. -/
inductive Call.Goes : Call α → Call α → Prop
  | send (x : α) (call call' : Call α) (offers : call.Offers x) (offers' : call'.Offers x) :
      Goes call call'
  | receive (stage stage' : Stage) : Goes (.receive stage) (.receive stage')
  | drain : Goes .drain .drain
  | terminate : Goes .terminate .terminate

/-- What a call comes back with that is turned away. -/
def Call.refusal? : Call α → Option (Reply α)
  | .offer x | .send x _ => some (.givenBack x)
  | .receive _ => some (.received none)
  | _ => none

theorem Call.Offers.unique {x y : α} {call : Call α} (offers : call.Offers x)
    (offers' : call.Offers y) : x = y := by
  rcases offers with rfl | ⟨stage, rfl⟩ <;> rcases offers' with h | ⟨stage', h⟩ <;> cases h <;> rfl

theorem leaves_of_split {place : Nat} {before after : List (Moment α)} {m : Moment α}
    (leaves : m.Leaves place) (calm : ∀ m' ∈ before ++ after, m'.Leaves place) :
    ∀ m' ∈ before ++ m :: after, m'.Leaves place := by
  intro m' hm'
  rcases List.mem_append.mp hm' with hm' | hm'
  · exact calm m' (List.mem_append_left _ hm')
  · rcases List.mem_cons.mp hm' with rfl | hm'
    · exact leaves
    · exact calm m' (List.mem_append_right _ hm')

/-- How far a call has come that has taken the turns `own`, in a thread that makes no other: it is
undecided and has left the channel as it was, or one of its turns has decided it and the others have
left the channel as it was. -/
inductive Course (place : Nat) (call : Call α) (own : List (Moment α)) (t : Thread α) : Prop
  | undecided (call' : Call α) (goes : call.Goes call') (ops : t.ops = [.channel place call'])
      (calm : ∀ m ∈ own, m.Leaves place)
  | decided (reply : Reply α) (before : List (Moment α)) (m : Moment α) (after : List (Moment α))
      (split : own = before ++ m :: after) (decides : call.Decides place m reply)
      (calm : ∀ m' ∈ before ++ after, m'.Leaves place)
      (left : t.ops = [.channel place (.announce reply)] ∨
        (t.ops = [] ∧ t.answer = some reply.answer))

theorem Call.Offers.goes {x : α} {call : Call α} (offers : call.Offers x) : call.Goes call :=
  .send x call call offers offers

/-- A wake changes nothing about what a call is to bring or to get. -/
theorem Call.Goes.wake {call call' : Call α} (goes : call.Goes call') : call.Goes call'.wake := by
  cases goes with
  | send x _ _ offers offers' =>
      refine .send x _ _ offers ?_
      rcases offers' with rfl | ⟨stage, rfl⟩
      · exact .inl rfl
      · exact .inr ⟨_, rfl⟩
  | receive stage => exact .receive stage _
  | drain => exact .drain
  | terminate => exact .terminate

theorem Course.wake {place : Nat} {call : Call α} {own : List (Moment α)} {t : Thread α}
    (course : Course place call own t) : Course place call own t.wake := by
  cases course with
  | undecided call' goes ops calm =>
      exact .undecided call'.wake goes.wake (by rw [Thread.wake, ops]; rfl) calm
  | decided reply before m after split decides calm left =>
      refine .decided reply before m after split decides calm (left.imp (fun ops => ?_) ?_)
      · rw [Thread.wake, ops]
        rfl
      · rintro ⟨ops, told⟩
        exact ⟨by rw [Thread.wake, ops]; rfl, told⟩

/-- A call that has ended was decided in one of its turns, and the caller has been told the reply. -/
theorem Course.of_ended {place : Nat} {call : Call α} {own : List (Moment α)} {t : Thread α}
    (course : Course place call own t) (ended : t.ops = []) :
    ∃ reply before m after, own = before ++ m :: after ∧ call.Decides place m reply ∧
      (∀ m' ∈ before ++ after, m'.Leaves place) ∧ t.answer = some reply.answer := by
  cases course with
  | undecided call' goes ops calm => simp [ended] at ops
  | decided reply before m after split decides calm left =>
      rcases left with ops | ⟨-, told⟩
      · simp [ended] at ops
      · exact ⟨reply, before, m, after, split, decides, calm, told⟩

/-- A send that has ended was given its item back in a turn in which the channel was terminated, and
has left the channel as it was, or it has put its item into a channel that was up. -/
theorem Course.send {place : Nat} {call : Call α} {own : List (Moment α)} {t : Thread α} {x : α}
    (course : Course place call own t) (offers : call.Offers x) (ended : t.ops = []) :
    (t.answer = some (.error (.givenBack x)) ∧ (∃ m ∈ own, m.Stops place) ∧
        ∀ m ∈ own, m.Leaves place) ∨
      (t.answer = some (.ok .nothing) ∧ ∃ before m after, own = before ++ m :: after ∧
        m.Inserts place x ∧ ∀ m' ∈ before ++ after, m'.Leaves place) := by
  obtain ⟨reply, before, m, after, split, decides, calm, told⟩ := course.of_ended ended
  cases decides with
  | sent x' _ offers' inserts =>
      obtain rfl := offers.unique offers'
      exact .inr ⟨told, before, m, after, split, inserts, calm⟩
  | givenBack x' _ offers' stops =>
      obtain rfl := offers.unique offers'
      exact .inl ⟨told, ⟨m, by simp [split], stops⟩, split ▸ leaves_of_split stops.leaves calm⟩
  | received | stopped | drained | terminated => simp [Call.Offers] at offers

/-- A receive that has ended has found nothing in a turn in which the channel was terminated, and
has left the channel as it was, or it has taken the first item out of a channel that was up. -/
theorem Course.receive {place : Nat} {stage : Stage} {own : List (Moment α)} {t : Thread α}
    (course : Course place (.receive stage) own t) (ended : t.ops = []) :
    (t.answer = some (.ok (.received none)) ∧ (∃ m ∈ own, m.Stops place) ∧
        ∀ m ∈ own, m.Leaves place) ∨
      ∃ x, t.answer = some (.ok (.received (some x))) ∧ ∃ before m after,
        own = before ++ m :: after ∧ m.Removes place x ∧
          ∀ m' ∈ before ++ after, m'.Leaves place := by
  obtain ⟨reply, before, m, after, split, decides, calm, told⟩ := course.of_ended ended
  cases decides with
  | received x _ removes => exact .inr ⟨x, told, before, m, after, split, removes, calm⟩
  | stopped _ stops =>
      exact .inl ⟨told, ⟨m, by simp [split], stops⟩, split ▸ leaves_of_split stops.leaves calm⟩
  | sent _ _ offers | givenBack _ _ offers => simp [Call.Offers] at offers

end Channel

namespace World

variable {u w v : World α} {moments : List (Moment α)} {index place pick : Nat} {t : Thread α}
  {c : Channel α} {call : Channel.Call α}

/-! ### One turn of a call -/

/-- A step that calls a channel has nothing else to do. -/
theorem Orderly.channel_alone (orderly : w.Orderly) (ht : t ∈ w.threads) {rest : List (Op α)}
    (ops : t.ops = .channel place call :: rest) : rest = [] := by
  have alone := (orderly.ordered t ht).channel (ops ▸ List.mem_cons_self)
  exact (List.cons.inj (ops.symm.trans alone)).2

section Turn

variable {turned : Turned (Ring α) (Channel.Call α) (Channel.Reply α)}

theorem turn_of_call (got : w.threads[index]? = some t) (ops : t.ops = [.channel place call])
    (turn : w.turn index pick = some v) :
    ∃ c turned, w.store.channels[place]? = some c ∧ call.turn c = some turned := by
  obtain ⟨e, heffect, rfl⟩ := apply_of_turn got ops turn
  obtain ⟨c, found, hcall⟩ := Option.bind_eq_some_iff.mp heffect
  obtain ⟨turned, hturn, rfl⟩ := Option.map_eq_some_iff.mp hcall
  exact ⟨c, turned, found, hturn⟩

/-- A turn of a call changes the channel, and the step goes on with the call or is told its end. -/
theorem called_of_turn (got : w.threads[index]? = some t) (ops : t.ops = [.channel place call])
    (found : w.store.channels[place]? = some c) (hturn : call.turn c = some turned)
    (turn : w.turn index pick = some v) :
    v.store.channels[place]? = some turned.object ∧
      v.threads[index]? = some { t with
        ops := Channel.left place turned.next
        answer := (Channel.told turned.next).or t.answer } := by
  have heffect : ∀ e, (Op.channel place call).effect (w.around index) w.store t.who = some e →
      call.effect w.store place c = some e := by
    intro e h
    rwa [Op.effect, found, Option.bind_some] at h
  obtain ⟨e, h, rfl⟩ := apply_of_turn got ops turn
  obtain ⟨turned', hturn', rfl⟩ := Option.map_eq_some_iff.mp (heffect e h)
  obtain rfl := Option.some.inj (hturn.symm.trans hturn')
  have hlt := (List.getElem?_eq_some_iff.mp got).1
  have there := (List.getElem?_eq_some_iff.mp found).1
  refine ⟨?_, ?_⟩
  · cases turned.next <;> simp [apply, Store.setChannel, there]
  · cases Channel.Call.turns_of_turn hturn <;>
      simp [apply, continued, Alarm.of, rouse, wakeAll, Thread.sleepsAt, hlt, Channel.left,
        Channel.told]

theorem exists_turn_of_call (got : w.threads[index]? = some t) (ops : t.ops = [.channel place call])
    (found : w.store.channels[place]? = some c) (hturn : call.turn c = some turned) :
    ∃ v, w.turn index 0 = some v := by
  rw [turn_eq got ops]
  simp [Op.effect, found, Channel.Call.effect, hturn]

/-- What a turn does to a channel does not depend on whom it wakes. -/
theorem moment_turns (got : w.threads[index]? = some t) (ops : t.ops = [.channel place call])
    (found : w.store.channels[place]? = some c) (hturn : call.turn c = some turned)
    {P : Channel α → Prop} {Q : Channel α → Channel α → Prop} (before : P c)
    (after : Q c turned.object) : (Moment.mk w index).Turns place P Q :=
  ⟨c, found, before, fun _ _ turn => ⟨_, (called_of_turn got ops found hturn turn).1, after⟩⟩

end Turn

/-- A command to call a channel begins the call and moves nothing. -/
theorem begins_of_command (found : w.store.channels[place]? = some c)
    (got : w.threads[index]? = some t) {name : String} {request : ChannelRequest α}
    (ops : t.ops = [.command (.onChannel name request)])
    (known : w.store.names.channels.find? name = some place) (asked : request.call? = some call) :
    ∃ v, w.turn index 0 = some v ∧ v.store.channels[place]? = some c ∧
      ∃ t', v.threads[index]? = some t' ∧ t'.ops = [.channel place call] := by
  have heffect : (Op.command (.onChannel name request)).effect (w.around index) w.store t.who =
      some { store := w.store, ops := [.channel place call] } := by
    simp only [Op.effect, Command.effect, known, found, Effect.withObject]
    cases request with
    | capacity => cases asked
    | _ =>
        obtain rfl := Option.some.inj asked
        rfl
  exact ⟨_, turn_of_effect got ops heffect 0, found, _, thread_of_silent got rfl rfl 0 [], rfl⟩

/-- A call that is not decided yet is decided by its turn, or leaves the channel as it is. -/
theorem course_of_goes (h : w.Reachable) (got : w.threads[index]? = some t)
    {call' : Channel.Call α} (goes : call.Goes call') (ops : t.ops = [.channel place call'])
    (turn : w.turn index pick = some v) :
    ∃ t', v.threads[index]? = some t' ∧
      (((Moment.mk w index).Leaves place ∧
          ∃ call'', call.Goes call'' ∧ t'.ops = [.channel place call'']) ∨
        ∃ reply, call.Decides place ⟨w, index⟩ reply ∧
          (t'.ops = [.channel place (.announce reply)] ∨
            (t'.ops = [] ∧ t'.answer = some reply.answer))) := by
  obtain ⟨c, turned, found, hturn⟩ := turn_of_call got ops turn
  have valid := h.channel_valid found
  refine ⟨_, (called_of_turn got ops found hturn turn).2, ?_⟩
  have turns : ∀ {P : Channel α → Prop} {Q : Channel α → Channel α → Prop}, P c →
      Q c turned.object → (Moment.mk w index).Turns place P Q := moment_turns got ops found hturn
  cases goes with
  | send x _ _ offers offers' =>
      rcases offers' with rfl | ⟨stage, rfl⟩
      · cases Channel.Call.turns_of_turn hturn with
        | shut _ down =>
            exact .inr ⟨_, .givenBack x _ offers (turns down rfl), .inr ⟨rfl, rfl⟩⟩
        | offered _ up =>
            exact .inl ⟨turns trivial rfl, _, .send x _ _ offers (.inr ⟨_, rfl⟩), rfl⟩
      · cases Channel.Call.turns_of_turn hturn with
        | givenBack _ _ awake down =>
            exact .inr ⟨_, .givenBack x _ offers (turns down rfl), .inr ⟨rfl, rfl⟩⟩
        | pushed _ _ awake up room =>
            exact .inr ⟨_, .sent x _ offers (turns up ⟨up, (valid.push room x).2⟩), .inl rfl⟩
        | full _ _ awake up full =>
            exact .inl ⟨turns trivial rfl, _, .send x _ _ offers (.inr ⟨_, rfl⟩), rfl⟩
  | receive stage stage' =>
      cases Channel.Call.turns_of_turn hturn with
      | stopped _ awake down => exact .inr ⟨_, .stopped stage (turns down rfl), .inr ⟨rfl, rfl⟩⟩
      | popped _ awake up stock =>
          obtain ⟨x, left, hpop, -, order, -⟩ := valid.pop stock
          refine .inr ⟨_, ?_, .inl rfl⟩
          rw [hpop]
          exact .received x stage (turns up ⟨up, by simpa [hpop] using order⟩)
      | empty _ awake up empty => exact .inl ⟨turns trivial rfl, _, .receive stage _, rfl⟩
  | drain =>
      cases Channel.Call.turns_of_turn hturn with
      | drained =>
          obtain ⟨left, hdrain, -, empty, capacity⟩ := valid.drain
          refine .inr ⟨_, ?_, .inl rfl⟩
          rw [hdrain]
          exact .drained _ (turns rfl ⟨rfl, by simpa [hdrain] using empty,
            by simpa [hdrain] using capacity⟩)
  | terminate =>
      cases Channel.Call.turns_of_turn hturn with
      | terminated => exact .inr ⟨_, .terminated (turns trivial rfl), .inr ⟨rfl, rfl⟩⟩

/-- Once decided a call is announced, if it has changed the ring, and then over. -/
theorem turn_of_announce {reply : Channel.Reply α} (got : w.threads[index]? = some t)
    (ops : t.ops = [.channel place (.announce reply)]) (turn : w.turn index pick = some v) :
    (Moment.mk w index).Leaves place ∧ ∃ t', v.threads[index]? = some t' ∧ t'.ops = [] ∧
      t'.answer = some reply.answer := by
  obtain ⟨c, turned, found, hturn⟩ := turn_of_call got ops turn
  obtain rfl := Option.some.inj hturn
  exact ⟨moment_turns got ops found rfl trivial rfl,
    _, (called_of_turn got ops found rfl turn).2, rfl, rfl⟩

/-! ### The course of a call -/

/-- A call takes its course in every run. -/
theorem Run.course (run : u.Run moments w) (h : u.Reachable) (got : u.threads[index]? = some t)
    (ops : t.ops = [.channel place call]) (goes : call.Goes call) :
    ∃ t', w.threads[index]? = some t' ∧
      Channel.Course place call (turnsOf index moments) t' := by
  refine run.followed h got (P := Channel.Course place call)
    (.undecided call goes ops (by simp)) (fun _ _ course => course.wake) ?_
  intro own x y pick t later got turn course
  have reachable := h.later later
  cases course with
  | undecided call' goes ops calm =>
      obtain ⟨t', got', ⟨leaves, call'', goes', ops'⟩ | ⟨reply, decides, left⟩⟩ :=
        course_of_goes reachable got goes ops turn
      · refine ⟨t', got', .undecided call'' goes' ops' fun m hm => ?_⟩
        rcases List.mem_append.mp hm with hm | hm
        · exact calm m hm
        · obtain rfl := List.mem_singleton.mp hm
          exact leaves
      · exact ⟨t', got', .decided reply own ⟨x, index⟩ [] rfl decides (by simpa using calm) left⟩
  | decided reply before m after split decides calm left =>
      rcases left with ops | ⟨ops, -⟩
      · obtain ⟨leaves, t', got', ended⟩ := turn_of_announce got ops turn
        refine ⟨t', got', .decided reply before m (after ++ [⟨x, index⟩]) (by simp [split]) decides
          (fun m' hm' => ?_) (.inr ended)⟩
        rw [← List.append_assoc] at hm'
        rcases List.mem_append.mp hm' with hm' | hm'
        · exact calm m' hm'
        · obtain rfl := List.mem_singleton.mp hm'
          exact leaves
      · exact absurd ops (not_ended_of_turn got turn)

/-! ### Termination -/

/-- At a terminated channel everybody is told at once, and nothing is moved. -/
theorem Reachable.shut (h : w.Reachable) (found : w.store.channels[place]? = some c)
    (down : c.terminated = true) (got : w.threads[index]? = some t)
    (ops : t.ops = [.channel place call]) {reply : Channel.Reply α}
    (refusal : call.refusal? = some reply) :
    ∃ v t', w.turn index 0 = some v ∧ v.store.channels[place]? = some c ∧
      v.threads[index]? = some t' ∧ t'.ops = [] ∧ t'.answer = some reply.answer := by
  have awake : call.asleep = false := by
    by_contra asleep
    obtain ⟨c', found', up, -⟩ := h.watched place t (List.mem_of_getElem? got) call [] ops
      (Bool.eq_true_of_not_eq_false asleep)
    obtain rfl := Option.some.inj (found.symm.trans found')
    exact absurd (down.symm.trans up) nofun
  have hturn : call.turn c = some ⟨c, .returns reply, .nobody⟩ := by
    cases call with
    | offer x =>
        obtain rfl := Option.some.inj refusal
        simp [Channel.Call.turn, down]
    | send x stage =>
        obtain rfl := Option.some.inj refusal
        cases stage <;> cases full : c.value.full <;>
          simp_all [Channel.Call.turn, Monitor.lookWhile, Monitor.dismisses, Monitor.verdict,
            Channel.Call.asleep]
    | receive stage =>
        obtain rfl := Option.some.inj refusal
        cases stage <;> cases empty : c.value.isEmpty <;>
          simp_all [Channel.Call.turn, Monitor.lookWhile, Monitor.dismisses, Monitor.verdict,
            Channel.Call.asleep]
    | _ => cases refusal
  obtain ⟨v, turn⟩ := exists_turn_of_call got ops found hturn
  obtain ⟨after, got'⟩ := called_of_turn got ops found hturn turn
  exact ⟨v, _, turn, after, got', rfl, rfl⟩

/-- Only a drain changes a terminated channel. -/
theorem Reachable.drains_or_leaves (h : w.Reachable) (found : w.store.channels[place]? = some c)
    (down : c.terminated = true) (index : Nat) :
    (Moment.mk w index).Drains place ∨ (Moment.mk w index).Leaves place := by
  by_cases drains : (Moment.mk w index).Drains place
  · exact .inl drains
  refine .inr ⟨c, found, trivial, fun pick v turn => ⟨c, ?_, rfl⟩⟩
  obtain ⟨t, old, tail, e, took, kind⟩ := moves_of_turn h.orderly turn place
  rw [took.store]
  generalize (Moment.mk w index).move? place = m? at kind
  cases kind with
  | called found' turns after =>
      obtain rfl := Option.some.inj (found.symm.trans found')
      cases turns with
      | drained => exact absurd ⟨t.who, due?_eq took.got took.ops⟩ drains
      | terminated =>
          rw [after, Monitor.terminate, ← down]
      | pushed _ _ _ up | popped _ _ up => cases down.symm.trans up
      | _ => exact after
  | begun command there fresh kept | apart kept => exact kept.trans found
  | made name capacity new =>
      rw [List.getElem?_eq_none (Nat.le_of_eq new)] at found
      cases found

/-- A reply that is on its way stays so until the caller has been told. -/
theorem Run.announced (run : u.Run moments w) (h : u.Reachable) (got : u.threads[index]? = some t)
    {reply : Channel.Reply α} (left : t.ops = [.channel place (.announce reply)] ∨
      (t.ops = [] ∧ t.answer = some reply.answer)) :
    ∃ t', w.threads[index]? = some t' ∧ (t'.ops = [.channel place (.announce reply)] ∨
      (t'.ops = [] ∧ t'.answer = some reply.answer)) := by
  refine run.followed h got (P := fun _ t => t.ops = [.channel place (.announce reply)] ∨
    (t.ops = [] ∧ t.answer = some reply.answer)) left (fun _ t left => ?_) ?_
  · refine left.imp (fun ops => by rw [Thread.wake, ops]; rfl) ?_
    rintro ⟨ops, told⟩
    exact ⟨by rw [Thread.wake, ops]; rfl, told⟩
  · intro own x y pick t later got turn left
    rcases left with ops | ⟨ops, -⟩
    · obtain ⟨-, t', got', ended⟩ := turn_of_announce got ops turn
      exact ⟨t', got', .inr ended⟩
    · exact absurd ops (not_ended_of_turn got turn)

/-- What is left of a terminated channel, which was `c`, after some turns that have led to the world
`w`: the items that it had, or nothing. The first turn of a drain has then taken them all, and its
step has been told so or will be. -/
def Remains (place : Nat) (c : Channel α) (moments : List (Moment α)) (w : World α) : Prop :=
  (w.store.channels[place]? = some c ∧ ∀ m ∈ moments, ¬m.Drains place) ∨
    ((∃ c', w.store.channels[place]? = some c' ∧ c'.terminated = true ∧ c'.value.toList = []) ∧
      ∃ before m after t, moments = before ++ m :: after ∧ (∀ m' ∈ before, ¬m'.Drains place) ∧
        m.Drains place ∧ m.Empties place c.value.toList ∧ w.threads[m.index]? = some t ∧
        (t.ops = [.channel place (.announce (.drained c.value.toList))] ∨
          (t.ops = [] ∧ t.answer = some (.ok (.drained c.value.toList)))))

/-- A drain takes out all items of a channel, however its flag stands, and is never held up. -/
theorem Reachable.drain (h : w.Reachable) (found : w.store.channels[place]? = some c)
    (got : w.threads[index]? = some t) (ops : t.ops = [.channel place .drain]) :
    (∃ v, w.turn index 0 = some v) ∧ (Moment.mk w index).Empties place c.value.toList ∧
      ∀ {pick v}, w.turn index pick = some v → ∃ t', v.threads[index]? = some t' ∧
        t'.ops = [.channel place (.announce (.drained c.value.toList))] := by
  obtain ⟨left, hdrain, -, empty, capacity⟩ := (h.channel_valid found).drain
  have hturn : (Channel.Call.drain : Channel.Call α).turn c =
      some ⟨{ c with value := left }, .goes (.announce (.drained c.value.toList)), .nobody⟩ := by
    simp [Channel.Call.turn, hdrain]
  exact ⟨exists_turn_of_call got ops found hturn,
    moment_turns got ops found hturn rfl ⟨rfl, empty, capacity⟩,
    fun turn => ⟨_, (called_of_turn got ops found hturn turn).2, rfl⟩⟩

/-- What a turn leaves of a terminated channel that has lost its items. -/
theorem Reachable.stays_empty (h : w.Reachable) (found : w.store.channels[place]? = some c)
    (down : c.terminated = true) (empty : c.value.toList = []) (turn : w.turn index pick = some v) :
    ∃ c', v.store.channels[place]? = some c' ∧ c'.terminated = true ∧ c'.value.toList = [] := by
  rcases h.drains_or_leaves found down index with ⟨who, due⟩ | ⟨c₁, found₁, -, after⟩
  · obtain ⟨t, rest, got, -, ops⟩ := of_due? due
    obtain rfl := h.orderly.channel_alone (List.mem_of_getElem? got) ops
    obtain ⟨-, ⟨c₁, found₁, -, after⟩, -⟩ := h.drain found got ops
    obtain rfl := Option.some.inj (found.symm.trans found₁)
    obtain ⟨c', found', same, none, -⟩ := after pick v turn
    exact ⟨c', found', same.trans down, none⟩
  · obtain rfl := Option.some.inj (found.symm.trans found₁)
    obtain ⟨c', found', rfl⟩ := after pick v turn
    exact ⟨c', found', down, empty⟩

/-- Termination freezes a channel: from then on only drains change it, the first one takes all items
that were there, and then it is empty for good. -/
theorem Run.remains (run : u.Run moments w) (h : u.Reachable)
    (found : u.store.channels[place]? = some c) (down : c.terminated = true) :
    (∀ m ∈ moments, m.Drains place ∨ m.Leaves place) ∧ w.Remains place c moments := by
  induction run with
  | nil => exact ⟨by simp, .inl ⟨found, by simp⟩⟩
  | issue run command ih =>
      refine ⟨ih.1, ih.2.imp id ?_⟩
      rintro ⟨gone, before, m, after, t, split, first, drains, empties, got, left⟩
      exact ⟨gone, before, m, after, t, split, first, drains, empties,
        (List.getElem?_append_left (List.getElem?_eq_some_iff.mp got).1).trans got, left⟩
  | @turn moments x y run index pick turn ih =>
      obtain ⟨frozen, remains⟩ := ih
      have reachable := run.reachable h
      have still : ∀ {c' : Channel α}, x.store.channels[place]? = some c' → c'.terminated = true →
          ∀ m ∈ moments ++ [⟨x, index⟩], m.Drains place ∨ m.Leaves place := by
        intro c' found' down' m hm
        rcases List.mem_append.mp hm with hm | hm
        · exact frozen m hm
        · obtain rfl := List.mem_singleton.mp hm
          exact reachable.drains_or_leaves found' down' index
      rcases remains with ⟨found', undrained⟩ |
        ⟨⟨c', found', down', empty⟩, before, m, after, t, split, first, drains, empties, got, left⟩
      · refine ⟨still found' down, ?_⟩
        by_cases drains : (Moment.mk x index).Drains place
        · obtain ⟨who, due⟩ := drains
          obtain ⟨t, rest, got, -, ops⟩ := of_due? due
          obtain rfl := reachable.orderly.channel_alone (List.mem_of_getElem? got) ops
          obtain ⟨-, empties, announces⟩ := reachable.drain found' got ops
          obtain ⟨t', got', ops'⟩ := announces turn
          obtain ⟨c₁, found₁, -, after⟩ := id empties
          obtain rfl := Option.some.inj (found'.symm.trans found₁)
          obtain ⟨c', found'', same, none, -⟩ := after pick y turn
          exact .inr ⟨⟨c', found'', same.trans down, none⟩, moments, ⟨x, index⟩, [], t', rfl,
            undrained, ⟨who, due⟩, empties, got', .inl ops'⟩
        · obtain ⟨c₁, found₁, -, after⟩ :=
            (reachable.drains_or_leaves found' down index).resolve_left drains
          obtain rfl := Option.some.inj (found'.symm.trans found₁)
          obtain ⟨c', found'', rfl⟩ := after pick y turn
          refine .inl ⟨found'', fun m hm => ?_⟩
          rcases List.mem_append.mp hm with hm | hm
          · exact undrained m hm
          · obtain rfl := List.mem_singleton.mp hm
            exact drains
      · obtain ⟨t', got', left'⟩ := (Run.nil.turn index pick turn).announced reachable got left
        exact ⟨still found' down', .inr ⟨reachable.stays_empty found' down' empty turn, before, m,
          after ++ [⟨x, index⟩], t', by simp [split], first, drains, empties, got', left'⟩⟩

/-! ### A drain of a channel that is up -/

/-- Whoever sleeps at a channel is woken when a change of its ring is announced. -/
theorem Reachable.wakes (h : w.Reachable) (got : w.threads[index]? = some t)
    {reply : Channel.Reply α} (ops : t.ops = [.channel place (.announce reply)]) :
    ∃ v, w.turn index 0 = some v ∧ v.store.channels[place]? = w.store.channels[place]? ∧
      (∃ t', v.threads[index]? = some t' ∧ t'.ops = [] ∧ t'.answer = some reply.answer) ∧
      ∀ {j : Nat} {s : Thread α} {call : Channel.Call α}, w.threads[j]? = some s →
        s.ops = [.channel place call] → call.asleep = true →
          ∃ s', v.threads[j]? = some s' ∧ s'.ops = [.channel place call.wake] := by
  have on : (Op.channel place (.announce reply)).On place := rfl
  obtain ⟨c, found⟩ := h.channel_of_on (List.mem_of_getElem? got) (ops ▸ List.mem_cons_self) on
  obtain ⟨v, turn⟩ := exists_turn_of_call got ops found rfl
  obtain ⟨after, got'⟩ := called_of_turn got ops found rfl turn
  refine ⟨v, turn, after.trans found.symm, ⟨_, got', rfl, rfl⟩, fun {j s call} hs hops asleep => ?_⟩
  have apart : index ≠ j := by
    rintro rfl
    obtain rfl := Option.some.inj (got.symm.trans hs)
    rw [ops] at hops
    cases hops
    cases asleep
  rw [turn_eq got ops] at turn
  simp only [Op.effect, found, Option.bind_some, Channel.Call.effect, Channel.Call.turn,
    Option.map_some, Option.some.injEq] at turn
  subst turn
  refine ⟨s.wake, ?_, by rw [Thread.wake, hops]; rfl⟩
  have sleeps : s.sleepsAt = some (.channel place) := by
    rw [Thread.sleepsAt, hops]
    exact if_pos asleep
  simp [apply, continued, Alarm.of, rouse, wakeAll, apart, hs, sleeps]

/-- A send that is awake before a channel that is up and has room puts its item in. -/
theorem Reachable.proceeds (h : w.Reachable) (found : w.store.channels[place]? = some c)
    (up : c.terminated = false) (room : c.value.toList.length < c.value.capacity)
    (got : w.threads[index]? = some t) {x : α} {stage : Stage} (awake : stage ≠ .asleep)
    (ops : t.ops = [.channel place (.send x stage)]) :
    (∃ v, w.turn index 0 = some v) ∧ (Moment.mk w index).Inserts place x := by
  have valid := h.channel_valid found
  have free : c.value.full = false := by
    by_contra full
    have := valid.full_iff.mp (Bool.eq_true_of_not_eq_false full)
    omega
  have hturn : (Channel.Call.send x stage).turn c =
      some ⟨{ c with value := c.value.push x }, .goes (.announce .sent), .nobody⟩ := by
    cases stage with
    | asleep => exact absurd rfl awake
    | arriving | woken =>
        simp [Channel.Call.turn, Monitor.lookWhile, Monitor.dismisses, Monitor.verdict, free, up]
  exact ⟨exists_turn_of_call got ops found hturn,
    moment_turns got ops found hturn up ⟨up, (valid.push free x).2⟩⟩

/-- How the channel `c`, which is at `place` in the world `u`, answers calls in a run that leads
from there to the world `w`. -/
structure Answers (place : Nat) (c : Channel α) (u : World α) (moments : List (Moment α))
    (w : World α) : Prop where
  /-- A command to call the channel begins the call, and a send has the item of the command. -/
  begins : ∀ {index : Nat} {t : Thread α} {name : String} {request : ChannelRequest α}
    {call : Channel.Call α}, u.threads[index]? = some t →
      t.ops = [.command (.onChannel name request)] →
        u.store.names.channels.find? name = some place → request.call? = some call →
          ∃ v, u.turn index 0 = some v ∧ v.store.channels[place]? = some c ∧
            ∃ t', v.threads[index]? = some t' ∧ t'.ops = [.channel place call]
  /-- A send ends with its item given back, if the channel was terminated before the item could be
  put in, or with the item put into a channel that is up. -/
  sends : ∀ {index : Nat} {t : Thread α} {call : Channel.Call α} {x : α},
    u.threads[index]? = some t → t.ops = [.channel place call] → call.Offers x →
      ∃ t', w.threads[index]? = some t' ∧ (t'.ops = [] →
        (t'.answer = some (.error (.givenBack x)) ∧
            (∃ m ∈ turnsOf index moments, m.Stops place) ∧
            ∀ m ∈ turnsOf index moments, m.Leaves place) ∨
          (t'.answer = some (.ok .nothing) ∧ ∃ before m after,
            turnsOf index moments = before ++ m :: after ∧ m.Inserts place x ∧
              ∀ m' ∈ before ++ after, m'.Leaves place))
  /-- A receive ends with nothing, if the channel was terminated by then, or with the first item of
  a channel that is up. -/
  receives : ∀ {index : Nat} {t : Thread α} {stage : Stage},
    u.threads[index]? = some t → t.ops = [.channel place (.receive stage)] →
      ∃ t', w.threads[index]? = some t' ∧ (t'.ops = [] →
        (t'.answer = some (.ok (.received none)) ∧
            (∃ m ∈ turnsOf index moments, m.Stops place) ∧
            ∀ m ∈ turnsOf index moments, m.Leaves place) ∨
          ∃ x, t'.answer = some (.ok (.received (some x))) ∧ ∃ before m after,
            turnsOf index moments = before ++ m :: after ∧ m.Removes place x ∧
              ∀ m' ∈ before ++ after, m'.Leaves place)
  /-- A send or a receive that finds the channel terminated is told so in its next turn, which it
  can take. -/
  shut : c.terminated = true → ∀ {index : Nat} {t : Thread α} {call : Channel.Call α}
    {reply : Channel.Reply α}, u.threads[index]? = some t → t.ops = [.channel place call] →
      call.refusal? = some reply → ∃ v t', u.turn index 0 = some v ∧
        v.store.channels[place]? = some c ∧ v.threads[index]? = some t' ∧ t'.ops = [] ∧
        t'.answer = some reply.answer
  /-- From termination on only drains change the channel. -/
  frozen : c.terminated = true → ∀ m ∈ moments, m.Drains place ∨ m.Leaves place
  /-- The first drain takes out what there was at termination, and then the channel is empty. -/
  remains : c.terminated = true → w.Remains place c moments
  /-- A drain takes all items out of the channel and leaves its flag as it is. -/
  drains : ∀ {index : Nat} {t : Thread α}, u.threads[index]? = some t →
    t.ops = [.channel place .drain] → (∃ v, u.turn index 0 = some v) ∧
      (Moment.mk u index).Empties place c.value.toList ∧
      ∀ {pick : Nat} {v : World α}, u.turn index pick = some v → ∃ t', v.threads[index]? = some t' ∧
        t'.ops = [.channel place (.announce (.drained c.value.toList))]
  /-- In its second turn it wakes everybody who sleeps. -/
  wakes : ∀ {index : Nat} {t : Thread α} {reply : Channel.Reply α}, u.threads[index]? = some t →
    t.ops = [.channel place (.announce reply)] → ∃ v, u.turn index 0 = some v ∧
      v.store.channels[place]? = some c ∧
      (∃ t', v.threads[index]? = some t' ∧ t'.ops = [] ∧ t'.answer = some reply.answer) ∧
      ∀ {j : Nat} {s : Thread α} {call : Channel.Call α}, u.threads[j]? = some s →
        s.ops = [.channel place call] → call.asleep = true →
          ∃ s', v.threads[j]? = some s' ∧ s'.ops = [.channel place call.wake]
  /-- And a sender that is awake puts its item in if there is room. -/
  proceeds : c.terminated = false → c.value.toList.length < c.value.capacity →
    ∀ {index : Nat} {t : Thread α} {x : α} {stage : Stage}, u.threads[index]? = some t →
      stage ≠ .asleep → t.ops = [.channel place (.send x stage)] →
        (∃ v, u.turn index 0 = some v) ∧ (Moment.mk u index).Inserts place x

/-- Calls on a channel fail exactly when the channel has been terminated, and termination freezes
the channel, under every interleaving of calls by any number of threads. -/
theorem Run.termination_freezes (h : u.Reachable) (run : u.Run moments w)
    (found : u.store.channels[place]? = some c) : Answers place c u moments w where
  begins got ops known asked := begins_of_command found got ops known asked
  sends got ops offers := by
    obtain ⟨t', got', course⟩ := run.course h got ops offers.goes
    exact ⟨t', got', course.send offers⟩
  receives got ops := by
    obtain ⟨t', got', course⟩ := run.course h got ops (.receive _ _)
    exact ⟨t', got', course.receive⟩
  shut down _ _ _ _ got ops refusal := h.shut found down got ops refusal
  frozen down := (run.remains h found down).1
  remains down := (run.remains h found down).2
  drains got ops := h.drain found got ops
  wakes got ops := found ▸ h.wakes got ops
  proceeds up room _ _ _ _ got awake ops := h.proceeds found up room got awake ops

/-- The channel of `heldBack` is terminated while it holds an item and a sender sleeps before it. A
receive and a send then come to nothing, and a drain takes the item out. -/
def afterTermination : List (Command Nat) :=
  [.onChannel "q" .receive, .onChannel "q" (.send 9), .onChannel "q" .drain]

def shutChannel : World Nat :=
  follow 40 [.onChannel "q" .terminate] heldBack

theorem termination_freezes_of_shutChannel :
    (∃ t, shutChannel.threads[2]? = some t ∧ t.answer = some (.error (.givenBack 8)) ∧
      ∀ m ∈ turnsOf 2 (following 40 [.onChannel "q" .terminate] heldBack), m.Leaves 0) ∧
    (follow 40 afterTermination shutChannel).answers.drop 4 =
      [(4, .ok (.received none)), (5, .error (.givenBack 9)), (6, .ok (.drained [7]))] ∧
    ∃ c, (follow 40 afterTermination shutChannel).store.channels[0]? = some c ∧
      c.value.toList = [] := by
  have reachable : heldBack.Reachable := reachable_follow 40 _ (.start [])
  obtain ⟨c, found⟩ : ∃ c, heldBack.store.channels[0]? = some c :=
    Option.isSome_iff_exists.mp (by decide)
  obtain ⟨c', found', down⟩ : ∃ c, shutChannel.store.channels[0]? = some c ∧
      c.terminated = true := by
    have h : shutChannel.store.channels[0]?.map (·.terminated) = some true := by decide
    exact Option.map_eq_some_iff.mp h
  have blocked := Run.termination_freezes reachable
    (run_following 40 [.onChannel "q" .terminate] heldBack) found
  have fresh := Run.termination_freezes (reachable_follow 40 [.onChannel "q" .terminate] reachable)
    (run_following 40 afterTermination shutChannel) found'
  refine ⟨?_, rfl, ?_⟩
  · have waiting : heldBack.threads[2]? =
        some ⟨.step 2, [.channel 0 (.send 8 .asleep)], none⟩ := rfl
    obtain ⟨t, got, ends⟩ := blocked.sends waiting rfl (.inr ⟨.asleep, rfl⟩)
    obtain rfl := Option.some.inj got
    rcases ends rfl with ⟨told, -, calm⟩ | ⟨told, -⟩
    · exact ⟨_, rfl, told, calm⟩
    · cases told
  · rcases fresh.remains down with ⟨-, undrained⟩ | ⟨⟨c, after, -, empty⟩, -⟩
    · have drained : ∃ m ∈ following 40 afterTermination shutChannel, m.due?.map (·.1) =
          some (.step 6) ∧ m.Drains 0 := ⟨_, List.mem_of_getElem? (i := 5) rfl, rfl, _, rfl⟩
      obtain ⟨m, hm, -, drains⟩ := drained
      exact absurd drains (undrained m hm)
    · exact ⟨c, after, empty⟩

end World

end WorkerPool
