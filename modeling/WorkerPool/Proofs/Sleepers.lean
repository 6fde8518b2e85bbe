import WorkerPool.Proofs.Passage
import WorkerPool.Proofs.Urgency

/-! Sleepers at a channel. Senders and receivers sleep in one queue, and whoever changes the ring
wakes all of them, in a turn of its own after the change. So as long as somebody sleeps, what holds
it back is still there, or somebody has made the change that it waits for and is about to wake it.
Nobody sleeps at a channel that has been terminated. Where no thread can take a turn nobody is about
to wake anybody, and then the senders and the receivers cannot both be asleep: a ring is not full
and empty at once. -/

namespace WorkerPool

variable {α : Type}

namespace Channel

/-- What holds back a call that sleeps. -/
def Call.Held (c : Channel α) : Call α → Prop
  | .send .. => c.value.full = true
  | .receive _ => c.value.isEmpty = true
  | _ => True

/-- Whether the change that is announced with a reply is one that the sleeper waits for: a sender
waits for items to be taken out, a receiver for one to be put in. -/
def Reply.releases (sleeper : Call α) (reply : Reply α) : Bool :=
  match sleeper, reply with
  | .send .., reply => !reply.items.isEmpty
  | .receive _, .sent => true
  | _, _ => false

namespace Call

variable {c : Channel α} {call sleeper : Call α} {turned : Turned (Ring α) (Call α) (Reply α)}

/-- What holds back a sleeper still does so after a turn, or all sleepers are woken, now or in the
next turn of the same call. -/
theorem Turns.held (turns : call.Turns c turned) (valid : c.value.Valid)
    (asleep : sleeper.asleep = true) (held : sleeper.Held c) :
    turned.wake = .everyone ∨ sleeper.Held turned.object ∨
      ∃ reply, turned.next = .goes (.announce reply) ∧ reply.releases sleeper = true := by
  cases turns with
  | pushed item stage awake up room =>
      cases sleeper with
      | send x stage' => exact absurd (held.symm.trans room) nofun
      | receive stage' => exact .inr (.inr ⟨.sent, rfl, rfl⟩)
      | _ => cases asleep
  | popped stage awake up stock =>
      obtain ⟨x, left, hpop, -⟩ := valid.pop stock
      cases sleeper with
      | send y stage' => exact .inr (.inr ⟨_, rfl, by simp [hpop, Reply.releases, Reply.items]⟩)
      | receive stage' => exact absurd (held.symm.trans stock) nofun
      | _ => cases asleep
  | drained =>
      obtain ⟨left, hdrain, valid', empty, -⟩ := valid.drain
      cases sleeper with
      | send y stage' =>
          have some : c.value.toList ≠ [] := by
            have hlength := valid.full_iff.mp held
            have := valid.capacity_pos
            rintro none
            simp [none] at hlength
            omega
          exact .inr (.inr ⟨_, rfl, by simp [hdrain, Reply.releases, Reply.items, some]⟩)
      | receive stage' =>
          refine .inr (.inl ?_)
          rw [Held, hdrain]
          exact valid'.isEmpty_iff.mpr empty
      | _ => cases asleep
  | terminated | announced => exact .inl rfl
  | _ => exact .inr (.inl held)

/-- Only a termination takes a channel down, and it wakes everybody. -/
theorem Turns.up (turns : call.Turns c turned) (up : c.terminated = false) :
    turned.wake = .everyone ∨ turned.object.terminated = false := by
  cases turns with
  | terminated => exact .inl rfl
  | _ => exact .inr up

/-- Whoever falls asleep is held back by a channel that is up. -/
theorem Turns.falls (turns : call.Turns c turned) (next : turned.next = .goes sleeper)
    (asleep : sleeper.asleep = true) :
    turned.object.terminated = false ∧ sleeper.Held turned.object := by
  cases turns with
  | full item stage awake up full =>
      cases next
      exact ⟨up, full⟩
  | empty stage awake up empty =>
      cases next
      exact ⟨up, empty⟩
  | _ => cases next <;> cases asleep

end Call

end Channel

/-- How many sleepers of the kind of `sleeper` at `place` the operation is about to wake after a
change that they wait for: all, or none. -/
def Op.releases (place : Nat) (sleeper : Channel.Call α) : Op α → Nat
  | .channel p (.announce reply) => if p = place ∧ reply.releases sleeper = true then 1 else 0
  | _ => 0

namespace Op

theorem releases_wake (place : Nat) (sleeper : Channel.Call α) (op : Op α) :
    op.wake.releases place sleeper = op.releases place sleeper := by
  cases op with
  | channel p call => cases call <;> rfl
  | submit sub phase => cases phase <;> rfl
  | work p i phase => cases phase <;> rfl
  | _ => rfl

theorem releases_of_not_on {place : Nat} {op : Op α} (calm : ¬op.On place)
    (sleeper : Channel.Call α) : op.releases place sleeper = 0 := by
  cases op with
  | channel p call =>
      cases call with
      | announce reply => exact if_neg fun h => calm h.1
      | _ => rfl
  | _ => rfl

theorem Resumes.not_on {op : Op α} {rest : List (Op α)} (h : Resumes (op :: rest)) (place : Nat) :
    ¬op.On place := by
  cases h <;> exact id

theorem AfterCount.not_on {l : Nat} {failed : Bool} {op : Op α} {rest : List (Op α)}
    (h : AfterCount l failed (op :: rest)) (place : Nat) : ¬op.On place := by
  cases h with
  | called _ back => exact back.not_on place
  | settled _ behind => cases behind <;> exact id
  | duty | performed => exact id

/-- No call on a channel stands behind another operation. -/
theorem Before.not_on {who : Who} {op op' : Op α} {rest : List (Op α)}
    (before : op.Before who (op' :: rest)) (place : Nat) : ¬op'.On place := by
  cases before with
  | code _ _ _ _ after =>
      cases after with
      | caller back => exact back.not_on place
      | latchMade | batch | finale | item => exact id
  | count _ _ after | running _ _ _ after | latchAnnounce _ _ after => exact after.not_on place
  | terminate _ back => exact back.not_on place
  | waitTicket _ _ _ _ after =>
      rcases after with h | ⟨p, h⟩ <;> cases h
      exact id
  | waitRefused _ _ _ _ _ after | submit _ _ _ _ after =>
      cases after
      exact id
  | leave _ after | backlogAnnounce _ after =>
      cases after with
      | work => exact id
      | clearing behind => cases behind <;> exact id
  | awaitIdle => exact id
  | shutDown _ _ _ after => cases after <;> exact id
  | join _ _ _ after | release _ after =>
      cases after with
      | hand => exact id
      | resumes back => exact back.not_on place
  | hand _ _ after | answer _ after =>
      rcases after with ⟨h, -⟩ | ⟨p, rest', h⟩ <;> cases h
      exact id

/-- A thread that calls a channel has nothing else to do. -/
theorem Leads.channel {who : Who} {ops : List (Op α)} (stack : Leads who ops []) {place : Nat}
    {call : Channel.Call α} (h : .channel place call ∈ ops) : ops = [.channel place call] := by
  obtain ⟨above, rest, rfl⟩ := List.append_of_mem h
  rw [leads_append] at stack
  obtain rfl : rest = [] := by
    have before := stack.2.1
    rw [List.append_nil] at before
    cases before with
    | channel => rfl
  rcases List.eq_nil_or_concat above with rfl | ⟨above, last, rfl⟩
  · rfl
  · rw [List.concat_eq_append, leads_append] at stack
    exact absurd rfl (stack.1.2.1.not_on place)

end Op

namespace World

variable {w v : World α} {index : Nat} {t : Thread α} {old tail : List (Op α)} {e : Effect α}
  {place : Nat}

/-- How many operations are about to wake the sleepers of one kind after a change they wait for. -/
def releases (place : Nat) (sleeper : Channel.Call α) (w : World α) : Nat :=
  w.load fun _ op => op.releases place sleeper

/-- Every sleeper at the channel at `place` is held back there by a channel that is up, or is about
to be woken. -/
def Watched (place : Nat) (w : World α) : Prop :=
  ∀ t ∈ w.threads, ∀ call rest, t.ops = .channel place call :: rest → call.asleep = true →
    ∃ c, w.store.channels[place]? = some c ∧ c.terminated = false ∧
      (call.Held c ∨ 0 < w.releases place call)

/-- In every run the items of a channel are accounted for, and without a channel nobody calls it. -/
theorem Reachable.passing (h : w.Reachable) (place : Nat) : ∃ moves, w.Passing place moves := by
  obtain ⟨cells, later⟩ : ∃ cells, (World.start cells).Later w := by
    induction h with
    | start cells => exact ⟨cells, .refl⟩
    | next reachable step ih =>
        obtain ⟨cells, later⟩ := ih
        exact ⟨cells, later.tail step⟩
  obtain ⟨moments, run⟩ := later.run
  exact ⟨_, run.passing place⟩

theorem Reachable.channel_valid (h : w.Reachable) {c : Channel α}
    (found : w.store.channels[place]? = some c) : c.value.Valid := by
  obtain ⟨moves, passing⟩ := h.passing place
  rw [Passing, found] at passing
  exact passing.valid

theorem Reachable.channel_of_on (h : w.Reachable) {t : Thread α} (ht : t ∈ w.threads) {op : Op α}
    (hop : op ∈ t.ops) (on : op.On place) : ∃ c, w.store.channels[place]? = some c := by
  obtain ⟨moves, passing⟩ := h.passing place
  cases found : w.store.channels[place]? with
  | some c => exact ⟨c, rfl⟩
  | none =>
      rw [Passing, found] at passing
      exact absurd on (passing.2 t ht op hop)

theorem Took.releases (took : w.Took v index t old tail e) (sleeper : Channel.Call α)
    (unheard : ∀ op ∈ old, op.releases place sleeper = 0) :
    v.releases place sleeper =
      (e.ops.map (Op.releases place sleeper)).sum + w.releases place sleeper := by
  obtain ⟨r, hbefore, hafter⟩ := took.load_of_start (fun _ => Op.releases place sleeper)
    (fun _ op => op.releases_wake place sleeper) fun _ _ _ => rfl
  rw [sum_map_eq_zero unheard, zero_add] at hbefore
  rw [World.releases, World.releases, hbefore, hafter]

theorem Took.watched {m? : Option (Channel.Move α)} (took : w.Took v index t old tail e)
    (kind : Moves place w.store t.who old e m?) (h : w.Reachable) (watched : w.Watched place) :
    v.Watched place := by
  intro u hu call rest hops asleep
  have sleeps : (Op.channel place call).sleepsAt = some (.channel place) := if_pos asleep
  obtain ⟨unrung, was | fell⟩ := took.asleep h.orderly hu hops sleeps
  · obtain ⟨u', hu', rest', hops'⟩ := was
    obtain ⟨c, found, up, held⟩ := watched u' hu' call rest' hops' asleep
    have still : (∀ op ∈ old, ¬op.On place) → (∀ op ∈ e.ops, op.releases place call = 0) →
        e.store.channels[place]? = w.store.channels[place]? →
          ∃ c, v.store.channels[place]? = some c ∧ c.terminated = false ∧
            (call.Held c ∨ 0 < v.releases place call) := by
      intro left quiet kept
      refine ⟨c, by rw [took.store, kept, found], up, held.imp_right fun pos => ?_⟩
      rw [took.releases call fun op hop => Op.releases_of_not_on (left op hop) call]
      omega
    cases kind with
    | begun command there fresh kept ops =>
        refine still (not_on_command command) ?_ kept
        rw [ops]
        rcases fresh with ⟨x, rfl⟩ | rfl | rfl | rfl <;> simp [Op.releases]
    | made name capacity new =>
        rw [List.getElem?_eq_none (Nat.le_of_eq new)] at found
        cases found
    | apart kept left quiet =>
        exact still left (fun op hop => Op.releases_of_not_on (quiet op hop) call) kept
    | @called c' other turned _ found' turns after ops alarm =>
        obtain rfl := Option.some.inj (found.symm.trans found')
        have silent : turned.wake ≠ .everyone := fun loud => unrung (by rw [alarm, loud]; rfl)
        have unheard : ∀ op ∈ [Op.channel place other], op.releases place call = 0 := by
          intro op hop
          obtain rfl := List.mem_singleton.mp hop
          cases turns with
          | announced reply => exact absurd rfl silent
          | _ => rfl
        refine ⟨turned.object, by rw [took.store, after], (turns.up up).resolve_left silent, ?_⟩
        rw [took.releases call unheard, ops]
        rcases held with held | pos
        · rcases turns.held (h.channel_valid found) asleep held with loud | held | ⟨reply, next, frees⟩
          · exact absurd loud silent
          · exact .inl held
          · refine .inr ?_
            simp only [next, Channel.left, List.map_cons, List.map_nil, List.sum_cons, List.sum_nil,
              Op.releases, frees, and_self, if_true]
            omega
        · exact .inr (by omega)
  · cases kind with
    | @called c other turned _ found turns after ops alarm =>
        rw [ops] at fell
        cases next : turned.next with
        | returns reply =>
            rw [next] at fell
            cases fell
        | goes call' =>
            rw [next] at fell
            obtain ⟨-, rfl⟩ := Op.channel.inj (List.mem_singleton.mp fell)
            obtain ⟨up, held⟩ := turns.falls next asleep
            exact ⟨turned.object, by rw [took.store, after], up, .inl held⟩
    | begun command there fresh kept ops =>
        rw [ops] at fell
        obtain ⟨-, rfl⟩ := Op.channel.inj (List.mem_singleton.mp fell)
        rcases fresh with ⟨x, rfl⟩ | rfl | rfl | rfl <;> cases asleep
    | made name capacity new pos after ops =>
        rw [ops] at fell
        cases fell
    | apart kept left quiet => exact absurd rfl (quiet _ fell)

theorem Reachable.watched (h : w.Reachable) (place : Nat) : w.Watched place := by
  induction h with
  | start cells => simp [Watched, World.start]
  | @next w v reachable step ih =>
      cases step with
      | turn index pick took =>
          obtain ⟨t, old, tail, e, took, kind⟩ := moves_of_turn reachable.orderly took place
          exact took.watched kind reachable ih
      | issue command =>
          intro t ht call rest hops asleep
          rw [World.releases, load_issue]
          rcases List.mem_append.mp ht with ht | ht
          · exact ih t ht call rest hops asleep
          · obtain rfl := List.mem_singleton.mp ht
            cases hops

theorem exists_of_releases {sleeper : Channel.Call α} (pos : 0 < w.releases place sleeper) :
    ∃ u ∈ w.threads, ∃ reply, .channel place (.announce reply) ∈ u.ops ∧
      reply.releases sleeper = true := by
  by_contra none
  push Not at none
  refine absurd (load_eq_zero (fun _ => Op.releases place sleeper) fun u hu op hop => ?_)
    (Nat.ne_of_gt pos)
  unfold Op.releases
  split
  · rename_i p reply
    refine if_neg ?_
    rintro ⟨rfl, frees⟩
    exact none u hu reply hop frees
  · rfl

/-- Where no thread can take a turn nobody is about to wake anybody. -/
theorem Quiescent.releases (quiet : w.Quiescent) (h : w.Reachable) (sleeper : Channel.Call α) :
    w.releases place sleeper = 0 := by
  by_contra pos
  obtain ⟨u, hu, reply, hop, -⟩ := exists_of_releases (Nat.pos_of_ne_zero pos)
  obtain ⟨c, found⟩ := h.channel_of_on hu hop rfl
  obtain ⟨index, got⟩ := List.mem_iff_getElem?.mp hu
  have stays := quiet.effect_eq_none got ((h.orderly.ordered u hu).channel hop)
  simp [Op.effect, found, Channel.Call.effect, Channel.Call.turn] at stays

/-- Some thread sleeps in a send on the channel at `place`. -/
def SenderSleeps (place : Nat) (w : World α) : Prop :=
  ∃ t ∈ w.threads, ∃ x, .channel place (.send x .asleep) ∈ t.ops

/-- Some thread sleeps in a receive on the channel at `place`. -/
def ReceiverSleeps (place : Nat) (w : World α) : Prop :=
  ∃ t ∈ w.threads, .channel place (.receive .asleep) ∈ t.ops

/-- Some thread has taken items out of the ring at `place` and is about to wake the sleepers. -/
def AnnouncesRoom (place : Nat) (w : World α) : Prop :=
  ∃ t ∈ w.threads, ∃ reply, .channel place (.announce reply) ∈ t.ops ∧ reply.items ≠ []

/-- Some thread has put an item into the ring at `place` and is about to wake the sleepers. -/
def AnnouncesItem (place : Nat) (w : World α) : Prop :=
  ∃ t ∈ w.threads, .channel place (.announce .sent) ∈ t.ops

/-- No wakeup gets lost. Nobody sleeps at a channel that is terminated. While a sender sleeps and
there is room, or a receiver sleeps and there are items, somebody has changed the ring accordingly
and is still to wake the sleepers. So where no thread can take a turn a sleeping sender stands before
a full channel that is up and a sleeping receiver before an empty one that is up, and there are never
both. -/
theorem Reachable.no_lost_wakeup (h : w.Reachable) {c : Channel α}
    (found : w.store.channels[place]? = some c) :
    (w.SenderSleeps place → c.terminated = false ∧
      (c.value.toList.length = c.value.capacity ∨ w.AnnouncesRoom place)) ∧
    (w.ReceiverSleeps place → c.terminated = false ∧
      (c.value.toList = [] ∨ w.AnnouncesItem place)) ∧
    (w.Quiescent →
      (w.SenderSleeps place → c.terminated = false ∧
        c.value.toList.length = c.value.capacity) ∧
      (w.ReceiverSleeps place → c.terminated = false ∧ c.value.toList = []) ∧
      ¬(w.SenderSleeps place ∧ w.ReceiverSleeps place)) := by
  have valid := h.channel_valid found
  have watched : ∀ t ∈ w.threads, ∀ call, .channel place call ∈ t.ops → call.asleep = true →
      c.terminated = false ∧ (call.Held c ∨ 0 < w.releases place call) := by
    intro t ht call hop asleep
    obtain ⟨c', found', held⟩ :=
      h.watched place t ht call [] ((h.orderly.ordered t ht).channel hop) asleep
    obtain rfl := Option.some.inj (found.symm.trans found')
    exact held
  refine ⟨?_, ?_, fun quiet => ?_⟩
  · rintro ⟨t, ht, x, hop⟩
    obtain ⟨up, full | pos⟩ := watched t ht _ hop rfl
    · exact ⟨up, .inl (valid.full_iff.mp full)⟩
    · obtain ⟨u, hu, reply, hop', frees⟩ := exists_of_releases pos
      exact ⟨up, .inr ⟨u, hu, reply, hop', by simpa [Channel.Reply.releases] using frees⟩⟩
  · rintro ⟨t, ht, hop⟩
    obtain ⟨up, empty | pos⟩ := watched t ht _ hop rfl
    · exact ⟨up, .inl (valid.isEmpty_iff.mp empty)⟩
    · obtain ⟨u, hu, reply, hop', frees⟩ := exists_of_releases pos
      cases reply with
      | sent => exact ⟨up, .inr ⟨u, hu, hop'⟩⟩
      | _ => cases frees
  · have full : w.SenderSleeps place →
        c.terminated = false ∧ c.value.toList.length = c.value.capacity := by
      rintro ⟨t, ht, x, hop⟩
      obtain ⟨up, held⟩ := watched t ht _ hop rfl
      rw [quiet.releases h] at held
      exact ⟨up, valid.full_iff.mp (held.resolve_right (Nat.lt_irrefl 0))⟩
    have empty : w.ReceiverSleeps place → c.terminated = false ∧ c.value.toList = [] := by
      rintro ⟨t, ht, hop⟩
      obtain ⟨up, held⟩ := watched t ht _ hop rfl
      rw [quiet.releases h] at held
      exact ⟨up, valid.isEmpty_iff.mp (held.resolve_right (Nat.lt_irrefl 0))⟩
    refine ⟨full, empty, fun ⟨sends, receives⟩ => ?_⟩
    have hlength := (full sends).2
    rw [(empty receives).2, List.length_nil] at hlength
    exact absurd hlength (Nat.ne_of_lt valid.capacity_pos)

/-- A channel with room for one item, and a second sender that sleeps before it. -/
def heldBack : World Nat :=
  follow 40 [.newChannel "q" 1, .onChannel "q" (.send 7), .onChannel "q" (.send 8)] (.start [])

/-- A receive has then taken the item out but has not woken the sender yet. -/
def roomMade : World Nat :=
  (heldBack.issue (.onChannel "q" .receive)).settle 2 3

theorem no_lost_wakeup_of_roomMade :
    (heldBack.Quiescent ∧ heldBack.SenderSleeps 0 ∧ ¬heldBack.ReceiverSleeps 0 ∧
      ∃ c, heldBack.store.channels[0]? = some c ∧ c.value.toList.length = c.value.capacity) ∧
    roomMade.SenderSleeps 0 ∧ roomMade.AnnouncesRoom 0 ∧
      ∃ c, roomMade.store.channels[0]? = some c ∧ c.terminated = false ∧ c.value.toList = [] := by
  have reachable : heldBack.Reachable := reachable_follow 40 _ (.start [])
  have reachable' : roomMade.Reachable := reachable_settle (.next reachable (.issue _ _)) 2 3
  have quiet : heldBack.Quiescent := by decide
  have sleeper : ∀ w : World Nat,
      w.threads[2]?.map (·.ops) = some [.channel 0 (.send 8 .asleep)] → w.SenderSleeps 0 := by
    intro w h
    obtain ⟨t, got, ops⟩ := Option.map_eq_some_iff.mp h
    exact ⟨t, List.mem_of_getElem? got, 8, by simp [ops]⟩
  have sleeps : heldBack.SenderSleeps 0 := sleeper heldBack rfl
  have sleeps' : roomMade.SenderSleeps 0 := sleeper roomMade rfl
  obtain ⟨c, found⟩ : ∃ c, heldBack.store.channels[0]? = some c :=
    Option.isSome_iff_exists.mp (by decide)
  obtain ⟨c', found', hlist⟩ : ∃ c, roomMade.store.channels[0]? = some c ∧ c.value.toList = [] := by
    have h : roomMade.store.channels[0]?.map (·.value.toList) = some [] := by decide
    exact Option.map_eq_some_iff.mp h
  obtain ⟨-, -, calm⟩ := reachable.no_lost_wakeup found
  obtain ⟨full, -, never⟩ := calm quiet
  obtain ⟨room, -, -⟩ := reachable'.no_lost_wakeup found'
  obtain ⟨up, full' | announced⟩ := room sleeps'
  · have pos := (reachable'.channel_valid found').capacity_pos
    rw [hlist, List.length_nil] at full'
    exact absurd full' (Nat.ne_of_lt pos)
  · exact ⟨⟨quiet, sleeps, fun receives => never ⟨sleeps, receives⟩, c, found, (full sleeps).2⟩,
      sleeps', announced, c', found', up, hlist⟩

end World

end WorkerPool
