import WorkerPool.Proofs.Idle
import WorkerPool.Proofs.Vacancy
import WorkerPool.Proofs.Verdict
import WorkerPool.Proofs.Wakeups

/-! What the destruction of a pool leaves behind. When the wait for its workers is over, nobody has
anything to do with the pool, so nobody has one of its items, and nobody is about to drain it: the
ring is empty and the backlog is zero. Then the pool is at rest, as it is for whoever waits for
that, and since nobody comes back to it, nothing of what it was given will ever be performed.
Whoever is to count on one of its latches, or to wake those who sleep there, has something to settle
with the pool. So all its latches are at zero, and nobody sleeps. -/

namespace WorkerPool

variable {α : Type}

/-- The performances that are the business of the pool at `p`: those of its items and batches, and
the continuations of the latches that it has made out tickets for. -/
def Origin.Of (h : List (Who × Entry)) (p : Nat) : Origin → Prop
  | .item q _ | .batch q _ => q = p
  | .latch l => ∃ ticket, Recorded h (.ticketed p ticket) ∧ ticket.latch = some l
  | .caller => False

theorem Origin.Of.mono {h h' : List (Who × Entry)} (sub : h ⊆ h') {p : Nat} {o : Origin}
    (mine : o.Of h p) : o.Of h' p := by
  cases o with
  | latch l =>
      obtain ⟨ticket, recorded, hl⟩ := mine
      exact ⟨ticket, recorded.mono sub, hl⟩
  | item | batch | caller => exact mine

theorem Origin.Of.ne_caller {h : List (Who × Entry)} {p : Nat} {o : Origin} (mine : o.Of h p) :
    o ≠ .caller := by
  rintro rfl
  exact mine

/-- What has nothing left before and after a turn does nothing in it. -/
theorem Performs.silent {o : Origin} {who : Who} {begins ends : Prop} {before after : Multiset Part}
    {notes : List (Who × Entry)} (performs : Performs o who begins ends before notes after)
    (none : before = 0) (none' : after = 0) : notes = [] := by
  cases performs with
  | rest | start | through | settle => rfl
  | call | back => exact absurd none (Multiset.singleton_ne_zero _)
  | fall => exact absurd none' (Multiset.singleton_ne_zero _)

namespace Op

theorem Clearing.tends {p : Nat} {rest : List (Op α)} (clearing : Clearing p rest) :
    ∃ op ∈ rest, op.tends p = true := by
  induction clearing with
  | leave _ ih | count _ _ ih =>
      obtain ⟨op, hop, tends⟩ := ih
      exact ⟨op, List.mem_cons_of_mem _ hop, tends⟩
  | done rest => exact ⟨_, List.mem_cons_self, beq_self_eq_true p⟩
  | wait l sub rest mine | refused sub rest mine =>
      exact ⟨_, List.mem_cons_self, beq_iff_eq.mpr mine⟩

/-- Behind a departure stands somebody who belongs to the pool. -/
theorem AfterLeave.tends {p : Nat} {rest : List (Op α)} (after : AfterLeave p rest) :
    ∃ op ∈ rest, op.tends p = true := by
  cases after with
  | work i => exact ⟨_, List.mem_cons_self, beq_self_eq_true p⟩
  | clearing behind => exact behind.tends

/-- Whoever has an item of a pool to settle belongs to the pool, but for the departure itself. -/
theorem tends_of_dues {p : Nat} {op : Op α} (due : op.dues p ≠ 0) :
    op = .backlog p .leave ∨ op.tends p = true := by
  unfold dues at due
  split at due
  all_goals first | exact absurd rfl due | skip
  all_goals
    obtain rfl : _ = p := by
      by_contra apart
      exact due (if_neg apart)
  all_goals first | exact .inr (beq_self_eq_true _) | exact .inl rfl

theorem tends_of_draining {p : Nat} {op : Op α} (drains : op.draining p ≠ 0) :
    op.tends p = true := by
  unfold draining at drains
  split at drains
  · by_contra apart
    exact drains (if_neg fun same => apart (beq_iff_eq.mpr same))
  · exact absurd rfl drains

/-- Who is asleep at a latch waits for it. -/
theorem eq_wait_of_asleep {l : Nat} {op : Op α} (asleep : op.sleepsAt = some (.latch l)) :
    ∃ waiter, op = .latch l (.wait .asleep) waiter := by
  unfold sleepsAt at asleep
  split at asleep
  case h_3 k call waiter =>
    split at asleep
    · rename_i sleeps
      obtain rfl := Bell.latch.inj (Option.some.inj asleep)
      cases call with
      | wait stage => exact ⟨waiter, by rw [beq_iff_eq.mp sleeps]⟩
      | _ => cases sleeps
    · cases asleep
  case h_7 => cases asleep
  all_goals split at asleep <;> cases asleep

end Op

namespace World

variable {w v : World α} {index : Nat} {t : Thread α} {old tail : List (Op α)} {e : Effect α}
  {p : Nat}

/-! ### Nobody is left -/

theorem Vacated.clear (vacated : w.Vacated p) (h : w.Reachable) : w.dues p = 0 := by
  refine load_eq_zero _ fun t ht op hop => ?_
  by_contra due
  rcases Op.tends_of_dues due with rfl | tends
  · obtain ⟨above, rest, hops, before⟩ := (h.orderly.ordered t ht).before hop
    cases before with
    | leave _ after =>
        obtain ⟨op, hop, tends⟩ := after.tends
        rw [List.append_nil] at hop
        have hmem : op ∈ t.ops := hops ▸ List.mem_append_right _ (List.mem_cons_of_mem _ hop)
        rw [vacated.idle t ht op hmem] at tends
        cases tends
  · rw [vacated.idle t ht op hop] at tends
    cases tends

theorem Vacated.empty (vacated : w.Vacated p) (h : w.Reachable) : w.store.ring p = [] := by
  refine (h.closed.drained p vacated.down).resolve_right fun drains => ?_
  have none : (w.load fun _ => Op.draining p) = 0 := by
    refine load_eq_zero _ fun t ht op hop => ?_
    by_contra drains
    have tends := Op.tends_of_draining drains
    rw [vacated.idle t ht op hop] at tends
    cases tends
  omega

theorem Vacated.backlog (vacated : w.Vacated p) (h : w.Reachable) {pool : Pool}
    (found : w.store.pools[p]? = some pool) : pool.backlog.value = 0 := by
  have backlog := h.backlog_eq p
  rw [Store.backlog_eq found, vacated.clear h, vacated.empty h] at backlog
  exact backlog

/-- The workers of a pool that has been left have ended. -/
theorem Vacated.worker_over (vacated : w.Vacated p) (h : w.Reachable) (ht : t ∈ w.threads) {i : Nat}
    (who : t.who = .worker p i) : t.ops = [] := by
  rcases List.eq_nil_or_concat t.ops with none | ⟨above, last, ops⟩
  · exact none
  rw [List.concat_eq_append] at ops
  have stack := h.orderly.ordered t ht
  rw [ops, who, Op.leads_append, List.append_nil] at stack
  obtain ⟨phase, rfl⟩ := stack.2.1.last
  have idle := vacated.idle t ht (.work p i phase) (by simp [ops])
  rw [Op.tends, beq_self_eq_true] at idle
  cases idle

theorem Vacated.ended (vacated : w.Vacated p) (h : w.Reachable) {pool : Pool}
    (found : w.store.pools[p]? = some pool) {i : Nat} (within : i < pool.threads) :
    w.Ended p i := by
  obtain ⟨index, t, got, who⟩ := vacated.made.worker h found within
  have ht := List.mem_of_getElem? got
  exact ⟨t, ht, who, vacated.worker_over h ht who⟩

/-! ### Nothing goes on -/

/-- Nobody has to deal with the end of a performance for a pool that has been left. -/
theorem Vacated.not_ends (vacated : w.Vacated p) (h : w.Reachable) {o : Origin}
    (mine : o.Of w.history p) (ht : t ∈ w.threads) {op : Op α} (hop : op ∈ t.ops) :
    ¬op.Ends o := by
  intro ends
  have busy : ∀ op ∈ t.ops, op.tends p ≠ true := fun op hop tends => by
    rw [vacated.idle t ht op hop] at tends
    cases tends
  cases ends with
  | item q i item panic | batch q batch id asker succeeded =>
      exact busy _ hop (beq_iff_eq.mpr mine)
  | finale l job succeeded waiter =>
      obtain ⟨ticket, recorded, hl⟩ := mine
      obtain ⟨above, rest, hops, charge⟩ := (h.charged t ht).of_mem hop
      have charge : Op.Charge w.history t.who l false rest := charge
      generalize hfailed : false = failed at charge
      cases charge with
      | free _ _ untold => exact absurd hl (untold p ticket recorded)
      | performed q i item succeeded told known evidence =>
          obtain rfl := h.pool_of_told recorded hl known told
          exact busy (.work q i (.finish item succeeded)) (by simp [hops]) (beq_self_eq_true q)
      | dropped | behind => cases hfailed

theorem Vacated.parts (vacated : w.Vacated p) (h : w.Reachable) {o : Origin}
    (mine : o.Of w.history p) : w.parts o = 0 :=
  h.parts_of_ends mine.ne_caller fun _ ht _ hop => vacated.not_ends h mine ht hop

/-- Nothing of what a pool was given is going on when it has been left, nor ever will. -/
theorem Vacated.past (vacated : w.Vacated p) (h : w.Reachable) {o : Origin}
    (mine : o.Of w.history p) : w.Past o := by
  intro u later
  have kept := later.keeps h
    (P := fun u => u.Vacated p ∧ o.Of u.history p ∧ u.calls o = w.calls o) ⟨vacated, mine, rfl⟩
    (fun x command hx ⟨vacated, mine, calls⟩ =>
      ⟨Later.vacated (.single (.issue x command)) hx vacated, mine, calls⟩)
    fun x y i t old tail e hx hy took ⟨vacated, mine, calls⟩ => ?_
  · exact ⟨kept.1.parts (h.later later) kept.2.1, kept.2.2⟩
  · have mine' := mine.mono took.history_subset
    have vacated' := took.vacated vacated
    refine ⟨vacated', mine', ?_⟩
    obtain ⟨r, before, after⟩ := took.parts o
    rw [vacated.parts hx mine] at before
    rw [vacated'.parts hy mine'] at after
    have stack := took.leads hx.orderly
    have silent := (took.act.performs stack.1 mine.ne_caller).silent
      (Multiset.le_zero.mp (before ▸ Multiset.le_add_right _ r))
      (Multiset.le_zero.mp (after ▸ Multiset.le_add_right _ r))
    rw [took.calls, silent, List.nil_append, calls]

/-! ### Nobody waits -/

variable {l : Nat} {ticket : Ticket}

/-- Whoever is about to wake those who wait for what was accepted has an item to settle, too. -/
theorem Reachable.alarm_due (h : w.Reachable) (honoured : ticket.Honoured w.history p)
    (hl : ticket.latch = some l) (ht : t ∈ w.threads) {op : Op α} (hop : op ∈ t.ops)
    (rings : op.rings (.latch l) ≠ 0) : 0 < w.dues p := by
  cases op with
  | latch k call waiter =>
      cases call with
      | announce =>
          obtain rfl : l = k := by
            by_contra apart
            exact rings (if_neg fun same => apart (Bell.latch.inj same))
          obtain ⟨above, rest, hops, failed, charge⟩ := (h.charged t ht).of_mem hop
          exact h.charge_due honoured hl ht hops charge
      | _ => exact absurd rfl rings
  | backlog q call => cases call <;> exact absurd rfl rings
  | submit sub phase =>
      cases phase with
      | send call => cases call <;> exact absurd rfl rings
      | _ => exact absurd rfl rings
  | work q i phase =>
      cases phase with
      | receive call => cases call <;> exact absurd rfl rings
      | _ => exact absurd rfl rings
  | shutDown q phase =>
      cases phase with
      | call call => cases call <;> exact absurd rfl rings
      | _ => exact absurd rfl rings
  | _ => exact absurd rfl rings

/-- Nobody is asleep at the latch of what was accepted when nobody has an item to settle. -/
theorem Reachable.awake_of_clear (h : w.Reachable) (honoured : ticket.Honoured w.history p)
    (hl : ticket.latch = some l) {latch : Latch} (found : w.store.latches[l]? = some latch)
    (zero : latch.value.remaining = 0) (clear : w.dues p = 0) :
    ∀ t ∈ w.threads, t.sleepsAt ≠ some (.latch l) := by
  intro t ht asleep
  obtain ⟨op, head, hop⟩ := Option.bind_eq_some_iff.mp asleep
  obtain ⟨rest, ops⟩ := List.head?_eq_some_iff.mp head
  rcases h.wakeful t ht op rest _ ops hop with held | alarms
  · obtain ⟨waiter, rfl⟩ := Op.eq_wait_of_asleep hop
    obtain ⟨latch', found', -, held⟩ := held
    obtain rfl := Option.some.inj (found.symm.trans found')
    omega
  · have none : w.alarms (.latch l) = 0 := by
      refine load_eq_zero _ fun t ht op hop => ?_
      by_contra rings
      have := h.alarm_due honoured hl ht hop rings
      omega
    omega

/-- Whoever holds the ticket of a pool, with the latch `l`, hears at once how it has ended. -/
structure Decided (w : World α) (p l : Nat) (ticket : Ticket) : Prop where
  realized : ∀ name, w.store.names.tickets.find? name = some ticket →
    TicketRequest.isComplete.effect w.store name = .succeed w.store (.flag true)
  asked : ∀ name, w.store.names.tickets.find? name = some ticket →
    ((TicketRequest.wait none).effect w.store name).ops =
      [.latch l (.wait .arriving) (.ticket ticket.id)]
  told : ∀ (index pick : Nat) (t : Thread α) (stage : Stage) (rest : List (Op α)),
    w.threads[index]? = some t → t.ops = .latch l (.wait stage) (.ticket ticket.id) :: rest →
      ∃ v t', w.turn index pick = some v ∧ v.threads[index]? = some t' ∧ t'.ops = rest ∧
        (t'.answer = some (.ok .nothing) ↔ w.Fulfilled p l ticket) ∧
        (t'.answer = some (.error (.abandoned ticket.id)) ↔ ¬w.Fulfilled p l ticket)
  settled : w.Over p l ticket

theorem effect_of_ticket {around : Around} {s : Store α} {who : Who} {stage : Stage} {id : Nat}
    {latch : Latch} (found : s.latches[l]? = some latch) (zero : latch.value.remaining = 0)
    (up : latch.terminated = false) (awake : stage ≠ .asleep) :
    (Op.latch l (.wait stage) (.ticket id)).effect around s who = some {
      store := s
      answer := some (if latch.value.failed then .error (.abandoned id) else .ok .nothing) } := by
  have same : s.setLatch l latch = s := Store.setLatch_self found
  cases stage with
  | asleep => exact absurd rfl awake
  | arriving | woken =>
      cases failed : latch.value.failed <;>
        simp [Op.effect, found, Latch.Call.effect, Latch.Call.turn, Monitor.lookWhile,
          Monitor.dismisses, Monitor.verdict, zero, up, Waiter.effect, Effect.succeed, Effect.fail,
          same, failed]

theorem Vacated.decided (vacated : w.Vacated p) (h : w.Reachable)
    (honoured : ticket.Honoured w.history p) (awaited : ticket.awaited = .ok l) :
    w.Decided p l ticket := by
  have hl := Ticket.latch_of_awaited awaited
  obtain ⟨latch, found, zero, -⟩ :=
    h.through_of_idle honoured hl (vacated.empty h) (vacated.clear h)
  have up := (h.tallied.tallied p ticket l latch honoured.1 hl found).up
  obtain ⟨truth, settled⟩ := h.fulfilled_iff honoured hl found zero
  have awake := h.awake_of_clear honoured hl found zero (vacated.clear h)
  refine ⟨fun name kept => ?_, fun name kept => ?_, fun index pick t stage rest got ops => ?_,
    settled⟩
  · simp [TicketRequest.effect, TicketRequest.effect.kept, Effect.withObject, kept, Ticket.ask,
      awaited, found, Latch.realized, zero]
  · obtain ⟨notes, effect⟩ := TicketRequest.effect_wait kept awaited (.direct (s := w.store))
    rw [effect]
  · have hstage : stage ≠ .asleep := by
      rintro rfl
      exact awake t (List.mem_of_getElem? got) (by rw [Thread.sleepsAt, ops]; rfl)
    have effect : (Op.latch l (.wait stage) (.ticket ticket.id)).effect (w.around index) w.store
        t.who = some _ := effect_of_ticket found zero up hstage
    refine ⟨_, { t with
      ops := rest
      answer := some (if latch.value.failed then .error (.abandoned ticket.id) else .ok .nothing) },
      turn_of_effect got ops effect pick, thread_of_silent got rfl rfl pick rest, rfl, ?_, ?_⟩
    · rw [truth]
      cases latch.value.failed <;> simp
    · rw [truth]
      cases latch.value.failed <;> simp

/-- What is left of the pool at `p` when its destruction is over: it is down and at rest, its
workers have ended, nothing of what it was given will ever be performed, and whoever holds a ticket
for something that it accepted hears at once how that has ended. -/
structure Destroyed (w : World α) (p : Nat) (pool : Pool) : Prop where
  found : w.store.pools[p]? = some pool
  down : pool.isDown = true
  ended : ∀ i < pool.threads, w.Ended p i
  stopped : ∀ t ∈ w.threads, ∀ i, t.who = .worker p i → t.ops = []
  ring : pool.intake.value.toList = []
  backlog : pool.backlog.value = 0
  resting : w.Resting p pool
  past : ∀ o : Origin, o.Of w.history p → w.Past o
  decided : ∀ (ticket : Ticket) (l : Nat), ticket.Honoured w.history p → ticket.awaited = .ok l →
    w.Decided p l ticket

theorem Vacated.destroyed (vacated : w.Vacated p) (h : w.Reachable) :
    ∃ pool, w.Destroyed p pool := by
  obtain ⟨pool, found, down⟩ := vacated.down
  have backlog := vacated.backlog h found
  exact ⟨pool, found, down, fun i within => vacated.ended h found within,
    fun t ht i who => vacated.worker_over h ht who,
    (Store.ring_eq found).symm.trans (vacated.empty h), backlog, h.resting_of_backlog found backlog,
    fun o mine => vacated.past h mine, fun ticket l honoured awaited =>
      vacated.decided h honoured awaited⟩

/-! ### Whoever destroys a pool -/

/-- Nobody but `who` is in a call on the pool at `p`. -/
def HeldBy (w : World α) (p : Nat) (who : Who) : Prop :=
  ∀ t ∈ w.threads, ∀ op ∈ t.ops, op.holds p = true → t.who = who

theorem Took.heldBy (took : w.Took v index t old tail e) (unnamed : ¬w.store.NamesPool p)
    {who : Who} (sole : w.HeldBy p who) : v.HeldBy p who := by
  refine took.forall_ops (P := fun who' op => op.holds p = true → who' = who)
    (fun _ op h => op.holds_wake p ▸ h) sole (fun op' hop' holds => ?_) fun _ _ _ _ => nofun
  obtain ⟨op, hold, passes⟩ := took.act.passes (p := p) hop'
  exact (passes.holds holds).elim (sole t took.mem_threads op (took.mem_ops hold))
    fun named => absurd named unnamed

/-- The only one who holds a pool finds that nobody else does. -/
theorem Reachable.unused_of_heldBy (h : w.Reachable) {n : Nat} {op : Op α} {rest : List (Op α)}
    (got : w.threads[index]? = some t) (who : t.who = .step n) (ops : t.ops = op :: rest)
    (free : ∀ op ∈ rest, op.holds p = false) (sole : w.HeldBy p (.step n)) :
    (w.around index).inUse p = false := by
  rw [inUse_eq got ops, List.any_eq_false]
  intro u hu held
  obtain ⟨op', hop', holds⟩ := List.any_eq_true.mp held
  obtain ⟨j, hj⟩ := List.mem_iff_getElem?.mp hu
  by_cases same : index = j
  · subst same
    rw [List.getElem?_set_self (List.getElem?_eq_some_iff.mp got).1] at hj
    obtain rfl := Option.some.inj hj
    rw [free op' hop'] at holds
    cases holds
  · rw [List.getElem?_set_ne same] at hj
    exact same (h.step_unique got hj who (sole u (List.mem_of_getElem? hj) op' hop' holds))

/-- How far a step has come that destroys the pool at `p`: it was refused because the pool was in
use, it is about to let go of the pool or waits for its workers, or it is done with that. -/
inductive Destroying (w : World α) (p : Nat) (t : Thread α) : Prop
  | denied (ops : t.ops = []) (answer : t.answer = some (.error .poolInUse))
  | letting (ops : t.ops = [.release p, .answer (.ok .nothing)]) (made : w.Made p)
      (unnamed : ¬w.store.NamesPool p) (sole : w.HeldBy p t.who)
  | closing (front : List (Op α)) (i : Nat) (waiting : Bool)
      (ops : t.ops = front ++ [.join p i waiting, .answer (.ok .nothing)])
  | through (ops : t.ops = [.answer (.ok .nothing)]) (vacated : w.Vacated p)
  | closed (ops : t.ops = []) (answer : t.answer = some (.ok .nothing)) (vacated : w.Vacated p)

theorem Destroying.wake (destroying : w.Destroying p t) : w.Destroying p t.wake := by
  cases destroying with
  | denied ops answer => exact .denied (by simp [Thread.wake, ops]) answer
  | letting ops made unnamed sole =>
      exact .letting (by simp [Thread.wake, ops, Op.wake]) made unnamed sole
  | closing front i waiting ops =>
      cases front with
      | nil => exact .closing [] i waiting (by simp [Thread.wake, ops, Op.wake])
      | cons op front => exact .closing (op.wake :: front) i waiting (by simp [Thread.wake, ops])
  | through ops vacated => exact .through (by simp [Thread.wake, ops, Op.wake]) vacated
  | closed ops answer vacated => exact .closed (by simp [Thread.wake, ops]) answer vacated

/-- The turns of others do not keep a step from destroying a pool. -/
theorem Took.destroying {s u : Thread α} (took : w.Took v index s old tail e)
    (destroying : w.Destroying p u) : v.Destroying p u := by
  cases destroying with
  | denied ops answer => exact .denied ops answer
  | letting ops made unnamed sole =>
      exact .letting ops (took.made made) (took.unnamed made unnamed) (took.heldBy unnamed sole)
  | closing front i waiting ops => exact .closing front i waiting ops
  | through ops vacated => exact .through ops (took.vacated vacated)
  | closed ops answer vacated => exact .closed ops answer (took.vacated vacated)

/-- The wait for workers to end stays where it is while others stand above it: no panic gets past
the shutdown that stands directly above. -/
theorem Took.above_join (took : w.Took v index t old tail e) (orderly : w.Orderly)
    {front behind : List (Op α)} {i : Nat} {waiting : Bool}
    (ops : t.ops = front ++ .join p i waiting :: behind) (above : front ≠ []) :
    ∃ front', e.ops ++ tail = front' ++ .join p i waiting :: behind := by
  obtain ⟨front, last, rfl⟩ := (List.eq_nil_or_concat front).resolve_left above
  rw [List.concat_eq_append] at ops
  have stack := orderly.ordered t took.mem_threads
  rw [ops, List.append_assoc, Op.leads_append, List.append_nil] at stack
  obtain ⟨phase, rfl⟩ := stack.2.1.of_join
  have hops := took.ops.symm.trans ops
  rcases List.append_eq_append_iff.mp hops with ⟨rest, hfront, htail⟩ | ⟨rest, hold, hbehind⟩
  · exact ⟨e.ops ++ rest, by rw [htail, List.append_assoc]⟩
  · cases rest with
    | nil => exact ⟨e.ops, by rw [hbehind, List.nil_append]⟩
    | cons op rest =>
        have passed : .shutDown p phase ∈ old := by simp [hold]
        cases took.act with
        | deed deed quiet =>
            have := congrArg List.length hold
            simp only [List.length_append, List.length_cons] at this
            omega
        | broke payload loose lands uncaught =>
            rcases List.mem_append.mp passed with passed | passed
            · exact (loose _ passed).elim
            · cases lands <;> simp at passed

/-- Whom a thread waits for is a worker. -/
theorem awaits_ne_step {who : Who} {n : Nat} : (w.around index).awaits who ≠ some (.step n) := by
  intro awaits
  obtain ⟨t, -, awaits⟩ := Option.bind_eq_some_iff.mp awaits
  unfold Thread.awaits at awaits
  split at awaits <;> cases awaits

/-- A wake changes nothing for a step that destroys a pool, so it is enough to know what the turn
itself leaves. -/
theorem Took.destroying_self (took : w.Took v index t old tail e) {n : Nat} (who : t.who = .step n)
    (left : ∀ t' : Thread α, t'.who = .step n → t'.ops = e.ops ++ tail →
      (∀ given, e.answer = some given → t'.answer = some given) → v.Destroying p t') :
    ∃ t', v.threads[index]? = some t' ∧ t'.who = .step n ∧ v.Destroying p t' := by
  obtain ⟨t', got', who', -⟩ := took.stays took.got
  obtain ⟨other, -⟩ | ⟨-, -, answer, given, rfl | rfl⟩ := took.thread_at took.got got'
  · exact absurd rfl other
  · exact ⟨_, got', who, left _ who rfl given⟩
  · exact ⟨_, got', who, (left { t with ops := e.ops ++ tail, answer } who rfl given).wake⟩

/-- A step that destroys a pool goes on with that in its turns. It lets go of the pool as the last
one, and no worker can be waiting for it. -/
theorem Reachable.destroying (h : w.Reachable) {n : Nat} (got : w.threads[index]? = some t)
    (who : t.who = .step n) (destroying : w.Destroying p t) {pick : Nat}
    (turn : w.turn index pick = some v) :
    ∃ t', v.threads[index]? = some t' ∧ t'.who = .step n ∧ v.Destroying p t' := by
  have none : t.ops ≠ [] := not_ended_of_turn got turn
  cases destroying with
  | denied ops | closed ops => exact absurd ops none
  | through ops vacated =>
      obtain ⟨e, effect, -, -, ⟨-, took⟩ | ⟨payload, -, -, -, -, -, panic, -⟩⟩ :=
        took_cases h.orderly got ops turn
      · obtain rfl := Option.some.inj effect
        exact took.destroying_self who fun t' _ ops' given =>
          .closed ops' (given _ rfl) (took.vacated vacated)
      · obtain rfl := Option.some.inj effect
        cases panic
  | letting ops made unnamed sole =>
      obtain ⟨e, -, -, deed, ⟨-, took⟩ | ⟨payload, -, -, -, -, -, panic, -⟩⟩ :=
        took_cases h.orderly got ops turn
      · have unused := h.unused_of_heldBy got who ops (by simp [Op.holds]) (who ▸ sole)
        cases deed with
        | jobAdded submits | freeJobAdded submits => cases submits
        | released place pool found kept =>
            rw [unused] at kept
            exact absurd ((Store.isNamed_iff h.single).mp (kept.resolve_right Bool.false_ne_true))
              unnamed
        | lastReleased =>
            exact took.destroying_self who fun t' _ ops' _ => .closing [.shutDown p .check] 0 false ops'
      · cases deed with
        | jobAdded submits | freeJobAdded submits => cases submits
        | released | lastReleased => cases panic
  | closing front i waiting ops =>
      cases front with
      | cons op front =>
          obtain ⟨s, old, tail, e, took⟩ := took_of_turn h.orderly turn
          obtain rfl := Option.some.inj (took.got.symm.trans got)
          obtain ⟨front', left⟩ := took.above_join h.orderly ops (List.cons_ne_nil _ _)
          exact took.destroying_self who fun t' _ ops' _ => .closing front' i waiting (ops'.trans left)
      | nil =>
          obtain ⟨e, -, -, deed, ⟨quiet, took⟩ | ⟨payload, -, -, -, -, -, panic, -⟩⟩ :=
            took_cases h.orderly got ops turn
          · cases deed with
            | jobAdded submits | freeJobAdded submits => cases submits
            | deadlocked => cases quiet
            | joinedAll place j waiting pool found outside =>
                exact took.destroying_self who fun t' _ ops' _ =>
                  .through ops' (h.vacated got ops found outside turn)
            | joined | joinBegun => exact took.destroying_self who fun t' _ ops' _ => .closing [] _ _ ops'
          · cases deed with
            | jobAdded submits | freeJobAdded submits => cases submits
            | joinedAll | joined | joinBegun => cases panic
            | deadlocked place j pool found inside stuck =>
                rcases stuck with same | awaits
                · rw [who] at same
                  cases same
                · exact absurd (who ▸ awaits) awaits_ne_step

theorem Later.destroying (later : w.Later v) (h : w.Reachable) {n : Nat}
    (got : w.threads[index]? = some t) (who : t.who = .step n) (destroying : w.Destroying p t) :
    ∃ t', v.threads[index]? = some t' ∧ t'.who = .step n ∧ v.Destroying p t' := by
  induction later with
  | refl => exact ⟨t, got, who, destroying⟩
  | @tail x y earlier step ih =>
      obtain ⟨t', got', who', destroying'⟩ := ih
      cases step with
      | issue command =>
          have there := (List.getElem?_eq_some_iff.mp got').1
          have goes := Later.vacated (.single (.issue x command)) (h.later earlier) (p := p)
          refine ⟨t', (List.getElem?_append_left there).trans got', who', ?_⟩
          cases destroying' with
          | denied ops answer => exact .denied ops answer
          | closing front i waiting ops => exact .closing front i waiting ops
          | through ops vacated => exact .through ops (goes vacated)
          | closed ops answer vacated => exact .closed ops answer (goes vacated)
          | letting ops made unnamed sole =>
              refine .letting ops ⟨made.1, by rw [load_issue]; exact made.2⟩ unnamed ?_
              exact forall_ops_issue (P := fun who op => op.holds p = true → who = t'.who) sole
                nofun
      | turn i pick turn =>
          by_cases mine : i = index
          · subst mine
            exact (h.later earlier).destroying got' who' destroying' turn
          · obtain ⟨s, old, tail, e, took⟩ := took_of_turn (h.later earlier).orderly turn
            obtain ⟨t'', got'', same, -⟩ := took.stays got'
            rcases took.thread_at got' got'' with ⟨-, rfl | rfl⟩ | ⟨rfl, -⟩
            · exact ⟨_, got'', who', took.destroying destroying'⟩
            · exact ⟨_, got'', who', (took.destroying destroying').wake⟩
            · exact absurd rfl mine

theorem effect_of_destroy {around : Around} {s : Store α} {name : String} {pool : Pool}
    (named : s.poolNamed? name = some (p, pool)) :
    PoolRequest.destroy.effect around s name =
      if around.inUse p then .fail s .poolInUse
      else
        { store := { s with names := { s.names with pools := s.names.pools.erase name } }
          ops := [.release p, .answer (.ok .nothing)] } := by
  simp [PoolRequest.effect, PoolRequest.effect.known, Effect.withObject, named]

/-- The first turn of a destruction takes the name away from the pool, unless somebody uses it. -/
theorem Reachable.destroying_of_destroy (h : w.Reachable) {name : String} {pool : Pool}
    (got : w.threads[index]? = some t) (ops : t.ops = [.command (.onPool name .destroy)])
    (named : w.store.poolNamed? name = some (p, pool)) {pick : Nat}
    (turn : w.turn index pick = some v) :
    ∃ n t', v.threads[index]? = some t' ∧ t'.who = .step n ∧ v.Destroying p t' := by
  obtain ⟨n, who⟩ : ∃ n, t.who = .step n := by
    have stack := h.orderly.ordered t (List.mem_of_getElem? got)
    rw [ops] at stack
    cases stack.1 with
    | command steps =>
        cases who : t.who with
        | step n => exact ⟨n, rfl⟩
        | worker => rw [who] at steps; exact steps.elim
  obtain ⟨e, effect, -, took, -⟩ := took_of_effect h.orderly got ops nofun turn
  have hname := (Store.of_poolNamed? named).1
  have effect := (effect_of_destroy named).symm.trans (Option.some.inj effect)
  obtain ⟨t', got', who', -⟩ := took.stays got
  obtain ⟨other, -⟩ | ⟨-, -, answer, given, after⟩ := took.thread_at got got'
  · exact absurd rfl other
  refine ⟨n, t', got', who'.trans who, ?_⟩
  split at effect
  · subst effect
    refine .denied ?_ ?_
    · rcases after with rfl | rfl <;> rfl
    · rcases after with rfl | rfl <;> exact given _ rfl
  · rename_i unused
    subst effect
    have unheld : ¬w.Held p := by
      rw [unheld_iff, (unused_iff got ops).mp (by simpa using unused)]
      rfl
    refine .letting ?_ (took.made (h.made_of_named ⟨name, hname⟩)) ?_ ?_
    · rcases after with rfl | rfl <;> rfl
    · rw [took.store]
      rintro ⟨other, found⟩
      exact h.single.not_find?_erase hname other found
    · refine took.forall_ops (P := fun who op => op.holds p = true → who = t'.who)
        (fun _ op h => op.holds_wake p ▸ h)
        (fun u hu op hop holds => absurd ⟨u, hu, op, hop, holds⟩ unheld)
        (fun _ _ _ => who'.symm) fun _ _ _ _ => nofun

/-- The destruction of a pool leaves nothing behind. When the wait for its workers is over, which is
how every destruction ends, and when a call that destroys the pool has ended with success, the pool
is down and at rest: its workers have ended, its ring is empty, its backlog is zero, no flag is set,
nothing of what it was given is going on or ever will, and whoever holds a ticket for what it has
accepted hears at once how that has ended. All this stays so. -/
theorem Reachable.destruction (h : w.Reachable) (got : w.threads[index]? = some t) {pick : Nat}
    (turn : w.turn index pick = some v) :
    (∀ (p i : Nat) (waiting : Bool) (rest : List (Op α)) (pool : Pool),
      t.ops = .join p i waiting :: rest → w.store.pools[p]? = some pool → pool.threads ≤ i →
        ∀ u, v.Later u → ∃ pool, u.Destroyed p pool) ∧
    ∀ (name : String) (p : Nat) (pool : Pool),
      t.ops = [.command (.onPool name .destroy)] → w.store.poolNamed? name = some (p, pool) →
        ∀ (u : World α) (t' : Thread α), v.Later u → u.threads[index]? = some t' → t'.ops = [] →
          t'.answer = some (.error .poolInUse) ∨
            (t'.answer = some (.ok .nothing) ∧ ∃ pool, u.Destroyed p pool) := by
  have reachable : v.Reachable := .next h (.turn index pick turn)
  refine ⟨fun p i waiting rest pool ops found through u later => ?_,
    fun name p pool ops named u t' later got' ended => ?_⟩
  · have vacated := h.vacated got ops found through turn
    exact (later.vacated reachable vacated).destroyed (reachable.later later)
  · obtain ⟨n, s, found, who, destroying⟩ := h.destroying_of_destroy got ops named turn
    obtain ⟨s', found', -, destroying'⟩ := later.destroying reachable found who destroying
    obtain rfl := Option.some.inj (got'.symm.trans found')
    cases destroying' with
    | denied _ answer => exact .inl answer
    | letting ops | through ops => cases ops.symm.trans ended
    | closing front i waiting ops => simp [ended] at ops
    | closed _ answer vacated => exact .inr ⟨answer, vacated.destroyed (reachable.later later)⟩

/-- A pool has performed two jobs, the second of which has panicked, and is about to be destroyed.
-/
def doomed : World Unit :=
  (follow 40 [
    .newPool "p" (.given { capacity := 2, threads := some 1, name := "p" }),
    .onPool "p" (.submit (.link [] true) (some "t") .holding),
    .onPool "p" (.submit (.link [.panic (.text "broken")] true) (some "u") .holding)]
      (.start [])).issue (.onPool "p" .destroy)

theorem destruction_of_doomed :
    ∃ v, doomed.turn 4 0 = some v ∧ ∃ t', (v.settle 40 4).threads[4]? = some t' ∧
      t'.answer = some (.ok .nothing) ∧ ∃ pool, (v.settle 40 4).Destroyed 0 pool := by
  have reachable : doomed.Reachable := .next (reachable_follow 40 _ (.start [])) (.issue _ _)
  obtain ⟨v, turn⟩ := Option.isSome_iff_exists.mp
    (show (doomed.turn 4 0).isSome = true from rfl)
  have ends : ((doomed.turn 4 0).bind fun v => (v.settle 40 4).threads[4]?).map
      (fun t => (t.ops.length, t.answer)) = some (0, some (.ok .nothing)) := rfl
  rw [turn, Option.bind_some] at ends
  obtain ⟨t', got', ends⟩ := Option.map_eq_some_iff.mp ends
  obtain ⟨ops, answer⟩ := Prod.mk.inj ends
  obtain ⟨-, destroyed⟩ := reachable.destruction (show doomed.threads[4]? = some _ from rfl) turn
  refine ⟨v, turn, t', got', answer, ?_⟩
  rcases destroyed "p" 0 _ rfl rfl (v.settle 40 4) t' (later_settle v 40 4) got'
    (List.length_eq_zero_iff.mp ops) with denied | ⟨-, destroyed⟩
  · rw [answer] at denied
    cases denied
  · exact destroyed

end World

end WorkerPool
