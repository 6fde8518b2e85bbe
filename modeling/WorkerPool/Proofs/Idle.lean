import WorkerPool.Proofs.Dues
import WorkerPool.Proofs.Outcome
import WorkerPool.Proofs.Roster
import WorkerPool.Proofs.Tally

/-! When a pool is idle. Whoever waits for that goes on only when the backlog is empty, and then
there is nothing left that the pool has accepted: the ring is empty, no worker has an item or is
busy, no submission and no shutdown has one, and the latch of everything that was accepted before is
at zero. For whoever is still to count on such a latch has an item to settle, too. -/

namespace WorkerPool

variable {α : Type}

namespace Op

/-- Whether the worker `i` of the pool at `p` is performing an item. -/
def engages (p i : Nat) : Op α → Nat
  | .work q j (.running _ _) | .work q j (.finish _ _) => if q = p ∧ j = i then 1 else 0
  | _ => 0

theorem engages_wake (p i : Nat) (op : Op α) : op.wake.engages p i = op.engages p i := by
  cases op with
  | work q j phase => cases phase <;> rfl
  | submit sub phase => cases phase <;> rfl
  | _ => rfl

theorem engages_le_dues (p i : Nat) (op : Op α) : op.engages p i ≤ op.dues p := by
  cases op with
  | work q j phase =>
      cases phase with
      | running | finish =>
          simp only [engages, dues]
          split
          · rename_i h
            simp [h.1]
          · exact Nat.zero_le _
      | _ => exact Nat.zero_le _
  | _ => exact Nat.zero_le _

/-- A worker or a shutdown has the items to settle that it has in its hands. -/
theorem dues_work (p q i : Nat) (phase : WorkerPhase) :
    dues p (.work q i phase : Op α) = if q = p then phase.items.length else 0 := by
  cases phase with
  | receive call =>
      cases call with
      | announce reply =>
          cases reply with
          | received item => cases item <;> simp [dues, WorkerPhase.items]
          | _ => simp [dues, WorkerPhase.items]
      | _ => simp [dues, WorkerPhase.items]
  | _ => simp [dues, WorkerPhase.items]

theorem dues_shutDown (p : Nat) (phase : ShutdownPhase) :
    dues p (.shutDown p phase : Op α) = phase.items.length := by
  cases phase with
  | call call =>
      cases call with
      | announce reply => cases reply <;> simp [dues, ShutdownPhase.items]
      | _ => rfl
  | _ => rfl

/-- The catcher of a performance is the operation that deals with its end. -/
theorem ends_of_catcher {o : Origin} {who who' : Who} {op : Op α} {programs : List Program}
    {fine : Bool} (h : .catcher who' programs fine ∈ op.parts o who) : op.Ends o := by
  unfold parts at h
  split at h
  · split at h <;> simp at h
  · split at h
    · rename_i same
      exact same ▸ .item _ _ _ _
    · simp at h
  · split at h
    · rename_i same
      exact same ▸ .finale _ _ _ _
    · simp at h
  · split at h
    · rename_i same
      exact same ▸ .batch _ _ _ _ _
    · simp at h
  · simp at h

end Op

namespace Store

/-- The busy flag of the worker `i` of the pool at `p`. -/
def busy (s : Store α) (p i : Nat) : Bool :=
  (s.pools[p]?.bind (·.busy[i]?)).getD false

theorem busy_of_pools {s s' : Store α} (h : s'.pools = s.pools) (p i : Nat) :
    s'.busy p i = s.busy p i := by
  rw [busy, h, busy]

theorem busy_set {s s' : Store α} {place : Nat} {pool pool' : Pool}
    (found : s.pools[place]? = some pool) (h : s'.pools = s.pools.set place pool') (p i : Nat) :
    s'.busy p i = if p = place then pool'.busy[i]?.getD false else s.busy p i := by
  have hpools : s'.pools = (s.setPool place pool').pools := h
  rw [busy_of_pools hpools, busy, getElem?_setPool found]
  split
  · rfl
  · rfl

/-- A turn on a pool that leaves its flags alone. -/
theorem busy_set_same {s s' : Store α} {place : Nat} {pool pool' : Pool}
    (found : s.pools[place]? = some pool) (h : s'.pools = s.pools.set place pool')
    (same : pool'.busy = pool.busy) (p i : Nat) : s'.busy p i = s.busy p i := by
  rw [busy_set found h]
  split
  · rename_i hp
    rw [hp, busy, found, same]
    rfl
  · rfl

end Store

section Deeds

variable {around : Around} {s : Store α} {who : Who} {old : List (Op α)} {e : Effect α}

/-- What a turn does to the flag of the worker `i`: it is set by the worker at the beginning of a
job and cleared at its end, and no other turn changes it. -/
inductive FlagTurn (s : Store α) (e : Effect α) (p i : Nat) (op : Op α) : Prop
  | set (item : Item) (due : op = .work p i (.begin item))
      (flag : ∀ pool, s.pools[p]? = some pool → i < pool.threads → e.store.busy p i = true)
  | cleared (item : Item) (succeeded : Bool) (due : op = .work p i (.finish item succeeded))
      (flag : e.store.busy p i = false)
  | kept (unset : ∀ item, op ≠ .work p i (.begin item))
      (uncleared : ∀ item succeeded, op ≠ .work p i (.finish item succeeded))
      (flag : e.store.busy p i = s.busy p i)

theorem Deed.flag {op : Op α} (deed : Deed around s who op e) (p i : Nat) :
    FlagTurn s e p i op := by
  have hsame : (∀ place index phase, op ≠ .work place index phase) →
      e.store.busy p i = s.busy p i → FlagTurn s e p i op :=
    fun other same => .kept (fun _ => other _ _ _) (fun _ _ => other _ _ _) same
  have hset : ∀ {place : Nat} {pool pool' : Pool}, s.pools[place]? = some pool →
      e.store.pools = s.pools.set place pool' → pool'.busy = pool.busy →
      e.store.busy p i = s.busy p i :=
    fun found hpools same => Store.busy_set_same found hpools same p i
  cases deed with
  | commanded command eases => exact hsame (by simp) (Store.busy_of_pools eases.pools p i)
  | acted origin position action rest later eases =>
      exact hsame (by simp) (Store.busy_of_pools eases.pools p i)
  | handed ticket name same => exact hsame (by simp) (Store.busy_of_pools same.1 p i)
  | poolMade command name settings capacity threads =>
      refine hsame (by simp) ?_
      rcases Nat.lt_trichotomy p s.pools.length with hlt | rfl | hgt
      · simp only [Store.busy, List.getElem?_append_left hlt]
      · simp only [Store.busy, List.getElem?_concat_length, Option.bind_some,
          List.getElem?_replicate, List.getElem?_eq_none (Nat.le_refl _), Option.bind_none]
        split <;> rfl
      · rw [Store.busy, Store.busy, List.getElem?_eq_none (by simpa using Nat.succ_le_of_lt hgt),
          List.getElem?_eq_none (Nat.le_of_lt hgt)]
  | jobAdded submits place pool job found | freeJobAdded submits place pool job found =>
      refine hsame ?_ (hset found (by rfl) (by rfl))
      cases submits <;> simp
  | batchAdded command place pool batch ticket found
  | freeBatchAdded command place pool batch ticket found
  | emptyBatchAdded command place pool batch job ticket found =>
      exact hsame (by simp) (hset found (by rfl) (by rfl))
  | memberAdded sub pool job rest found | enlisted sub pool item found
  | pushed sub pool item stage found =>
      exact hsame (by simp) (hset found (by rfl) (by rfl))
  | left place pool found | poolTerminated place pool found | drained place pool ring found =>
      exact hsame (by simp) (hset found (by rfl) (by rfl))
  | taken place index pool stage item ring found =>
      exact .kept (by simp) (by simp) (hset found (by rfl) (by rfl))
  | jobStarted place index pool item found =>
      by_cases hit : place = p ∧ index = i
      · obtain ⟨rfl, rfl⟩ := hit
        refine .set item rfl fun pool' found' within => ?_
        obtain rfl := Option.some.inj (found.symm.trans found')
        rw [Store.busy_set found (by rfl), if_pos rfl, List.getElem?_set_self within]
        rfl
      · refine .kept (fun _ h => hit (by cases h; exact ⟨rfl, rfl⟩)) (by simp) ?_
        rw [Store.busy_set found (by rfl)]
        split
        · rename_i hp
          rw [List.getElem?_set_ne fun hi => hit ⟨hp.symm, hi⟩, hp, Store.busy, found]
          rfl
        · rfl
  | jobFinished place index pool item succeeded found =>
      by_cases hit : place = p ∧ index = i
      · obtain ⟨rfl, rfl⟩ := hit
        refine .cleared item succeeded rfl ?_
        rw [Store.busy_set found (by rfl), if_pos rfl, List.getElem?_set_self']
        cases pool.busy[index]? <;> rfl
      · refine .kept (by simp) (fun _ _ h => hit (by cases h; exact ⟨rfl, rfl⟩)) ?_
        rw [Store.busy_set found (by rfl)]
        split
        · rename_i hp
          rw [List.getElem?_set_ne fun hi => hit ⟨hp.symm, hi⟩, hp, Store.busy, found]
          rfl
        · rfl
  | _ => exact .kept (by simp) (by simp) rfl

/-- A flag is set only where an item is going to be performed, and stays until that is over. -/
theorem Deed.busy {op : Op α} (deed : Deed around s who op e) {p i : Nat}
    (h : e.store.busy p i = true) :
    1 ≤ (e.ops.map (Op.engages p i)).sum ∨
      (s.busy p i = true ∧ op.engages p i ≤ (e.ops.map (Op.engages p i)).sum) := by
  cases deed.flag p i with
  | set item due flag =>
      subst due
      cases deed with
      | jobAdded submits | freeJobAdded submits => cases submits
      | jobStarted => exact .inl (by simp [Op.engages, Op.perform])
  | cleared item succeeded due flag =>
      rw [flag] at h
      cases h
  | kept unset uncleared flag =>
      refine .inr ⟨flag ▸ h, ?_⟩
      cases deed with
      | jobAdded submits | freeJobAdded submits => cases submits <;> exact Nat.zero_le _
      | jobFinished place index pool item succeeded found =>
          have : Op.engages p i (.work place index (.finish item succeeded) : Op α) = 0 :=
            if_neg fun hit => uncleared item succeeded (by rw [hit.1, hit.2])
          omega
      | jobRan place index pool item found | jobBroke place index pool item payload found =>
          rw [List.map_append, List.sum_append]
          exact Nat.le_add_left _ _
      | _ => exact Nat.zero_le _

theorem Op.Lands.engages {payload : Payload} {old new : List (Op α)} {notes : List Entry}
    (lands : Op.Lands payload old new notes) (p i : Nat) :
    (new.map (Op.engages p i)).sum = (old.map (Op.engages p i)).sum := by
  cases lands <;> simp [Op.engages]

end Deeds

/-- What the ticket of an accepted submission stands for has been pushed, item by item. -/
theorem Item.Part.pushed {h : List (Who × Entry)} {p : Nat} {ticket : Ticket} {item : Item}
    (part : item.Part h p ticket) (accepted : Accepted h p ticket) : Pushed h p item.id := by
  cases part with
  | job _ issued => exact accepted
  | member bid size waitable _ issued =>
      obtain ⟨batch, -, -, hpushed⟩ := accepted
      obtain ⟨who, hmem⟩ := issued
      refine hpushed (item.id, item.job)
          (List.mem_reverse.mpr (List.mem_filterMap.mpr ⟨_, hmem, ?_⟩))
      simp [Entry.member?]

/-- The thread waits for the pool at `p` to become idle. -/
def Thread.AwaitsIdle (t : Thread α) (p : Nat) : Prop :=
  ∃ stage, .backlog p (.awaitIdle stage) ∈ t.ops

namespace World

variable {w v : World α} {index : Nat} {t : Thread α} {old tail : List (Op α)} {e : Effect α}

theorem Took.busy (took : w.Took v index t old tail e) {p i : Nat}
    (ih : w.store.busy p i = true → 1 ≤ w.load fun _ => Op.engages p i)
    (h : v.store.busy p i = true) : 1 ≤ v.load fun _ => Op.engages p i := by
  obtain ⟨r, hbefore, hafter⟩ := took.load (fun _ => Op.engages p i) fun _ op => op.engages_wake p i
  rw [hafter]
  rw [took.store] at h
  cases took.act with
  | deed deed quiet =>
      rw [List.map_singleton, List.sum_singleton] at hbefore
      rcases deed.busy h with hmore | ⟨h, hkept⟩
      · omega
      · have := ih h
        omega
  | broke payload loose lands uncaught =>
      have := ih h
      rw [hbefore, List.map_append, List.sum_append,
        sum_map_eq_zero fun op hop => Nat.le_zero.mp
          ((loose op hop).plain.dues p ▸ op.engages_le_dues p i), Nat.zero_add] at this
      rw [lands.engages p i, Nat.add_right_comm]
      exact Nat.le_trans this (Nat.le_add_right _ _)

/-- A worker whose flag is set has an item to finish. -/
theorem Reachable.engaged (h : w.Reachable) {p i : Nat} :
    w.store.busy p i = true → 1 ≤ w.load fun _ => Op.engages p i := by
  refine h.induct (P := fun w => w.store.busy p i = true → 1 ≤ w.load fun _ => Op.engages p i)
    (fun cells h => nomatch h) (fun w command _ ih h => ?_)
    fun w v index t old tail e reachable took ih => took.busy ih
  rw [load_issue]
  exact ih h

/-- What has been accepted is neither in the hands of a submission nor refused. -/
theorem Reachable.of_pushed (h : w.Reachable) {p id : Nat} (pushed : Pushed w.history p id) :
    (∀ item : Item, item.id = id → ¬Recorded w.history (.refused p item)) ∧
      ∀ t ∈ w.threads, ∀ sub phase item, .submit sub phase ∈ t.ops → sub.pool = p →
        phase.item? = some item → item.id ≠ id := by
  obtain ⟨item, rfl, who, hmem⟩ := pushed
  have hpushed := mem_course (p := p) hmem
    (show Entry.concerns p item.id _ = true by simp [Entry.concerns])
  constructor
  · rintro item' hid ⟨who', hmem'⟩
    obtain ⟨lot, course, -⟩ := h.course p item.id
    have hrefused := mem_course (p := p) hmem'
      (show Entry.concerns p item.id _ = true by simp [Entry.concerns, hid])
    exact (course.of_pushed hpushed who' item').2 (course.eq_refused hrefused)
  · rintro t ht sub phase item' hop rfl hitem hid
    have course := h.course_of_op ht hop
      (show Op.lots sub.pool item.id t.who (.submit sub phase) = {.sending t.who item'} by
        simp [Op.lots, hitem, hid])
    exact (course.of_pushed hpushed t.who item').1 rfl

theorem dues_of_mem {p : Nat} (ht : t ∈ w.threads) {op : Op α} (hop : op ∈ t.ops) :
    op.dues p ≤ w.dues p := by
  obtain ⟨r, hload⟩ := load_of_mem (fun _ => Op.dues p) ht hop
  rw [World.dues, hload]
  exact Nat.le_add_right _ _

/-! ### Whoever is to count has something to settle -/

section Tickets

variable {p l : Nat} {ticket : Ticket}

/-- An item that reports to the latch of a ticket is one of the pool that made it out. -/
theorem Reachable.pool_of_told (h : w.Reachable)
    (recorded : Recorded w.history (.ticketed p ticket))
    (hl : ticket.latch = some l) {q : Nat} {item : Item} (known : item.Known w.history q)
    (told : item.latch = some l) : q = p := by
  obtain ⟨other, recorded', part⟩ := known
  exact (h.ticket_eq recorded' recorded (part.latch ▸ told) hl).1

theorem Reachable.charge_due (h : w.Reachable) (honoured : ticket.Honoured w.history p)
    (hl : ticket.latch = some l) (ht : t ∈ w.threads) {above rest : List (Op α)} {op : Op α}
    (hops : t.ops = above ++ op :: rest) {failed : Bool}
    (charge : Op.Charge w.history t.who l failed rest) : 0 < w.dues p := by
  have hrest : ∀ op' ∈ rest, op' ∈ t.ops := by
    intro op' hop
    rw [hops]
    exact List.mem_append_right _ (List.mem_cons_of_mem _ hop)
  cases charge with
  | free _ _ untold => exact absurd hl (untold p ticket honoured.1)
  | performed q i item succeeded told known evidence =>
      obtain rfl := h.pool_of_told honoured.1 hl known told
      have hdue := dues_of_mem (p := q) ht (hrest _ (List.mem_singleton_self _))
      rwa [Op.dues, if_pos rfl] at hdue
  | dropped q item rest told known evidence =>
      obtain rfl := h.pool_of_told honoured.1 hl known told
      have hdue := dues_of_mem (p := q) ht (hrest _ List.mem_cons_self)
      rwa [Op.dues, if_pos rfl] at hdue
  | behind sub item count rest told part ticketed evidence =>
      obtain ⟨hpool, rfl⟩ := h.ticket_eq ticketed honoured.1 told hl
      subst hpool
      exact absurd evidence ((h.of_pushed (part.pushed honoured.2)).1 item rfl)

/-- A submission that goes on has no completion at stake for what was accepted. -/
theorem Reachable.stakes_of_submit (h : w.Reachable) (honoured : ticket.Honoured w.history p)
    (hl : ticket.latch = some l) (ht : t ∈ w.threads) {sub : Submission} {phase : SubmissionPhase}
    (hop : .submit sub phase ∈ t.ops) : Op.stakes l (.submit sub phase : Op α) = 0 := by
  have known := h.known.ops t ht _ hop
  obtain ⟨above, rest, -, before⟩ := (h.orderly.ordered t ht).before hop
  have fits := before.fits
  have progress := h.enrolled.progress t ht _ hop
  by_cases hphase : phase = .refused
  · rw [hphase]
    rfl
  by_cases hlatch : sub.ticket.latch = some l
  swap
  · cases phase <;> first | rfl | exact if_neg hlatch
  have hstakes : Op.stakes l (.submit sub phase : Op α) =
      sub.rest.length + phase.item?.toList.length := by
    cases phase <;> first | exact absurd rfl hphase | exact if_pos hlatch
  obtain ⟨rfl, rfl⟩ := h.ticket_eq known.1 honoured.1 hlatch hl
  have hnone : phase.item? = none := by
    cases hitem : phase.item? with
    | none => rfl
    | some item =>
        have hpushed := (known.2 item hitem).pushed honoured.2
        exact absurd rfl ((h.of_pushed hpushed).2 t ht sub phase item hop rfl hitem)
  have hrest : sub.rest = [] := by
    cases hticket : sub.ticket with
    | job id latch => exact (fits.alone id latch hticket).1
    | batch bid size waitable latch =>
        have progress : sub.Progress w.history phase := by
          cases phase <;> first | exact absurd rfl hphase | exact progress
        obtain ⟨-, accepted⟩ := honoured
        simp only [Submission.Progress, hticket] at progress
        rw [hticket] at accepted
        obtain ⟨batch, issued, hmembers, -⟩ := accepted
        obtain ⟨batch', issued', hmembers', -⟩ := progress
        cases h.issue_eq issued issued'
        simpa [← hmembers] using hmembers'
  rw [hstakes, hnone, hrest]
  rfl

/-- Nobody has a completion at stake for what was accepted without an item to settle. -/
theorem Reachable.stakes_due (h : w.Reachable) (honoured : ticket.Honoured w.history p)
    (hl : ticket.latch = some l) (ht : t ∈ w.threads) {op : Op α} (hop : op ∈ t.ops)
    (staked : op.stakes l ≠ 0) : 0 < w.dues p := by
  have known := h.known.ops t ht op hop
  have hdue := dues_of_mem (p := p) ht hop
  cases op with
  | latch k call waiter =>
      cases call with
      | count failed =>
          obtain rfl : k = l := by
            by_contra hk
            exact staked (if_neg hk)
          obtain ⟨above, rest, hops, charge⟩ := (h.charged t ht).of_mem hop
          exact h.charge_due honoured hl ht hops charge
      | _ => exact absurd rfl staked
  | submit sub phase => exact absurd (h.stakes_of_submit honoured hl ht hop) staked
  | work q i phase =>
      obtain ⟨item, hitem, htold⟩ := List.countP_pos_iff.mp
        (Nat.lt_of_lt_of_le (Nat.pos_of_ne_zero staked) (Op.stakes_work_le l q i phase))
      obtain rfl := h.pool_of_told honoured.1 hl (known.2 item hitem)
          (by simpa [Item.tells] using htold)
      rw [Op.dues_work, if_pos rfl] at hdue
      exact Nat.lt_of_lt_of_le (List.length_pos_of_mem hitem) hdue
  | shutDown q phase =>
      rw [Op.stakes_shutDown] at staked
      obtain ⟨item, hitem, htold⟩ := List.countP_pos_iff.mp (Nat.pos_of_ne_zero staked)
      obtain rfl := h.pool_of_told honoured.1 hl (known.2 item hitem)
          (by simpa [Item.tells] using htold)
      rw [Op.dues_shutDown] at hdue
      exact Nat.lt_of_lt_of_le (List.length_pos_of_mem hitem) hdue
  | _ => exact absurd rfl staked

theorem Reachable.runs_due (h : w.Reachable) (honoured : ticket.Honoured w.history p)
    (hl : ticket.latch = some l) (ht : t ∈ w.threads) {op : Op α} (hop : op ∈ t.ops)
    (running : op.runs l ≠ 0) : 0 < w.dues p := by
  cases op with
  | latch k call waiter =>
      cases call with
      | running job succeeded =>
          obtain rfl : k = l := by
            by_contra hk
            exact running (if_neg hk)
          obtain ⟨above, rest, hops, charge⟩ := (h.charged t ht).of_mem hop
          exact h.charge_due honoured hl ht hops charge
      | _ => exact absurd rfl running
  | _ => exact absurd rfl running

/-- The latch of what was accepted is at zero when nothing is left in the ring and nobody has an
item, and then nobody performs its continuation. -/
theorem Reachable.through_of_idle (h : w.Reachable) (honoured : ticket.Honoured w.history p)
    (hl : ticket.latch = some l) (empty : w.store.ring p = []) (clear : w.dues p = 0) :
    ∃ latch, w.store.latches[l]? = some latch ∧ latch.value.remaining = 0 ∧
      latch.value.finishing = false ∧ w.runs l = 0 := by
  have there := h.known.store.latches p ticket l honoured.1 hl
  have found : w.store.latches[l]? = some w.store.latches[l] := List.getElem?_eq_getElem there
  have hring : w.store.ringStakes l = 0 := by
    refine sum_map_eq_zero fun pool hpool => List.countP_eq_zero.mpr fun item hitem htold => ?_
    obtain ⟨q, hq⟩ := List.mem_iff_getElem?.mp hpool
    have hitem : item ∈ w.store.ring q := by rwa [Store.ring_eq hq]
    obtain rfl := h.pool_of_told honoured.1 hl (h.known.store.ring q item hitem)
      (by simpa [Item.tells] using htold)
    simp [empty] at hitem
  have hstakes : w.stakes l = 0 := by
    rw [World.stakes, hring, Nat.add_zero]
    refine load_eq_zero _ fun t ht op hop => ?_
    by_contra staked
    have := h.stakes_due honoured hl ht hop staked
    omega
  have hruns : w.runs l = 0 := by
    refine load_eq_zero _ fun t ht op hop => ?_
    by_contra running
    have := h.runs_due honoured hl ht hop running
    omega
  have htallied := (h.tallied.tallied p ticket l _ honoured.1 hl found).remaining
  have hcomposed := (h.tallied.composed l _ found).runs
  refine ⟨_, found, by omega, ?_, hruns⟩
  rw [hruns] at hcomposed
  by_contra hfinishing
  rw [if_pos (by simpa using hfinishing)] at hcomposed
  cases hcomposed

end Tickets

/-- Without an operation that waits for its end no performance is going on. -/
theorem Reachable.parts_of_ends (h : w.Reachable) {o : Origin} (ho : o ≠ .caller)
    (idle : ∀ t ∈ w.threads, ∀ op ∈ t.ops, ¬op.Ends o) : w.parts o = 0 := by
  have hcatcher : ∀ who programs fine, Part.catcher who programs fine ∉ w.parts o := by
    intro who programs fine hmem
    obtain ⟨t, ht, op, hop, hpart⟩ := mem_load.mp hmem
    exact idle t ht op hop (Op.ends_of_catcher hpart)
  obtain ⟨state, stands⟩ := h.stands ho
  rw [stands.left] at hcatcher ⊢
  cases state with
  | between who done later =>
      exact absurd (by simp [Performance.parts]) (hcatcher who (done ++ later) true)
  | inside who done program later =>
      exact absurd (by simp [Performance.parts]) (hcatcher who (done ++ program :: later) true)
  | through who programs => exact absurd (by simp [Performance.parts]) (hcatcher who programs true)
  | broken who done program later =>
      exact absurd (by simp [Performance.parts]) (hcatcher who (done ++ program :: later) false)
  | idle | settled | spoilt => rfl

theorem Reachable.parts_of_runs (h : w.Reachable) {l : Nat} (idle : w.runs l = 0) :
    w.parts (.latch l) = 0 := by
  refine h.parts_of_ends nofun fun t ht op hop ends => ?_
  cases ends with
  | finale =>
      have := eq_zero_of_load idle ht hop
      simp [Op.runs] at this

/-! ### The pool at rest -/

/-- Nothing is left of what the pool at `p` has accepted: no item lies in the ring or is in the
hands of a submission, a worker or a shutdown, no worker is busy, and the latches of all accepted
submissions are at zero with no continuation going on. -/
structure Resting (w : World α) (p : Nat) (pool : Pool) : Prop where
  empty : pool.pending = 0
  idle : ∀ flag ∈ pool.busy, flag = false
  clear : ∀ errand, w.duesFor errand p = 0
  through : ∀ (ticket : Ticket) (l : Nat), ticket.Honoured w.history p → ticket.latch = some l →
    ∃ latch, w.store.latches[l]? = some latch ∧ latch.value.remaining = 0 ∧
      latch.value.finishing = false ∧ w.parts (.latch l) = 0

theorem Reachable.backlog_accounts (h : w.Reachable) {p : Nat} {pool : Pool}
    (found : w.store.pools[p]? = some pool) :
    pool.backlog.value = pool.pending + w.duesFor .worker p + w.duesFor .submission p +
      w.duesFor .shutDown p := by
  have hbacklog := h.backlog_eq p
  rw [Store.backlog_eq found, Store.ring_eq found, h.orderly.dues_eq p] at hbacklog
  rw [Pool.pending, (h.orderly.rings p pool found).size_eq]
  omega

theorem Reachable.resting_of_backlog (h : w.Reachable) {p : Nat} {pool : Pool}
    (found : w.store.pools[p]? = some pool) (zero : pool.backlog.value = 0) : w.Resting p pool := by
  have hbacklog := h.backlog_eq p
  rw [Store.backlog_eq found, zero] at hbacklog
  have hring : w.store.ring p = [] := List.length_eq_zero_iff.mp (by omega)
  have hdues : w.dues p = 0 := by omega
  have haccounts := h.backlog_accounts found
  constructor
  · omega
  · intro flag hflag
    obtain ⟨i, hi⟩ := List.mem_iff_getElem?.mp hflag
    by_contra hbusy
    have hflag : w.store.busy p i = true := by simpa [Store.busy, found, hi] using hbusy
    have hzero : w.load (fun _ => Op.engages p i) = 0 := by
      refine load_eq_zero _ fun t ht op hop => Nat.le_zero.mp ?_
      exact hdues ▸ Nat.le_trans (op.engages_le_dues p i) (dues_of_mem ht hop)
    have := h.engaged hflag
    omega
  · intro errand
    cases errand <;> omega
  · intro ticket l honoured hl
    obtain ⟨latch, hlatch, hzero, hfinishing, hruns⟩ := h.through_of_idle honoured hl hring hdues
    exact ⟨latch, hlatch, hzero, hfinishing, h.parts_of_runs hruns⟩

/-- A wait for idleness that is over in a turn was passed in that turn. -/
theorem Took.idled (took : w.Took v index t old tail e) (orderly : w.Orderly) {p i : Nat}
    {u u' : Thread α} (was : w.threads[i]? = some u) (waiting : u.AwaitsIdle p)
    (after : v.threads[i]? = some u') (gone : ¬u'.AwaitsIdle p) :
    ∃ pool, w.store.pools[p]? = some pool ∧
      (pool.backlog.value = 0 ∨ pool.backlog.terminated = true) := by
  obtain ⟨stage, waiting⟩ := waiting
  have gone : ∀ stage, .backlog p (.awaitIdle stage) ∉ u'.ops := fun stage hop => gone ⟨stage, hop⟩
  obtain ⟨rest, hfront⟩ := (orderly.ordered u (List.mem_of_getElem? was)).front waiting trivial
  rcases took.thread_at was after with ⟨-, rfl | rfl⟩ | ⟨rfl, rfl, answer, -, hself⟩
  · exact absurd waiting (gone stage)
  · refine absurd ?_ (gone stage.wake)
    simp [Thread.wake, hfront, Op.wake, Backlog.Call.wake]
  · have hops := took.ops
    rw [hfront] at hops
    cases took.act with
    | deed deed quiet =>
        obtain ⟨rfl, rfl⟩ := List.cons.inj hops
        cases deed with
        | idleSlept place pool stage found awake held =>
            rcases hself with rfl | rfl
            · exact absurd (by simp) (gone .asleep)
            · refine absurd ?_ (gone .woken)
              simp [Thread.wake, Op.wake, Backlog.Call.wake, Stage.wake]
        | idled place pool stage found awake through => exact ⟨pool, found, through⟩
        | jobAdded submits | freeJobAdded submits => cases submits
    | @broke payload above old new notes loose lands uncaught =>
        cases above with
        | nil =>
            cases lands with
            | nowhere =>
                rw [List.nil_append, List.nil_append] at hops
                subst hops
                rcases hself with rfl | rfl
                · exact absurd List.mem_cons_self (gone stage)
                · exact absurd (by simp [Thread.wake, Op.wake, Backlog.Call.wake]) (gone stage.wake)
            | _ => cases hops
        | cons op above =>
            obtain ⟨rfl, -⟩ := List.cons.inj hops
            exact (loose _ List.mem_cons_self).elim

/-- The backlog of a pool is exact, and a wait for idleness ends only when the pool is at rest. The
backlog counts the items in the ring, those that workers have taken and not counted out yet, those
that submissions have enlisted and neither pushed nor counted out, and those that shutdowns have
drained and not settled yet; so no departure takes it below zero. In the turn that ends a wait all
four are zero, no worker is busy, and all that has been accepted is through. -/
theorem Reachable.backlog_exact (h : w.Reachable) {p : Nat} {pool : Pool}
    (found : w.store.pools[p]? = some pool) :
    pool.backlog.value = pool.pending + w.duesFor .worker p + w.duesFor .submission p +
      w.duesFor .shutDown p ∧
    (∀ t ∈ w.threads, .backlog p .leave ∈ t.ops → 0 < pool.backlog.value) ∧
    ∀ (v : World α) (index pick i : Nat) (t t' : Thread α), w.turn index pick = some v →
      w.threads[i]? = some t → v.threads[i]? = some t' → t.AwaitsIdle p → ¬t'.AwaitsIdle p →
        w.Resting p pool := by
  refine ⟨h.backlog_accounts found, fun t ht hop => ?_, ?_⟩
  · rw [← Store.backlog_eq found]
    exact h.backlog_pos ht hop
  · intro v index pick i t t' took was after waiting gone
    obtain ⟨u, old, tail, e, took⟩ := took_of_turn h.orderly took
    obtain ⟨pool', found', hpassed⟩ := took.idled h.orderly was waiting after gone
    obtain rfl := Option.some.inj (found.symm.trans found')
    rw [h.backlog_up found] at hpassed
    exact h.resting_of_backlog found (hpassed.resolve_right Bool.false_ne_true)

/-- A pool has performed an item, and a caller is about to find it idle. -/
def foundIdle : World Unit :=
  ((follow 40 [
    .newPool "p" (.given { capacity := 1, threads := some 1, name := "p" }),
    .onPool "p" (.submit (.link [] true) (some "t") .holding)] (.start [])).issue
      (.onPool "p" .awaitIdle)).settle 1 3

theorem backlog_exact_of_foundIdle :
    ∃ pool, foundIdle.store.pools[0]? = some pool ∧
      (pool.backlog.value = pool.pending + foundIdle.duesFor .worker 0 +
        foundIdle.duesFor .submission 0 + foundIdle.duesFor .shutDown 0) ∧
      foundIdle.Resting 0 pool := by
  have reachable : foundIdle.Reachable :=
    reachable_settle (.next (reachable_follow 40 _ (.start [])) (.issue _ _)) 1 3
  obtain ⟨pool, found⟩ : ∃ pool, foundIdle.store.pools[0]? = some pool := ⟨_, rfl⟩
  have waits : foundIdle.threads[3]?.map (·.ops) =
      some [.backlog 0 (.awaitIdle .arriving), .answer (.ok .nothing), .release 0] := rfl
  have goes : (foundIdle.turn 3 0).bind (fun v => v.threads[3]?.map (·.ops)) =
      some [.answer (.ok .nothing), .release 0] := rfl
  obtain ⟨t, was, hops⟩ := Option.map_eq_some_iff.mp waits
  obtain ⟨v, took, goes⟩ := Option.bind_eq_some_iff.mp goes
  obtain ⟨t', after, hops'⟩ := Option.map_eq_some_iff.mp goes
  have exact := Reachable.backlog_exact reachable found
  refine ⟨pool, found, exact.1, exact.2.2 v 3 0 3 t t' took was after ?_ ?_⟩
  · exact ⟨.arriving, by simp [hops]⟩
  · rintro ⟨stage, hop⟩
    simp [hops'] at hop

end World

end WorkerPool
