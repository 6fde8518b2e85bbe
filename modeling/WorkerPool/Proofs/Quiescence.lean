import WorkerPool.Proofs.Idle
import WorkerPool.Proofs.Staff

/-! Nobody is stuck because of the pools. Where no thread can take a turn, every sleeper has its
reason, and each reason leads to a worker that is inside a function. An item in a ring lets the
workers of the pool not sleep. An item in somebody's hands is with a worker that performs it, or
with a submission that finds the ring full. A completion that a latch expects stands for such an
item. And whoever waits for a worker to end has shut its pool down, so that the worker does not
sleep. -/

namespace WorkerPool

variable {α : Type}

/-- Who counts for what came to a good end has performed an item. -/
theorem Op.Charge.of_sound {h : List (Who × Entry)} {who : Who} {l : Nat} {failed : Bool}
    {rest : List (Op α)} (charge : Op.Charge h who l failed rest) (sound : failed = false)
    (told : ¬Untold h l) : ∃ p i item, rest = [.work p i (.finish item true)] ∧
      item.latch = some l ∧ item.Known h p := by
  cases charge with
  | free _ _ untold => exact absurd untold told
  | performed p i item succeeded htold known =>
      obtain rfl : succeeded = true := by simpa using sound
      exact ⟨p, i, item, rfl, htold, known⟩
  | dropped | behind => cases sound

namespace World

/-- The operation is a call on the pool at `p` that is held up: a wait for what was submitted, a
wait for the pool to be idle, a submission that has no room or waits for the members of its batch
that have been accepted, or a wait for the workers to end. -/
inductive Blocked (w : World α) (p : Nat) : Op α → Prop
  | ticket (ticket : Ticket) (l : Nat) (honoured : ticket.Honoured w.history p)
      (awaited : ticket.awaited = .ok l) :
          Blocked w p (.latch l (.wait .asleep) (.ticket ticket.id))
  | idle : Blocked w p (.backlog p (.awaitIdle .asleep))
  | sending (sub : Submission) (item : Item) (mine : sub.pool = p) :
      Blocked w p (.submit sub (.send (.send item .asleep)))
  | refused (sub : Submission) (l : Nat) (mine : sub.pool = p) :
      Blocked w p (.latch l (.wait .asleep) (.refused sub))
  | joining (i : Nat) : Blocked w p (.join p i true)

variable {w : World α} {t : Thread α} {p : Nat}

/-- An item that lies in a ring keeps the workers from sleeping. -/
theorem Quiescent.inside_of_ring (quiet : w.Quiescent) (h : w.Reachable)
    (items : w.store.ring p ≠ []) : 0 < w.insiders p := by
  have up : ¬w.store.IsDown p := fun down => items (quiet.ring_of_down h down)
  obtain ⟨pool, found⟩ : ∃ pool, w.store.pools[p]? = some pool := by
    cases found : w.store.pools[p]? with
    | some pool => exact ⟨pool, rfl⟩
    | none => exact absurd (by simp [Store.ring, found]) items
  obtain ⟨t, ht, who⟩ := quiet.worker h found (h.staffed p pool found).1
  rcases quiet.worker_cases h ht who with ⟨-, down⟩ | ⟨-, -, empty⟩ | inside
  · exact absurd down up
  · exact absurd empty items
  · exact insiders_pos ht who inside

/-- A submission sleeps only before a ring that is full. -/
theorem Quiescent.inside_of_send (quiet : w.Quiescent) (h : w.Reachable) (ht : t ∈ w.threads)
    {sub : Submission} {item : Item} (hop : .submit sub (.send (.send item .asleep)) ∈ t.ops) :
    0 < w.insiders sub.pool := by
  obtain ⟨rest, ops⟩ := (h.orderly.ordered t ht).asleep hop rfl
  obtain ⟨pool, found, -, full⟩ := quiet.held h ht ops rfl
  have valid := h.orderly.rings sub.pool pool found
  have hlength := valid.full_iff.mp full
  have hcapacity := valid.capacity_pos
  refine quiet.inside_of_ring h fun empty => ?_
  rw [Store.ring_eq found] at empty
  rw [empty, List.length_nil] at hlength
  omega

/-- An item that is to be settled is with a worker that is inside, or the ring is full. -/
theorem Quiescent.inside_of_due (quiet : w.Quiescent) (h : w.Reachable) (ht : t ∈ w.threads)
    {op : Op α} (hop : op ∈ t.ops) (due : op.dues p ≠ 0) : 0 < w.insiders p := by
  have calm := quiet.not_urgent h ht hop
  cases op with
  | submit sub phase =>
      cases phase with
      | send call =>
          cases call with
          | send item stage =>
              obtain rfl : sub.pool = p := by
                by_contra apart
                exact due (if_neg apart)
              cases stage with
              | asleep => exact quiet.inside_of_send h ht hop
              | arriving | woken => exact absurd rfl calm
          | offer => exact absurd rfl calm
          | _ => exact absurd rfl due
      | _ => exact absurd trivial calm
  | work q i phase =>
      obtain ⟨above, rest, -, before⟩ := (h.orderly.ordered t ht).before hop
      obtain rfl : q = p := by
        by_contra apart
        exact due ((Op.dues_work p q i phase).trans (if_neg apart))
      rcases quiet.worker_cases h ht before.self with ⟨ops, -⟩ | ⟨ops, -⟩ | inside
      · rw [ops] at hop
        cases hop
      · rw [ops, List.mem_singleton] at hop
        cases hop
        exact absurd rfl due
      · exact insiders_pos ht before.self inside
  | shutDown q phase => exact absurd trivial calm
  | backlog q call =>
      cases call with
      | leave => exact absurd rfl calm
      | _ => exact absurd rfl due
  | _ => exact absurd rfl due

theorem Quiescent.inside_of_backlog (quiet : w.Quiescent) (h : w.Reachable)
    (held : 0 < w.store.backlog p) : 0 < w.insiders p := by
  rw [h.backlog_eq p] at held
  by_cases empty : w.store.ring p = []
  · rw [empty, List.length_nil, Nat.zero_add] at held
    by_contra none
    refine absurd (load_eq_zero (fun _ => Op.dues p) fun t ht op hop => ?_)
        (Nat.pos_iff_ne_zero.mp held)
    by_contra due
    exact none (quiet.inside_of_due h ht hop due)
  · exact quiet.inside_of_ring h empty

section Latches

variable {l : Nat} {ticket : Ticket} {latch : Latch}

/-- Whoever is to count for what was submitted has an item of the pool in its hands. -/
theorem Quiescent.inside_of_stake (quiet : w.Quiescent) (h : w.Reachable)
    (recorded : Recorded w.history (.ticketed p ticket)) (hl : ticket.latch = some l)
    (ht : t ∈ w.threads) {op : Op α} (hop : op ∈ t.ops) (staked : op.stakes l ≠ 0) :
    0 < w.insiders p := by
  have calm := quiet.not_urgent h ht hop
  have known := h.known.ops t ht op hop
  cases op with
  | latch k call waiter =>
      cases call with
      | count failed => exact absurd rfl calm
      | _ => exact absurd rfl staked
  | submit sub phase =>
      cases phase with
      | send call =>
          have hlatch : sub.ticket.latch = some l := by
            by_contra hlatch
            exact staked (if_neg hlatch)
          obtain ⟨rfl, -⟩ := h.ticket_eq known.1 recorded hlatch hl
          obtain ⟨above, rest, -, before⟩ := (h.orderly.ordered t ht).before hop
          have sends : call.Sends := before.proper
          cases call with
          | send item stage =>
              cases stage with
              | asleep => exact quiet.inside_of_send h ht hop
              | arriving | woken => exact absurd rfl calm
          | offer | announce => exact absurd rfl calm
          | receive | drain | terminate => exact sends.elim
      | _ => exact absurd trivial calm
  | work q i phase =>
      obtain ⟨item, hitem, htold⟩ := List.countP_pos_iff.mp
        (Nat.lt_of_lt_of_le (Nat.pos_of_ne_zero staked) (Op.stakes_work_le l q i phase))
      obtain rfl := h.pool_of_told recorded hl (known.2 item hitem)
          (by simpa [Item.tells] using htold)
      refine quiet.inside_of_due h ht hop ?_
      rw [Op.dues_work, if_pos rfl]
      exact Nat.ne_of_gt (List.length_pos_of_mem hitem)
  | shutDown q phase => exact absurd trivial calm
  | _ => exact absurd rfl staked

/-- A continuation is performed by a worker that has an item of the pool in its hands. -/
theorem Quiescent.inside_of_run (quiet : w.Quiescent) (h : w.Reachable)
    (recorded : Recorded w.history (.ticketed p ticket)) (hl : ticket.latch = some l)
    (ht : t ∈ w.threads) {op : Op α} (hop : op ∈ t.ops) (running : op.runs l ≠ 0) :
    0 < w.insiders p := by
  cases op with
  | latch k call waiter =>
      cases call with
      | running job succeeded =>
          obtain rfl : k = l := by
            by_contra hk
            exact running (if_neg hk)
          obtain ⟨above, rest, hops, charge⟩ := (h.charged t ht).of_mem hop
          obtain ⟨q, i, item, rfl, told, known⟩ := charge.of_sound rfl fun untold =>
            untold p ticket recorded hl
          obtain rfl := h.pool_of_told recorded hl known told
          have hfinish : .work q i (.finish item true) ∈ t.ops := by simp [hops]
          exact quiet.inside_of_due h ht hfinish (by simp [Op.dues])
      | _ => exact absurd rfl running
  | _ => exact absurd rfl running

/-- A latch that expects a completion of what was submitted waits for a worker. -/
theorem Quiescent.inside_of_latch (quiet : w.Quiescent) (h : w.Reachable)
    (recorded : Recorded w.history (.ticketed p ticket)) (hl : ticket.latch = some l)
    (found : w.store.latches[l]? = some latch) (held : 0 < latch.value.remaining) :
    0 < w.insiders p := by
  by_contra none
  have hring : w.store.ringStakes l = 0 := by
    refine sum_map_eq_zero fun pool hpool => List.countP_eq_zero.mpr fun item hitem htold => ?_
    obtain ⟨q, hq⟩ := List.mem_iff_getElem?.mp hpool
    have hitem : item ∈ w.store.ring q := by rwa [Store.ring_eq hq]
    obtain rfl := h.pool_of_told recorded hl (h.known.store.ring q item hitem)
      (by simpa [Item.tells] using htold)
    exact none (quiet.inside_of_ring h (List.ne_nil_of_mem hitem))
  have hstakes : w.load (fun _ => Op.stakes l) = 0 := by
    refine load_eq_zero _ fun t ht op hop => ?_
    by_contra staked
    exact none (quiet.inside_of_stake h recorded hl ht hop staked)
  have hruns : w.runs l = 0 := by
    refine load_eq_zero _ fun t ht op hop => ?_
    by_contra running
    exact none (quiet.inside_of_run h recorded hl ht hop running)
  have htallied := (h.tallied.tallied p ticket l latch recorded hl found).remaining
  rw [World.stakes, hring, hstakes, hruns] at htallied
  omega

end Latches

/-- A worker that is waited for to end is inside. -/
theorem Quiescent.inside_of_join (quiet : w.Quiescent) (h : w.Reachable) (ht : t ∈ w.threads)
    {i : Nat} {rest : List (Op α)} (ops : t.ops = .join p i true :: rest) : 0 < w.insiders p := by
  obtain ⟨pool, found, down⟩ := h.closed.joins t ht p i true rest ops
  obtain ⟨index, got⟩ := List.mem_iff_getElem?.mp ht
  have stays := quiet.effect_eq_none got ops
  rw [Op.effect, found, Option.bind_some, Op.joinEffect] at stays
  split at stays
  · cases stays
  rename_i within
  simp only [if_true] at stays
  split at stays
  · cases stays
  rename_i going
  obtain ⟨u, hu, who⟩ := quiet.worker h found (Nat.lt_of_not_le within)
  rcases quiet.worker_cases h hu who with ⟨ended, -⟩ | ⟨-, up, -⟩ | inside
  · refine absurd (List.any_eq_true.mpr ⟨u, hu, ?_⟩) going
    simp [who, Thread.ended, ended]
  · exact absurd ⟨pool, found, down⟩ up
  · exact insiders_pos hu who inside

/-- Nobody is stuck because of a pool. Where no thread can take a turn, a call on a pool is held up
only while a worker of that pool is inside a function that it performs for the pool, whether the
pool is down or not; and whoever sleeps in a wait for a ticket waits for one pool. -/
theorem Reachable.nobody_stuck (h : w.Reachable) (quiet : w.Quiescent) (ht : t ∈ w.threads)
    {op : Op α} {rest : List (Op α)} (ops : t.ops = op :: rest) :
    (∀ p, w.Blocked p op → 0 < w.insiders p) ∧
      ∀ l id, op = .latch l (.wait .asleep) (.ticket id) → ∃ p, w.Blocked p op := by
  have hop : op ∈ t.ops := ops ▸ List.mem_cons_self
  refine ⟨fun p blocked => ?_, ?_⟩
  · cases blocked with
    | ticket ticket l honoured awaited =>
        obtain ⟨latch, found, -, held⟩ := quiet.held h ht ops rfl
        exact quiet.inside_of_latch h honoured.1 (Ticket.latch_of_awaited awaited) found held
    | idle => exact quiet.inside_of_backlog h (quiet.held h ht ops rfl)
    | sending sub item mine => exact mine ▸ quiet.inside_of_send h ht hop
    | refused sub l mine =>
        obtain ⟨latch, found, -, held⟩ := quiet.held h ht ops rfl
        obtain ⟨above, rest', -, before⟩ := (h.orderly.ordered t ht).before hop
        have known := (h.known.ops t ht _ hop).2
        have told : sub.ticket.latch = some l := by
          cases before with
          | waitRefused _ _ _ told => exact told
        subst mine
        exact quiet.inside_of_latch h known told found held
    | joining i => exact quiet.inside_of_join h ht ops
  · rintro l id rfl
    obtain ⟨p, ticket, honoured, awaited, rfl⟩ := h.assured.ops t ht _ hop
    exact ⟨p, .ticket ticket l honoured awaited⟩

/-- A worker is inside a function that stands before a gate; one step waits for its item, and
another one for the pool to be idle. -/
def heldUp : World Unit :=
  follow 40 [
    .newPool "p" (.given { capacity := 1, threads := some 1, name := "p" }),
    .onPool "p" (.submit (.link [.passGate "g"] true) (some "t") .holding),
    .onTicket "t" (.wait none),
    .onPool "p" .awaitIdle] (.start [])

theorem nobody_stuck_of_heldUp :
    heldUp.Quiescent ∧
      (∃ t p, t ∈ heldUp.threads ∧ t.ops = [.latch 1 (.wait .asleep) (.ticket 1)] ∧
        heldUp.Blocked p (.latch 1 (.wait .asleep) (.ticket 1)) ∧ 0 < heldUp.insiders p) ∧
      ∃ t rest, t ∈ heldUp.threads ∧ t.ops = .backlog 0 (.awaitIdle .asleep) :: rest ∧
        0 < heldUp.insiders 0 := by
  have reachable : heldUp.Reachable := reachable_follow 40 _ (.start [])
  have quiet : heldUp.Quiescent := by decide
  have waits : heldUp.threads[3]?.map (·.ops) =
      some [.latch 1 (.wait .asleep) (.ticket 1)] := rfl
  have idles : heldUp.threads[4]?.map (·.ops) =
      some [.backlog 0 (.awaitIdle .asleep), .answer (.ok .nothing), .release 0] := rfl
  obtain ⟨t, waiting, hops⟩ := Option.map_eq_some_iff.mp waits
  obtain ⟨u, idling, hops'⟩ := Option.map_eq_some_iff.mp idles
  have ht := List.mem_of_getElem? waiting
  have hu := List.mem_of_getElem? idling
  obtain ⟨inside, told⟩ := reachable.nobody_stuck quiet ht hops
  obtain ⟨p, blocked⟩ := told 1 1 rfl
  exact ⟨quiet, ⟨t, p, ht, hops, blocked, inside p blocked⟩, u, _, hu, hops',
    (reachable.nobody_stuck quiet hu hops').1 0 .idle⟩

end World

end WorkerPool
