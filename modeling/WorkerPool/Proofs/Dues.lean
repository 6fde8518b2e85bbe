import WorkerPool.Proofs.Course

/-! What the backlog of a pool counts. An item is counted from the turn that enlists it to the turn
that counts it out, and all that time it is in the ring or somebody has to settle it: the thread
that is still sending it, the worker that has taken it, or the shutdown that has drained it. So the
backlog is the size of the ring and what these have to settle, and no departure finds it empty. -/

namespace WorkerPool

variable {α : Type}

/-- On whose account an item is settled that is not in the ring. -/
inductive Errand
  | submission
  | worker
  | shutDown
  deriving DecidableEq

namespace Op

/-- How many items of the pool at `p` an operation has to settle. -/
def dues (p : Nat) : Op α → Nat
  | .submit sub (.send (.offer _)) | .submit sub (.send (.send _ _)) | .submit sub (.refuse _) =>
    if sub.pool = p then 1 else 0
  | .work q _ (.receive (.announce (.received (some _)))) | .work q _ (.begin _)
  | .work q _ (.running _ _) | .work q _ (.finish _ _) => if q = p then 1 else 0
  | .shutDown q (.call (.announce (.drained items))) => if q = p then items.length else 0
  | .backlog q .leave => if q = p then 1 else 0
  | _ => 0

/-- On whose account a departure is made, read off what stands behind it. -/
def errand : List (Op α) → Option Errand
  | .submit .. :: _ | .latch _ (.wait _) (.refused _) :: _ => some .submission
  | .work .. :: _ => some .worker
  | .shutDown .. :: _ => some .shutDown
  | .backlog _ .leave :: rest | .latch _ (.count _) _ :: rest => errand rest
  | _ => none

/-- How many items of the pool at `p` an operation has to settle on some account, where `rest`
stands behind it. -/
def duesFor (errand : Errand) (p : Nat) (op : Op α) (rest : List (Op α)) : Nat :=
  match op with
  | .submit .. => if errand = .submission then op.dues p else 0
  | .work .. => if errand = .worker then op.dues p else 0
  | .shutDown .. => if errand = .shutDown then op.dues p else 0
  | .backlog .. => if Op.errand rest = some errand then op.dues p else 0
  | _ => 0

def stackDues (errand : Errand) (p : Nat) : List (Op α) → Nat
  | [] => 0
  | op :: rest => op.duesFor errand p rest + stackDues errand p rest

theorem dues_wake (p : Nat) (op : Op α) : op.wake.dues p = op.dues p := by
  cases op with
  | submit sub phase =>
      cases phase with
      | send call => cases call <;> rfl
      | _ => rfl
  | work q i phase =>
      cases phase with
      | receive call => cases call <;> rfl
      | _ => rfl
  | backlog q call => cases call <;> rfl
  | _ => rfl

theorem Plain.dues {op : Op α} (h : op.Plain) (p : Nat) : op.dues p = 0 := by
  unfold Op.dues
  split
  all_goals first | exact h.elim | rfl

theorem Free.dues {s : Store α} {op : Op α} (h : op.Free s) (p : Nat) : op.dues p = 0 := by
  rcases h with h | ⟨l, failed, rfl, -⟩
  · exact h.dues p
  · rfl

theorem sum_complete_dues (latch : Option Nat) (failed : Bool) (p : Nat) :
    ((complete latch failed : List (Op α)).map (dues p)).sum = 0 := by
  cases latch <;> rfl

theorem sum_discard_dues (q : Nat) (item : Item) (p : Nat) :
    ((discard q item : List (Op α)).map (dues p)).sum = if q = p then 1 else 0 := by
  rw [discard, List.map_append, List.sum_append, sum_complete_dues, Nat.zero_add]
  rfl

theorem sum_flatMap_discard_dues (q : Nat) (items : List Item) (p : Nat) :
    ((items.flatMap (discard q) : List (Op α)).map (dues p)).sum =
      if q = p then items.length else 0 := by
  induction items with
  | nil => simp
  | cons item items ih =>
      rw [List.flatMap_cons, List.map_append, List.sum_append, ih, sum_discard_dues,
        List.length_cons]
      split
      · exact Nat.add_comm 1 _
      · rfl

end Op

theorem Submission.sum_afterRefusal_dues (sub : Submission) (p : Nat) :
    ((sub.afterRefusal : List (Op α)).map (Op.dues p)).sum = 0 := by
  refine sum_map_eq_zero fun op hop => ?_
  unfold afterRefusal at hop
  split at hop
  · rcases List.mem_append.mp hop with hop | hop
    · obtain ⟨job, -, rfl⟩ := List.mem_map.mp hop
      rfl
    · obtain rfl := List.mem_singleton.mp hop
      rfl
  · obtain rfl := List.mem_singleton.mp hop
    rfl

theorem Op.Submits.dues {op : Op α} {made : List (Op α)} {asker : Asker}
    (submits : op.Submits made asker) (p : Nat) :
    op.dues p = 0 ∧ (made.map (Op.dues p)).sum = 0 := by
  cases submits <;> exact ⟨rfl, rfl⟩

namespace Store

/-- The backlog of the pool at `p`. -/
def backlog (s : Store α) (p : Nat) : Nat :=
  (s.pools[p]?.map fun pool => pool.backlog.value).getD 0

theorem backlog_eq {s : Store α} {p : Nat} {pool : Pool} (found : s.pools[p]? = some pool) :
    s.backlog p = pool.backlog.value := by
  rw [backlog, found]
  rfl

theorem backlog_of_pools {s s' : Store α} (h : s'.pools = s.pools) (p : Nat) :
    s'.backlog p = s.backlog p := by
  rw [backlog, h, backlog]

theorem backlog_setPool {s : Store α} {place : Nat} {pool : Pool}
    (found : s.pools[place]? = some pool) (pool' : Pool) (p : Nat) :
    (s.setPool place pool').backlog p = if p = place then pool'.backlog.value else s.backlog p := by
  rw [backlog, getElem?_setPool found]
  split
  · rfl
  · rfl

theorem backlog_append {s s' : Store α} {pool : Pool} (fresh : pool.backlog.value = 0)
    (h : s'.pools = s.pools ++ [pool]) (p : Nat) : s'.backlog p = s.backlog p := by
  rw [backlog, backlog, h]
  rcases Nat.lt_trichotomy p s.pools.length with hlt | rfl | hgt
  · rw [List.getElem?_append_left hlt]
  · simp [fresh]
  · rw [List.getElem?_eq_none (by simpa using Nat.succ_le_of_lt hgt),
      List.getElem?_eq_none (Nat.le_of_lt hgt)]

/-- A turn on a pool that leaves its ring and its backlog alone. -/
theorem same_of_set {s s' : Store α} {place : Nat} {pool pool' : Pool}
    (found : s.pools[place]? = some pool) (h : s'.pools = s.pools.set place pool')
    (intake : pool'.intake.value = pool.intake.value) (value : pool'.backlog = pool.backlog)
    (p : Nat) : s'.backlog p = s.backlog p ∧ s'.ring p = s.ring p := by
  have hpools : s'.pools = (s.setPool place pool').pools := h
  rw [backlog_of_pools hpools, ring_of_pools hpools, backlog_setPool found,
    ring_setPool_same found intake]
  split
  · rename_i hp
    rw [hp, backlog_eq found, value]
    exact ⟨rfl, rfl⟩
  · exact ⟨rfl, rfl⟩

end Store

section Deeds

variable {around : Around} {s : Store α} {who : Who} {old : List (Op α)} {e : Effect α}

/-- A turn enlists an item, counts one out, or hands items on. -/
theorem Deed.dues {op : Op α} (deed : Deed around s who op e) (rings : s.RingsValid) (p : Nat)
    (enough : op.dues p ≤ s.backlog p) :
    e.store.backlog p + (s.ring p).length + op.dues p =
      s.backlog p + (e.store.ring p).length + (e.ops.map (Op.dues p)).sum := by
  have hsame : e.store.backlog p = s.backlog p ∧ e.store.ring p = s.ring p →
      (e.ops.map (Op.dues p)).sum = op.dues p →
        e.store.backlog p + (s.ring p).length + op.dues p =
          s.backlog p + (e.store.ring p).length + (e.ops.map (Op.dues p)).sum := by
    rintro ⟨hbacklog, hring⟩ hops
    rw [hbacklog, hring, hops]
  have hpools : e.store.pools = s.pools → (e.ops.map (Op.dues p)).sum = op.dues p →
      e.store.backlog p + (s.ring p).length + op.dues p =
        s.backlog p + (e.store.ring p).length + (e.ops.map (Op.dues p)).sum :=
    fun h => hsame ⟨Store.backlog_of_pools h p, Store.ring_of_pools h p⟩
  cases deed with
  | commanded command eases leaves plain =>
      exact hpools eases.pools (sum_map_eq_zero fun op hop => (leaves.free op hop).dues p)
  | acted origin position action rest later eases leaves plain =>
      refine hpools eases.pools ?_
      rw [List.map_append, List.sum_append,
        sum_map_eq_zero fun op hop => (leaves.free op hop).dues p]
      rfl
  | poolMade command name settings capacity threads =>
      exact hsame
        ⟨Store.backlog_append rfl rfl p, Store.ring_append (Ring.toList_empty capacity) rfl p⟩
        rfl
  | jobAdded submits place pool job found waitable =>
      obtain ⟨hop, hmade⟩ := submits.dues p
      refine hsame (Store.same_of_set found (by rfl) (by rfl) (by rfl) p) ?_
      rw [List.map_append, List.sum_append, hmade, hop]
      rfl
  | freeJobAdded submits place pool job found free =>
      obtain ⟨hop, hmade⟩ := submits.dues p
      refine hsame (Store.same_of_set found (by rfl) (by rfl) (by rfl) p) ?_
      rw [List.map_append, List.sum_append, hmade, hop]
      rfl
  | batchAdded command place pool batch ticket found
  | freeBatchAdded command place pool batch ticket found
  | emptyBatchAdded command place pool batch job ticket found =>
      exact hsame (Store.same_of_set found (by rfl) (by rfl) (by rfl) p) rfl
  | memberAdded sub pool job rest found =>
      exact hsame (Store.same_of_set found (by rfl) (by rfl) (by rfl) p) rfl
  | monitorTurned place call left | channelTurned place call left =>
      refine hpools rfl ?_
      rcases left with rfl | ⟨call, rfl⟩ <;> rfl
  | counted | continued =>
      refine hpools rfl ?_
      split <;> rfl
  | poolReady place l stage pool q name succeeded found awake verdict present =>
      refine hpools rfl ?_
      cases s.names.pools.find? name <;> rfl
  | left place pool found =>
      have hops : (((if pool.backlog.value - 1 = 0 then [.backlog place .announce] else [] :
          List (Op α))).map (Op.dues p)).sum = 0 := by
        split <;> rfl
      rw [hops, Store.backlog_setPool found, Store.ring_setPool found]
      by_cases hp : p = place
      · subst hp
        rw [Store.backlog_eq found] at enough ⊢
        rw [Store.ring_eq found]
        simp only [Op.dues, if_true] at enough ⊢
        omega
      · simp [hp, Op.dues, Ne.symm hp]
  | accepted sub pool found through hands plain =>
      exact hpools rfl (sum_map_eq_zero fun op hop => (hands.plain op hop).dues p)
  | refused sub pool found refuses plain =>
      exact hpools rfl (sum_map_eq_zero fun op hop => (refuses.plain op hop).dues p)
  | handed ticket name same kept => exact hpools same.1 rfl
  | enlisted sub pool item found =>
      rw [Store.backlog_setPool found, Store.ring_setPool found]
      by_cases hp : p = sub.pool
      · subst hp
        rw [Store.backlog_eq found, Store.ring_eq found]
        simp only [Op.dues, if_true, List.map_cons, List.map_nil, List.sum_cons, List.sum_nil]
        omega
      · simp [hp, Op.dues, Ne.symm hp]
  | givenBack sub pool item call found down sends =>
      refine hpools rfl ?_
      rcases sends with rfl | ⟨stage, -, rfl⟩ <;> rfl
  | pushed sub pool item stage found awake up room =>
      have hring := ((rings sub.pool pool found).push room item).2
      rw [Store.backlog_setPool found, Store.ring_setPool found]
      by_cases hp : p = sub.pool
      · subst hp
        rw [Store.backlog_eq found, Store.ring_eq found]
        simp only [Op.dues, if_true, hring, List.length_append, List.length_singleton, List.map_cons,
          List.map_nil, List.sum_cons, List.sum_nil]
        omega
      · simp [hp, Op.dues, Ne.symm hp]
  | refusing sub pool item found =>
      refine hpools rfl ?_
      rw [List.map_append, List.sum_append, Op.sum_discard_dues, sub.sum_afterRefusal_dues]
      rfl
  | taken place index pool stage item ring found awake up valid first capacity =>
      rw [Store.backlog_setPool found, Store.ring_setPool found]
      by_cases hp : p = place
      · subst hp
        rw [Store.backlog_eq found, Store.ring_eq found, first]
        simp only [Op.dues, if_true, List.length_cons, List.map_cons, List.map_nil, List.sum_cons,
          List.sum_nil]
        omega
      · simp [hp, Op.dues, Ne.symm hp]
  | jobStarted place index pool item found =>
      refine hsame (Store.same_of_set found (by rfl) (by rfl) (by rfl) p) ?_
      simp [Op.dues, Op.perform]
  | jobRan place index pool item found =>
      refine hpools rfl ?_
      rw [List.map_append, List.sum_append, Op.sum_complete_dues]
      simp [Op.dues]
  | jobBroke place index pool item payload found =>
      refine hpools rfl ?_
      rw [List.map_append, List.sum_append, Op.sum_complete_dues]
      simp [Op.dues]
  | jobFinished place index pool item succeeded found =>
      exact hsame (Store.same_of_set found (by rfl) (by rfl) (by rfl) p) rfl
  | poolTerminated place pool found =>
      exact hsame (Store.same_of_set found (by rfl) (by rfl) (by rfl) p) rfl
  | drained place pool ring found valid empty capacity =>
      rw [Store.backlog_setPool found, Store.ring_setPool found]
      by_cases hp : p = place
      · subst hp
        rw [Store.backlog_eq found, Store.ring_eq found]
        simp [Op.dues, empty]
      · simp [hp, Op.dues, Ne.symm hp]
  | abandoned place pool items found =>
      refine hpools rfl ?_
      rw [List.map_append, List.sum_append, Op.sum_flatMap_discard_dues]
      rfl
  | _ => exact hpools rfl rfl

theorem Op.Lands.dues {payload : Payload} {old new : List (Op α)} {notes : List Entry}
    (lands : Op.Lands payload old new notes) (p : Nat) :
    (new.map (Op.dues p)).sum = (old.map (Op.dues p)).sum := by
  cases lands <;> simp [Op.dues]

theorem Act.dues (act : Act around s who old e) (rings : s.RingsValid) (p : Nat)
    (enough : (old.map (Op.dues p)).sum ≤ s.backlog p) :
    e.store.backlog p + (s.ring p).length + (old.map (Op.dues p)).sum =
      s.backlog p + (e.store.ring p).length + (e.ops.map (Op.dues p)).sum := by
  cases act with
  | deed deed quiet =>
      rw [List.map_singleton, List.sum_singleton] at enough ⊢
      exact deed.dues rings p enough
  | broke payload loose lands uncaught =>
      have habove := sum_map_eq_zero fun op hop => (loose op hop).plain.dues p
      rw [lands.dues p, List.map_append, List.sum_append, habove, Nat.zero_add]

end Deeds

namespace World

/-- How many items of the pool at `p` there are to settle outside the ring. -/
def dues (w : World α) (p : Nat) : Nat :=
  w.load fun _ => Op.dues p

/-- How many of them there are to settle on some account. -/
def duesFor (w : World α) (errand : Errand) (p : Nat) : Nat :=
  w.total fun _ ops => Op.stackDues errand p ops

/-- The backlog counts the items in the ring and those that somebody has to settle. -/
theorem Reachable.backlog_eq {w : World α} (h : w.Reachable) (p : Nat) :
    w.store.backlog p = (w.store.ring p).length + w.dues p := by
  refine h.induct (P := fun w => w.store.backlog p = (w.store.ring p).length + w.dues p)
    (fun cells => rfl) (fun w command _ ih => ?_) ?_
  · rw [World.dues, load_issue]
    exact ih
  · intro w v index t old tail e reachable took ih
    obtain ⟨r, hbefore, hafter⟩ := took.load (fun _ => Op.dues p) fun _ op => op.dues_wake p
    have hbirths : (e.births.map fun u => (u.ops.map (Op.dues p)).sum).sum = 0 := by
      refine sum_map_eq_zero fun u hu => ?_
      obtain ⟨q, i, name, rfl, -⟩ := took.birth hu
      rfl
    rw [World.dues, hbefore] at ih
    rw [World.dues, hafter, hbirths, took.store, Nat.add_zero]
    have := took.act.dues reachable.orderly.rings p (by omega)
    omega

/-- Nobody takes a backlog away. -/
theorem Reachable.backlog_up {w : World α} (h : w.Reachable) {p : Nat} {pool : Pool}
    (found : w.store.pools[p]? = some pool) : pool.backlog.terminated = false := by
  revert p pool
  refine h.induct (P := fun w => ∀ {p : Nat} {pool : Pool}, w.store.pools[p]? = some pool →
    pool.backlog.terminated = false)
    (fun cells => by simp [World.start]) (fun w command _ ih => ih) ?_
  intro w v index t old tail e reachable took ih p pool found
  rw [took.store] at found
  rcases took.act.pools.origin found with ⟨pool', found', grows⟩ | ⟨-, fresh⟩
  · rw [grows.endless]
    exact ih found'
  · rw [fresh.backlog]

/-- No departure finds the backlog empty. -/
theorem Reachable.backlog_pos {w : World α} (h : w.Reachable) {t : Thread α} (ht : t ∈ w.threads)
    {p : Nat} (hop : .backlog p .leave ∈ t.ops) : 0 < w.store.backlog p := by
  obtain ⟨r, hload⟩ := load_of_mem (fun _ => Op.dues p) ht hop
  rw [h.backlog_eq p, World.dues, hload, show Op.dues p (.backlog p .leave : Op α) = 1 from if_pos rfl]
  omega

end World

/-! ### The three accounts -/

namespace Op

theorem Clearing.errand {p : Nat} {rest : List (Op α)} (h : Clearing p rest) :
    Op.errand rest = some .submission ∨ Op.errand rest = some .shutDown := by
  induction h with
  | leave behind ih => exact ih
  | count l behind ih => exact ih
  | done rest => exact .inr rfl
  | wait l sub rest mine => exact .inl rfl
  | refused sub rest mine => exact .inl rfl

theorem AfterLeave.errand {p : Nat} {rest : List (Op α)} (h : AfterLeave p rest) :
    ∃ errand, Op.errand rest = some errand := by
  cases h with
  | work i => exact ⟨.worker, rfl⟩
  | clearing behind => exact behind.errand.elim (fun h => ⟨_, h⟩) fun h => ⟨_, h⟩

/-- Whoever has to settle an item has it on one of the three accounts. -/
theorem Before.dues_eq {who : Who} {op : Op α} {rest : List (Op α)} (before : op.Before who rest)
    (p : Nat) : op.dues p = op.duesFor .submission p rest + op.duesFor .worker p rest +
      op.duesFor .shutDown p rest := by
  cases op with
  | backlog q call =>
      cases call with
      | leave =>
          cases before with
          | leave _ after =>
              obtain ⟨errand, herrand⟩ := after.errand
              cases errand <;> simp [duesFor, herrand]
      | _ => simp [duesFor, Op.dues]
  | _ => simp [duesFor, Op.dues]

theorem stackDues_eq {who : Who} {ops : List (Op α)} (stack : Leads who ops []) (p : Nat) :
    (ops.map (dues p)).sum =
      stackDues .submission p ops + stackDues .worker p ops + stackDues .shutDown p ops := by
  induction ops with
  | nil => rfl
  | cons op ops ih =>
      have hop := stack.1.dues_eq p
      rw [List.append_nil] at hop
      rw [List.map_cons, List.sum_cons, ih stack.2, hop]
      simp only [stackDues]
      omega

end Op

namespace World

theorem Orderly.dues_eq {w : World α} (h : w.Orderly) (p : Nat) :
    w.dues p = w.duesFor .submission p + w.duesFor .worker p + w.duesFor .shutDown p := by
  have hthreads : ∀ threads : List (Thread α), (∀ t ∈ threads, Op.Leads t.who t.ops []) →
      (threads.map fun t => (t.ops.map (Op.dues p)).sum).sum =
        (threads.map fun t => Op.stackDues .submission p t.ops).sum +
          (threads.map fun t => Op.stackDues .worker p t.ops).sum +
          (threads.map fun t => Op.stackDues .shutDown p t.ops).sum := by
    intro threads hleads
    induction threads with
    | nil => rfl
    | cons t threads ih =>
        have hstack := Op.stackDues_eq (hleads t List.mem_cons_self) p
        have hrest := ih fun u hu => hleads u (List.mem_cons_of_mem t hu)
        simp only [List.map_cons, List.sum_cons]
        omega
  exact hthreads w.threads h.ordered

end World

end WorkerPool
