import Mathlib.Algebra.Order.BigOperators.Group.List
import Mathlib.Algebra.Order.Ring.Nat
import WorkerPool.Proofs.Staff

/-! Each worker is one thread. Whoever makes a pool starts its workers one after the other and is
not told to start any of them twice; nobody else starts workers. So of each worker there is one
thread, or it is still going to be started, and a flag of the pool is the flag of one thread. A pool
gets its name when its maker has heard of all workers, so in a pool that somebody can find all of
them are there. -/

namespace WorkerPool

variable {α : Type}

namespace Op

/-- Whether the operation belongs to the making of the pool at `p`: it starts the workers, or waits
for their reports. -/
def makes (p : Nat) : Op α → Nat
  | .spawn q _ _ | .latch _ (.wait _) (.ready q _) => if q = p then 1 else 0
  | _ => 0

theorem makes_wake (p : Nat) (op : Op α) : op.wake.makes p = op.makes p := by
  cases op with
  | latch l call waiter => cases call <;> cases waiter <;> rfl
  | submit sub phase => cases phase <;> rfl
  | work q i phase => cases phase <;> rfl
  | _ => rfl

theorem spawns_le_makes (p i : Nat) (op : Op α) : op.spawns p i ≤ op.makes p := by
  cases op with
  | spawn q k name =>
      simp only [spawns, makes]
      split <;> split <;> omega
  | _ => exact Nat.zero_le _

theorem Settles.makes {op : Op α} (settles : op.Settles) (p : Nat) : op.makes p = 0 := by
  cases settles <;> rfl

theorem Lands.makes {payload : Payload} {old new : List (Op α)} {notes : List Entry}
    (lands : Op.Lands payload old new notes) (p : Nat) :
    (new.map (Op.makes p)).sum = 0 ∧ (old.map (Op.makes p)).sum = 0 := by
  cases lands <;> simp [Op.makes]

theorem Lands.spawns_new {payload : Payload} {old new : List (Op α)} {notes : List Entry}
    (lands : Op.Lands payload old new notes) (p i : Nat) : (new.map (Op.spawns p i)).sum = 0 := by
  cases lands <;> simp [Op.spawns]

end Op

section Deeds

variable {around : Around} {s : Store α} {who : Who} {old : List (Op α)} {e : Effect α}

/-- Only the making of a pool leads on to a making, and to one of the same pool. -/
theorem Deed.makes {op : Op α} (deed : Deed around s who op e) (p : Nat) :
    (e.ops.map (Op.makes p)).sum ≤ op.makes p ∨
      (p = s.pools.length ∧ (e.ops.map (Op.makes p)).sum = 1) := by
  have hnone : (e.ops.map (Op.makes p)).sum = 0 → (e.ops.map (Op.makes p)).sum ≤ op.makes p :=
    fun h => h ▸ Nat.zero_le _
  have hsettles : ∀ {ops : List (Op α)}, (∀ op' ∈ ops, op'.Settles) →
      (ops.map (Op.makes p)).sum = 0 :=
    fun h => sum_map_eq_zero fun op' hop' => (h op' hop').makes p
  cases deed with
  | commanded command eases leaves =>
      refine .inl (hnone ?_)
      cases leaves <;> rfl
  | acted origin position action rest later eases leaves =>
      refine .inl (hnone ?_)
      cases leaves <;> rfl
  | poolMade command name settings capacity threads =>
      by_cases hp : s.pools.length = p
      · exact .inr ⟨hp.symm, by simp [Op.makes, hp]⟩
      · exact .inl (by simp [Op.makes, hp])
  | jobAdded submits | freeJobAdded submits => cases submits <;> exact .inl (Nat.zero_le _)
  | accepted sub pool found through hands plain =>
      refine .inl (hnone ?_)
      cases hands <;> rfl
  | refused sub pool found refuses plain =>
      refine .inl (hnone ?_)
      cases refuses <;> rfl
  | refusing sub pool item found =>
      refine .inl (hnone (hsettles fun op' hop' => ?_))
      rcases List.mem_append.mp hop' with hop' | hop'
      · exact Op.discard_settles _ _ op' hop'
      · exact sub.afterRefusal_settles op' hop'
  | abandoned place pool items found =>
      refine .inl (hnone ?_)
      rw [List.map_append, List.sum_append, hsettles (Op.flatMap_discard_settles place items)]
      rfl
  | jobRan place index pool item found | jobBroke place index pool item payload found =>
      refine .inl (hnone ?_)
      rw [List.map_append, List.sum_append, hsettles (Op.complete_settles item.latch _)]
      rfl
  | monitorTurned place call left | channelTurned place call left =>
      rcases left with rfl | ⟨call', rfl⟩ <;> exact .inl (Nat.zero_le _)
  | counted | continued | left =>
      refine .inl (hnone ?_)
      dsimp only
      split <;> rfl
  | poolReady place l stage q pool name succeeded found awake verdict present =>
      refine .inl (hnone ?_)
      cases s.names.pools.find? name <;> rfl
  | waitSlept place l stage waiter found awake up held =>
      cases waiter <;> exact .inl (by simp [Op.makes])
  | _ => exact .inl (by simp [Op.makes, Op.perform])

/-- How many threads the turn starts as the worker `i` of the pool at `p`. -/
def Effect.recruits (e : Effect α) (p i : Nat) : Nat :=
  (e.births.map fun u => if u.who = .worker p i then 1 else 0).sum

/-- A turn starts no worker that it was not going to start. -/
theorem Deed.recruits {op : Op α} (deed : Deed around s who op e) (p i : Nat) :
    e.recruits p i + (e.ops.map (Op.spawns p i)).sum ≤ op.spawns p i ∨
      (p = s.pools.length ∧ e.recruits p i = 0 ∧ (e.ops.map (Op.spawns p i)).sum ≤ 1) := by
  have hspawns : (e.ops.map (Op.spawns p i)).sum ≤ (e.ops.map (Op.makes p)).sum :=
    List.sum_le_sum fun op' _ => op'.spawns_le_makes p i
  have hmakes := deed.makes p
  cases deed with
  | spawned q k name pool found inside =>
      refine .inl ?_
      simp only [Effect.recruits, List.map_singleton, List.sum_singleton, Op.spawns,
        Who.worker.injEq]
      split <;> split <;> split <;> omega
  | spawnedAll q k name pool found outside => exact .inl (Nat.zero_le _)
  | poolReady place l stage q pool name succeeded found awake verdict present =>
      refine .inl (Nat.le_of_eq ?_)
      cases s.names.pools.find? name <;> rfl
  | waitSlept => exact .inl (Nat.le_refl 0)
  | poolMissed => exact .inl (Nat.le_refl 0)
  | jobAdded submits | freeJobAdded submits => cases submits <;> exact .inl (Nat.le_refl 0)
  | _ =>
      rcases hmakes with hle | ⟨hp, hone⟩
      · exact .inl ((Nat.le_of_eq (Nat.zero_add _)).trans (hspawns.trans hle))
      · exact .inr ⟨hp, rfl, hspawns.trans (Nat.le_of_eq hone)⟩

/-- A turn starts only workers that their pool has. -/
theorem Deed.recruits_within {op : Op α} (deed : Deed around s who op e) {p i : Nat}
    (h : 0 < e.recruits p i) : ∃ pool, s.pools[p]? = some pool ∧ i < pool.threads := by
  cases deed with
  | spawned q k name pool found inside =>
      simp only [Effect.recruits, List.map_singleton, List.sum_singleton, Who.worker.injEq] at h
      split at h
      · rename_i heq
        obtain ⟨rfl, rfl⟩ := heq
        exact ⟨pool, found, inside⟩
      · cases h
  | _ => cases h

end Deeds

namespace World

/-- Nobody is making the pool any more. -/
def Made (w : World α) (p : Nat) : Prop :=
  p < w.store.pools.length ∧ (w.load fun _ => Op.makes p) = 0

/-- Each worker is one thread of its pool or is going to be started once, and somebody makes a pool
only as long as it has no name. -/
structure Manned (w : World α) : Prop where
  single : ∀ p i, w.crew p i + (w.load fun _ => Op.spawns p i) ≤ 1
  within : ∀ p i, 0 < w.crew p i → ∃ pool, w.store.pools[p]? = some pool ∧ i < pool.threads
  maker : ∀ p, (w.load fun _ => Op.makes p) ≤ 1
  named : ∀ p, w.store.NamesPool p → (w.load fun _ => Op.makes p) = 0

variable {w v : World α} {index : Nat} {t : Thread α} {old tail : List (Op α)} {e : Effect α}

/-- A pool that is not there is not being made. -/
theorem Known.makes_eq_zero (known : w.Known) {p : Nat} (absent : w.store.pools.length ≤ p) :
    (w.load fun _ => Op.makes p) = 0 := by
  refine load_eq_zero _ fun t ht op hop => ?_
  have hop := known.ops t ht op hop
  unfold Op.makes
  split
  · refine if_neg ?_
    rintro rfl
    exact Nat.not_lt.mpr absent hop
  · refine if_neg ?_
    rintro rfl
    exact Nat.not_lt.mpr absent hop.2
  · rfl

theorem spawns_le_makes (w : World α) (p i : Nat) :
    (w.load fun _ => Op.spawns p i) ≤ w.load fun _ => Op.makes p :=
  List.sum_le_sum fun _ _ => List.sum_le_sum fun op _ => op.spawns_le_makes p i

theorem Took.crew (took : w.Took v index t old tail e) (p i : Nat) :
    v.crew p i = w.crew p i + e.recruits p i := by
  obtain ⟨r, hcrew, hcrew'⟩ := took.total (fun who _ => if who = .worker p i then 1 else 0)
    fun _ _ _ => rfl
  rw [World.crew, World.crew, hcrew, hcrew', Effect.recruits]
  omega

/-- A turn makes no pool that was there but goes on with the making. -/
theorem Took.makes (took : w.Took v index t old tail e) (p : Nat) :
    ∃ r, (w.load fun _ => Op.makes p) = (old.map (Op.makes p)).sum + r ∧
      (v.load fun _ => Op.makes p) = (e.ops.map (Op.makes p)).sum + r ∧
      ((e.ops.map (Op.makes p)).sum ≤ (old.map (Op.makes p)).sum ∨
        (p = w.store.pools.length ∧ (e.ops.map (Op.makes p)).sum = 1)) := by
  obtain ⟨r, hload, hload'⟩ := took.load_of_start (fun _ => Op.makes p)
    (fun _ op => op.makes_wake p) fun _ _ _ => rfl
  refine ⟨r, hload, hload', ?_⟩
  cases took.act with
  | deed deed quiet => simpa using deed.makes p
  | broke payload loose lands uncaught => exact .inl (by simp [(lands.makes p).1])

theorem Took.made (took : w.Took v index t old tail e) {p : Nat} (made : w.Made p) : v.Made p := by
  obtain ⟨there, idle⟩ := made
  obtain ⟨r, hload, hload', hle | ⟨hp, -⟩⟩ := took.makes p
  · refine ⟨?_, by omega⟩
    rw [took.store]
    exact there.trans_le took.act.pools.length_le
  · omega

/-- A worker that a turn starts is a worker of a pool that the turn leaves there. -/
theorem Took.within (took : w.Took v index t old tail e) (h : w.Manned) {p i : Nat}
    (crew : 0 < v.crew p i) : ∃ pool, v.store.pools[p]? = some pool ∧ i < pool.threads := by
  rw [took.crew] at crew
  have hfound : ∃ pool, w.store.pools[p]? = some pool ∧ i < pool.threads := by
    rcases Nat.eq_zero_or_pos (w.crew p i) with hzero | hpos
    · cases took.act with
      | deed deed quiet => exact deed.recruits_within (by omega)
      | broke payload loose lands uncaught =>
          simp only [Effect.recruits, List.map_nil, List.sum_nil] at crew
          omega
    · exact h.within p i hpos
  obtain ⟨pool, found, within⟩ := hfound
  obtain ⟨pool', found', grows⟩ := took.act.pools.grows found
  exact ⟨pool', took.store ▸ found', grows.threads ▸ within⟩

/-- A turn starts a worker in place of an operation that was to start it, and is to start one only
for a pool that was not there. -/
theorem Took.single (known : w.Known) (took : w.Took v index t old tail e) (h : w.Manned)
    (p i : Nat) : v.crew p i + (v.load fun _ => Op.spawns p i) ≤ 1 := by
  obtain ⟨r, hload, hload'⟩ := took.load_of_start (fun _ => Op.spawns p i)
    (fun _ op => op.spawns_wake p i) fun _ _ _ => rfl
  have hbefore := h.single p i
  rw [took.crew, hload']
  cases took.act with
  | deed deed quiet =>
      rw [List.map_singleton, List.sum_singleton] at hload
      rcases deed.recruits p i with hle | ⟨rfl, hnone, hone⟩
      · omega
      · have hcrew : w.crew w.store.pools.length i = 0 := by
          by_contra some
          obtain ⟨pool, found, -⟩ := h.within _ i (Nat.pos_of_ne_zero some)
          exact absurd (List.getElem?_eq_some_iff.mp found).1 (Nat.lt_irrefl _)
        have hspawns := w.spawns_le_makes w.store.pools.length i
        rw [known.makes_eq_zero (Nat.le_refl _)] at hspawns
        omega
  | broke payload loose lands uncaught =>
      have hnew := lands.spawns_new p i
      simp only [Effect.recruits, List.map_nil, List.sum_nil]
      omega

theorem Took.maker (known : w.Known) (took : w.Took v index t old tail e) (h : w.Manned)
    (p : Nat) : (v.load fun _ => Op.makes p) ≤ 1 := by
  have hbefore := h.maker p
  obtain ⟨r, hload, hload', hle | ⟨rfl, hone⟩⟩ := took.makes p
  · omega
  · have := known.makes_eq_zero (Nat.le_refl w.store.pools.length)
    omega

/-- A pool gets its name in the turn in which its maker has heard of all workers, and with that the
making is over. -/
theorem Took.unmade_of_named (known : w.Known) (took : w.Took v index t old tail e) (h : w.Manned)
    {p : Nat} (named : v.store.NamesPool p) : (v.load fun _ => Op.makes p) = 0 := by
  obtain ⟨r, hload, hload', hmakes⟩ := took.makes p
  by_cases known' : w.store.NamesPool p
  · have hp : p < w.store.pools.length := known.store.poolNames p known'
    have := h.named p known'
    omega
  rw [took.store] at named
  cases took.act with
  | broke payload loose lands uncaught => exact absurd named known'
  | deed deed quiet =>
      obtain known'' | ⟨l, stage, name, rfl⟩ := deed.namesPool named
      · exact absurd known'' known'
      have hbefore := h.maker p
      simp only [List.map_singleton, List.sum_singleton, Op.makes, if_true] at hload
      cases deed with
      | jobAdded submits | freeJobAdded submits => cases submits
      | waitSlept => exact absurd named known'
      | poolMissed => exact absurd named known'
      | poolReady _ _ _ _ pool _ succeeded found awake verdict present =>
          have hdone : (((w.store.names.pools.find? name).toList.map Op.release ++
              [.answer (.ok .nothing)] : List (Op α)).map (Op.makes p)).sum = 0 := by
            cases w.store.names.pools.find? name <;> rfl
          rw [hdone] at hload'
          omega

theorem Took.manned (known : w.Known) (took : w.Took v index t old tail e) (h : w.Manned) :
    v.Manned :=
  ⟨took.single known h, fun _ _ crew => took.within h crew, took.maker known h,
    fun _ named => took.unmade_of_named known h named⟩

theorem Reachable.manned {w : World α} (h : w.Reachable) : w.Manned := by
  refine h.induct (P := Manned)
    (fun cells => ⟨fun _ _ => Nat.zero_le _, fun _ _ crew => absurd crew (Nat.lt_irrefl 0),
      fun _ => Nat.zero_le _, fun _ _ => rfl⟩)
    (fun w command _ ih => ?_) fun w v index t old tail e reachable took ih =>
      took.manned reachable.known ih
  have hcrew : ∀ p i, (w.issue command).crew p i = w.crew p i := fun p i => by
    simp [crew, World.total, issue]
  exact ⟨fun p i => by rw [hcrew, load_issue]; exact ih.single p i,
    fun p i crew => ih.within p i (hcrew p i ▸ crew), fun p => by rw [load_issue]; exact ih.maker p,
    fun p named => by rw [load_issue]; exact ih.named p named⟩

/-- No two threads are the same worker. -/
theorem Reachable.worker_unique (h : w.Reachable) {j k : Nat} {t u : Thread α}
    (got : w.threads[j]? = some t) (got' : w.threads[k]? = some u) {p i : Nat}
    (who : t.who = .worker p i) (who' : u.who = .worker p i) : j = k := by
  by_contra apart
  have := add_le_sum_map (fun t : Thread α => if t.who = .worker p i then 1 else 0) got got' apart
  have := h.manned.single p i
  simp only [who, who', if_true, crew, World.total] at *
  omega

/-- A pool that has got its name has been made. -/
theorem Reachable.made_of_named (h : w.Reachable) {p : Nat} (named : w.store.NamesPool p) :
    w.Made p :=
  ⟨h.known.store.poolNames p named, h.manned.named p named⟩

/-- Each worker of a pool is one thread, or the step that makes the pool is going to start it. -/
theorem Reachable.worker_of_lt (h : w.Reachable) {p i : Nat} {pool : Pool}
    (found : w.store.pools[p]? = some pool) (within : i < pool.threads) :
    (∃ t ∈ w.threads, ∃ k ≤ i, ∃ name, .spawn p k name ∈ t.ops) ∨
      ∃ (index : Nat) (t : Thread α), w.threads[index]? = some t ∧ t.who = .worker p i := by
  have staffed := (h.staffed p pool found).2 i within
  rcases Nat.eq_zero_or_pos (w.crew p i) with hzero | hpos
  · refine .inl ?_
    have hspawns : (w.load fun _ => Op.spawns p i) ≠ 0 := by omega
    by_contra none
    refine hspawns (load_eq_zero _ fun t ht op hop => ?_)
    unfold Op.spawns
    split
    · rename_i q k name
      refine if_neg ?_
      rintro ⟨rfl, hle⟩
      exact none ⟨t, ht, k, hle, name, hop⟩
    · rfl
  · obtain ⟨t, ht, who⟩ := exists_of_crew hpos
    obtain ⟨index, got⟩ := List.mem_iff_getElem?.mp ht
    exact .inr ⟨index, t, got, who⟩

/-- All workers of a pool that has been made are there. -/
theorem Made.worker {p i : Nat} (made : w.Made p) (h : w.Reachable) {pool : Pool}
    (found : w.store.pools[p]? = some pool) (within : i < pool.threads) :
    ∃ (index : Nat) (t : Thread α), w.threads[index]? = some t ∧ t.who = .worker p i := by
  refine (h.worker_of_lt found within).resolve_left ?_
  rintro ⟨t, ht, k, -, name, hop⟩
  have := eq_zero_of_load made.2 ht hop
  simp [Op.makes] at this

/-- A worker belongs to a pool that is there and has a flag for it. -/
theorem Reachable.worker_within (h : w.Reachable) {t : Thread α} (ht : t ∈ w.threads) {p i : Nat}
    (who : t.who = .worker p i) : ∃ pool, w.store.pools[p]? = some pool ∧ i < pool.threads := by
  refine h.manned.within p i ?_
  obtain ⟨r, hcrew⟩ := sum_map_of_mem (fun t : Thread α => if t.who = .worker p i then 1 else 0) ht
  rw [crew, World.total, hcrew, if_pos who]
  omega

end World

end WorkerPool
