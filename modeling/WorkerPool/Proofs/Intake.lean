import WorkerPool.Proofs.Dues
import WorkerPool.Proofs.Later

/-! What happens to the intake of a pool. Few turns change it: a push, a receive, a termination and
a drain. The first two happen only while the pool is up. A termination leaves a drain behind, in
place of the operation that has made it, so the ring of a pool that is down is empty unless a drain
is still due. Whoever goes on from there can rely on the pool being down: a shutdown that drains or
is over, whoever waits for the workers to end, and a worker that has ended. -/

namespace WorkerPool

variable {α : Type}

/-- How the turn of an operation changes the intake of the pool at `p`, and what it leaves to do. -/
inductive IntakeTurn (p : Nat) (c : Channel Item) : Op α → Effect α → Channel Item → Prop
  | kept (op : Op α) (e : Effect α) : IntakeTurn p c op e c
  | pushed (sub : Submission) (item : Item) (stage : Stage) (e : Effect α) (mine : sub.pool = p)
      (up : c.terminated = false) (ops : e.ops = [.submit sub (.send (.announce .sent))]) :
      IntakeTurn p c (.submit sub (.send (.send item stage))) e
        { c with value := c.value.push item }
  | taken (i : Nat) (stage : Stage) (item : Item) (ring : Ring Item) (e : Effect α)
      (up : c.terminated = false)
      (ops : e.ops = [.work p i (.receive (.announce (.received (some item))))]) :
      IntakeTurn p c (.work p i (.receive (.receive stage))) e { c with value := ring }
  | terminated (e : Effect α) (ops : e.ops = [.shutDown p (.call .drain)])
      (alarm : e.alarm = .everyone (.intake p)) :
      IntakeTurn p c (.shutDown p (.call .terminate)) e (Monitor.terminate c)
  | drained (ring : Ring Item) (e : Effect α) (empty : ring.toList = [])
      (ops : e.ops = [.shutDown p (.call (.announce (.drained c.value.toList)))]) :
      IntakeTurn p c (.shutDown p (.call .drain)) e { c with value := ring }

section Deeds

variable {around : Around} {s : Store α} {who : Who} {old : List (Op α)} {e : Effect α}

theorem Deed.intake {op : Op α} (deed : Deed around s who op e) {p : Nat} {pool : Pool}
    (found : s.pools[p]? = some pool) :
    ∃ pool', e.store.pools[p]? = some pool' ∧ IntakeTurn p pool.intake op e pool'.intake := by
  have hpools : e.store.pools = s.pools →
      ∃ pool', e.store.pools[p]? = some pool' ∧ IntakeTurn p pool.intake op e pool'.intake :=
    fun h => ⟨pool, h ▸ found, .kept op e⟩
  have hset : ∀ {place : Nat} {q q' : Pool}, s.pools[place]? = some q →
      e.store.pools = s.pools.set place q' →
        (place = p → IntakeTurn p q.intake op e q'.intake) →
          ∃ pool', e.store.pools[p]? = some pool' ∧ IntakeTurn p pool.intake op e pool'.intake := by
    intro place q q' hq h turn
    by_cases hp : place = p
    · subst hp
      obtain rfl : pool = q := Option.some.inj (found.symm.trans hq)
      exact ⟨q', by rw [h, List.getElem?_set_self (List.getElem?_eq_some_iff.mp hq).1], turn rfl⟩
    · exact ⟨pool, by rw [h, List.getElem?_set_ne hp, found], .kept op e⟩
  cases deed with
  | commanded command eases => exact hpools eases.pools
  | acted origin position action rest later eases => exact hpools eases.pools
  | handed ticket name same => exact hpools same.1
  | poolMade =>
      exact ⟨pool, by rw [List.getElem?_append_left (List.getElem?_eq_some_iff.mp found).1, found],
        .kept _ _⟩
  | jobAdded _ _ _ _ hq | freeJobAdded _ _ _ _ hq | batchAdded _ _ _ _ _ hq
  | freeBatchAdded _ _ _ _ _ hq | emptyBatchAdded _ _ _ _ _ _ hq | memberAdded _ _ _ _ hq
  | enlisted _ _ _ hq | left _ _ hq | jobStarted _ _ _ _ hq | jobFinished _ _ _ _ _ hq =>
      refine hset hq (by rfl) fun _ => ?_
      exact .kept _ _
  | pushed sub q item stage hq awake up =>
      refine hset hq (by rfl) fun hp => ?_
      exact .pushed sub item stage _ hp up rfl
  | taken place i q stage item ring hq awake up =>
      refine hset hq (by rfl) fun hp => ?_
      subst hp
      exact .taken i stage item ring _ up rfl
  | poolTerminated place q hq =>
      refine hset hq (by rfl) fun hp => ?_
      subst hp
      exact .terminated _ rfl rfl
  | drained place q ring hq valid empty =>
      refine hset hq (by rfl) fun hp => ?_
      subst hp
      exact .drained ring _ empty rfl
  | _ => exact hpools rfl

end Deeds

/-- The pool at `p` is there and down. -/
def Store.IsDown (s : Store α) (p : Nat) : Prop :=
  ∃ pool, s.pools[p]? = some pool ∧ pool.isDown = true

namespace Op

/-- Whether the operation is about to drain the pool at `p`. -/
def draining (p : Nat) : Op α → Nat
  | .shutDown q (.call .drain) => if q = p then 1 else 0
  | _ => 0

/-- A shutdown that drains, has drained or is over finds its pool down. -/
def Closes (s : Store α) : Op α → Prop
  | .shutDown p (.call .drain) | .shutDown p (.call (.announce _)) | .shutDown p .done => s.IsDown p
  | _ => True

theorem draining_wake (p : Nat) (op : Op α) : op.wake.draining p = op.draining p := by
  cases op with
  | submit sub phase => cases phase <;> rfl
  | work q i phase => cases phase <;> rfl
  | _ => rfl

theorem Plain.draining {op : Op α} (h : op.Plain) (p : Nat) : op.draining p = 0 := by
  cases op with
  | shutDown q phase =>
      cases phase with
      | check => rfl
      | _ => exact h.elim
  | _ => rfl

theorem Lands.draining {payload : Payload} {old new : List (Op α)} {notes : List Entry}
    (lands : Op.Lands payload old new notes) (p : Nat) : (old.map (Op.draining p)).sum = 0 := by
  cases lands <;> simp [Op.draining]

theorem eq_join_of_wake {op : Op α} {p i : Nat} {waiting : Bool}
    (h : op.wake = .join p i waiting) : op = .join p i waiting := by
  cases op with
  | submit sub phase => cases phase <;> cases h
  | work q i phase => cases phase <;> cases h
  | join => exact h
  | _ => cases h

theorem Closes.wake {s : Store α} {op : Op α} (closes : op.Closes s) : op.wake.Closes s := by
  cases op with
  | submit sub phase => cases phase <;> trivial
  | work q i phase => cases phase <;> trivial
  | _ => exact closes

theorem Closes.of_not_serves {s : Store α} {op : Op α} (idle : ¬op.Serves) : op.Closes s := by
  cases op with
  | shutDown p phase => exact absurd trivial idle
  | _ => trivial

theorem Closes.imp {s s' : Store α} (down : ∀ p, s.IsDown p → s'.IsDown p) {op : Op α}
    (closes : op.Closes s) : op.Closes s' := by
  unfold Closes at closes ⊢
  split
  · exact down _ closes
  · exact down _ closes
  · exact down _ closes
  · trivial

theorem Resumes.ne_nil {rest : List (Op α)} (h : Resumes rest) : rest ≠ [] := by
  cases h <;> exact List.cons_ne_nil _ _

theorem Clearing.ne_nil {p : Nat} {rest : List (Op α)} (h : Clearing p rest) : rest ≠ [] := by
  cases h <;> exact List.cons_ne_nil _ _

theorem AfterCount.ne_nil {l : Nat} {failed : Bool} {rest : List (Op α)}
    (h : AfterCount l failed rest) : rest ≠ [] := by
  cases h with
  | called _ back => exact back.ne_nil
  | settled _ behind => exact behind.ne_nil
  | duty | performed => exact List.cons_ne_nil _ _

theorem AfterLeave.ne_nil {p : Nat} {rest : List (Op α)} (h : AfterLeave p rest) : rest ≠ [] := by
  cases h with
  | work => exact List.cons_ne_nil _ _
  | clearing behind => exact behind.ne_nil

theorem AfterCode.ne_nil {o : Origin} {rest : List (Op α)} (h : AfterCode o rest) : rest ≠ [] := by
  cases h with
  | caller back => exact back.ne_nil
  | latchMade | batch | finale | item => exact List.cons_ne_nil _ _

theorem AfterRelease.steps {who : Who} (h : AfterRelease (α := α) who []) : who.Steps := by
  cases h with
  | nothing steps => exact steps
  | resumes back => exact absurd rfl back.ne_nil

/-- The last operation of a worker says where the worker stands. -/
theorem Before.last {p i : Nat} {op : Op α} (before : op.Before (.worker p i) []) :
    ∃ phase, op = .work p i phase := by
  cases before with
  | work _ _ phase self proper =>
      cases self
      exact ⟨phase, rfl⟩
  | command steps | monitor steps | channel steps | waitCaller steps | waitTicket steps
  | waitReady steps | constructLatch steps | constructBatch steps | spawn steps => exact steps.elim
  | code _ _ _ _ after => exact absurd rfl after.ne_nil
  | count _ _ after | running _ _ _ after | latchAnnounce _ _ after => exact absurd rfl after.ne_nil
  | terminate _ back => exact absurd rfl back.ne_nil
  | leave _ after | backlogAnnounce _ after => exact absurd rfl after.ne_nil
  | waitRefused _ _ _ _ _ after | submit _ _ _ _ after =>
      cases after with
      | step _ _ _ steps => exact steps.elim
  | shutDown _ _ _ after => cases after
  | join _ _ _ after | release _ after => exact after.steps.elim
  | hand _ _ after | answer _ after =>
      rcases after with ⟨-, steps⟩ | ⟨_, _, hcons⟩
      · exact steps.elim
      · cases hcons

/-- Behind the count of a completion nobody waits for workers to end. -/
theorem AfterCount.not_join {l p i : Nat} {failed waiting : Bool} {rest : List (Op α)}
    (h : AfterCount l failed (.join p i waiting :: rest)) : False := by
  cases h with
  | called _ back => cases back
  | settled _ behind => cases behind

/-- In front of a wait for workers to end stands nothing but the shutdown of their pool. -/
theorem Before.of_join {who : Who} {op : Op α} {p i : Nat} {waiting : Bool} {rest : List (Op α)}
    (before : op.Before who (.join p i waiting :: rest)) : ∃ phase, op = .shutDown p phase := by
  cases before with
  | shutDown q phase proper after =>
      cases after with
      | join => exact ⟨phase, rfl⟩
  | code _ _ _ _ after =>
      cases after with
      | caller back => cases back
  | count _ _ after | running _ _ _ after | latchAnnounce _ _ after => exact after.not_join.elim
  | terminate _ back => cases back
  | waitTicket _ _ _ _ after =>
      rcases after with hnil | ⟨_, hcons⟩
      · cases hnil
      · cases hcons
  | waitRefused _ _ _ _ _ after | submit _ _ _ _ after => cases after
  | leave _ after | backlogAnnounce _ after =>
      cases after with
      | clearing behind => cases behind
  | join _ _ _ after | release _ after =>
      cases after with
      | resumes back => cases back
  | hand _ _ after | answer _ after =>
      rcases after with ⟨hnil, -⟩ | ⟨_, _, hcons⟩
      · cases hnil
      · cases hcons

end Op

section Deeds

variable {around : Around} {s : Store α} {who : Who} {old : List (Op α)} {e : Effect α}

theorem Deed.closes {op : Op α} (deed : Deed around s who op e)
    (kept : ∀ p, s.IsDown p → e.store.IsDown p) (closes : op.Closes s) :
    ∀ op' ∈ e.ops, op'.Closes e.store := by
  intro op' hop
  by_cases serves : op'.Serves
  · cases deed.follows hop serves with
    | checkedDown p pool found down => exact kept p ⟨pool, found, down⟩
    | terminated p pool found down => exact ⟨pool, found, down⟩
    | drained p items | settled p items => exact kept p closes
    | _ => trivial
  · exact .of_not_serves serves

theorem Op.Lands.closes {payload : Payload} {new : List (Op α)} {notes : List Entry}
    (lands : Op.Lands payload old new notes) : ∀ op ∈ new, op.Closes s := by
  cases lands <;> simp [Op.Closes]

/-- Nothing is left in the ring after a drain. -/
theorem Deed.ring_of_draining {op : Op α} (deed : Deed around s who op e) {p : Nat}
    (drains : op.draining p ≠ 0) : e.store.ring p = [] := by
  cases deed with
  | drained place pool ring found valid empty capacity =>
      obtain rfl : place = p := by
        by_contra apart
        exact drains (if_neg apart)
      rw [Store.ring_setPool found, if_pos rfl, empty]
  | jobAdded submits | freeJobAdded submits => cases submits <;> exact absurd rfl drains
  | _ => exact absurd rfl drains

end Deeds

namespace World

/-- What can be relied on of a pool that is down, and of whoever has found it down: the operations
of its shutdowns, the waits for its workers to end, and the workers that have ended. -/
structure Closed (w : World α) : Prop where
  closes : ∀ t ∈ w.threads, ∀ op ∈ t.ops, op.Closes w.store
  joins : ∀ t ∈ w.threads, ∀ p i waiting rest, t.ops = .join p i waiting :: rest →
    w.store.IsDown p
  ended : ∀ t ∈ w.threads, ∀ p i, t.who = .worker p i → t.ops = [] → w.store.IsDown p
  drained : ∀ p, w.store.IsDown p → w.store.ring p = [] ∨ 0 < w.load fun _ => Op.draining p

variable {w v : World α} {index : Nat} {t : Thread α} {old tail : List (Op α)} {e : Effect α}

theorem Took.isDown (took : w.Took v index t old tail e) {p : Nat} (down : w.store.IsDown p) :
    v.store.IsDown p := by
  obtain ⟨pool, found, hdown⟩ := down
  obtain ⟨pool', found', grows⟩ := took.act.pools.grows found
  exact ⟨pool', took.store ▸ found', grows.down hdown⟩

theorem Later.isDown (later : w.Later v) (h : w.Reachable) {p : Nat} (down : w.store.IsDown p) :
    v.store.IsDown p := by
  obtain ⟨pool, found, hdown⟩ := down
  obtain ⟨pool', found', grows⟩ := later.pool h found
  exact ⟨pool', found', grows.down hdown⟩

/-- What a turn does to the intake of a pool that is there. -/
theorem Took.intake (took : w.Took v index t old tail e) {p : Nat} {pool : Pool}
    (found : w.store.pools[p]? = some pool) :
    ∃ pool', v.store.pools[p]? = some pool' ∧ (pool'.intake = pool.intake ∨
      ∃ op, old = [op] ∧ Deed (w.around index) w.store t.who op e ∧
        IntakeTurn p pool.intake op e pool'.intake) := by
  rw [took.store]
  cases took.act with
  | deed deed quiet =>
      obtain ⟨pool', found', turn⟩ := deed.intake found
      exact ⟨pool', found', .inr ⟨_, rfl, deed, turn⟩⟩
  | broke payload loose lands uncaught => exact ⟨pool, found, .inl rfl⟩

/-- Whoever comes to wait for the workers of a pool to end has shut it down before. -/
theorem Took.joins (took : w.Took v index t old tail e) (orderly : w.Orderly) (h : w.Closed)
    {p i : Nat} {waiting : Bool} {rest : List (Op α)}
    (ops : e.ops ++ tail = .join p i waiting :: rest) : w.store.IsDown p := by
  have ht := took.mem_threads
  have stack := orderly.ordered t ht
  have hops := took.ops
  rw [hops, Op.leads_append, List.append_nil] at stack
  cases took.act with
  | @deed op e deed quiet =>
      cases he : e.ops with
      | nil =>
          rw [he, List.nil_append] at ops
          subst ops
          obtain ⟨phase, rfl⟩ := stack.1.1.of_join
          cases deed with
          | shutDownOver => exact h.closes t ht (.shutDown _ .done) (by simp [hops])
          | abandoned => simp at he
          | _ => cases he
      | cons op' ops' =>
          rw [he, List.cons_append] at ops
          obtain ⟨rfl, -⟩ := List.cons.inj ops
          have hmem : Op.join p i waiting ∈ e.ops := he ▸ List.mem_cons_self
          cases deed.follows hmem trivial with
          | released => cases deed <;> cases he
          | joined p i => exact h.joins t ht p i true tail hops
          | joinBegun p i => exact h.joins t ht p i false tail hops
  | @broke payload above old new notes loose lands uncaught =>
      cases lands with
      | nowhere =>
          rw [List.append_nil] at hops stack
          rcases List.eq_nil_or_concat above with rfl | ⟨above, last, rfl⟩
          · exact h.joins t ht p i waiting rest (hops.trans ops)
          · rw [List.concat_eq_append, Op.leads_append] at stack
            simp only [List.nil_append] at ops
            subst ops
            obtain ⟨phase, rfl⟩ := stack.1.2.1.of_join
            exact (loose (.shutDown p phase) (by simp)).elim
      | item | finale | batch | latchMade => cases ops

/-- A worker ends only when its pool is down. -/
theorem Took.ended (took : w.Took v index t old tail e) (orderly : w.Orderly) {p i : Nat}
    (who : t.who = .worker p i) (ops : e.ops ++ tail = []) : w.store.IsDown p := by
  have stack := orderly.ordered t took.mem_threads
  obtain ⟨hnone, rfl⟩ := List.append_eq_nil_iff.mp ops
  rw [took.ops, Op.leads_append, List.append_nil, who] at stack
  cases took.act with
  | deed deed quiet =>
      obtain ⟨phase, rfl⟩ := stack.1.1.last
      cases deed with
      | workerStopped place index pool stage found awake down => exact ⟨pool, found, down⟩
      | jobRan | jobBroke => simp at hnone
      | _ => cases hnone
  | broke payload loose lands uncaught =>
      cases lands with
      | nowhere =>
          have steps := uncaught rfl
          rw [who] at steps
          exact steps.elim
      | item | finale | batch | latchMade => cases hnone

/-- A pool that is down was down before, or is going to be drained. -/
theorem Took.drained (took : w.Took v index t old tail e) {p : Nat}
    (h : w.store.IsDown p → w.store.ring p = [] ∨ 0 < w.load fun _ => Op.draining p)
    (down : v.store.IsDown p) : v.store.ring p = [] ∨ 0 < v.load fun _ => Op.draining p := by
  obtain ⟨r, hbefore, hafter⟩ := took.load_of_start (fun _ => Op.draining p)
    (fun _ op => op.draining_wake p) fun _ _ _ => rfl
  obtain ⟨pool', found', hdown⟩ := down
  obtain ⟨pool, found, grows⟩ | ⟨-, fresh⟩ := took.act.pools.origin (took.store ▸ found')
  swap
  · rw [fresh.up] at hdown
    cases hdown
  -- Unless the turn itself was the drain that was due, that one is still due.
  have hkept : pool'.intake = pool.intake → (old.map (Op.draining p)).sum = 0 →
      v.store.ring p = [] ∨ 0 < v.load fun _ => Op.draining p := by
    intro hsame hold
    rw [Store.ring_eq found', hsame, ← Store.ring_eq found, hafter]
    refine (h ⟨pool, found, ?_⟩).imp_right fun hload => ?_
    · rw [← hdown, Pool.isDown, Pool.isDown, hsame]
    · omega
  cases took.act with
  | @deed op e deed quiet =>
      by_cases hdrains : op.draining p = 0
      swap
      · exact .inl (took.store ▸ deed.ring_of_draining hdrains)
      obtain ⟨pool'', found'', turn⟩ := deed.intake found
      obtain rfl := Option.some.inj ((took.store ▸ found'' : v.store.pools[p]? = _).symm.trans found')
      generalize hc : pool''.intake = c at turn
      cases turn with
      | kept => exact hkept hc (by simpa using hdrains)
      | pushed _ _ _ _ _ up | taken _ _ _ _ _ up =>
          rw [Pool.isDown, hc] at hdown
          cases up.symm.trans hdown
      | terminated _ ops =>
          rw [hafter, ops]
          refine .inr ?_
          simp only [List.map_singleton, List.sum_singleton, Op.draining, if_true]
          omega
      | drained ring _ empty => exact .inl (by rw [Store.ring_eq found', hc, empty])
  | @broke payload above old new notes loose lands uncaught =>
      obtain rfl := Option.some.inj ((took.store ▸ found' : w.store.pools[p]? = _).symm.trans found)
      refine hkept rfl ?_
      rw [List.map_append, List.sum_append, lands.draining, sum_map_eq_zero, Nat.add_zero]
      exact fun op hop => (loose op hop).plain.draining p

theorem Reachable.closed {w : World α} (h : w.Reachable) : w.Closed := by
  refine h.induct (P := Closed) (fun cells => ?_) (fun w command _ ih => ?_)
    fun w v index t old tail e reachable took ih => ?_
  · refine ⟨by simp [World.start], by simp [World.start], by simp [World.start], ?_⟩
    rintro p ⟨pool, found, -⟩
    cases found
  · refine ⟨forall_ops_issue (P := fun _ op => op.Closes w.store) ih.closes trivial, ?_, ?_, ?_⟩
    · intro t ht p i waiting rest hops
      rcases List.mem_append.mp ht with ht | ht
      · exact ih.joins t ht p i waiting rest hops
      · obtain rfl := List.mem_singleton.mp ht
        cases hops
    · intro t ht p i who hops
      rcases List.mem_append.mp ht with ht | ht
      · exact ih.ended t ht p i who hops
      · obtain rfl := List.mem_singleton.mp ht
        cases hops
    · intro p down
      rw [load_issue]
      exact ih.drained p down
  · have kept : ∀ p, w.store.IsDown p → v.store.IsDown p := fun p => took.isDown
    have orderly := reachable.orderly
    refine ⟨?_, ?_, ?_, fun p => took.drained (ih.drained p)⟩
    · refine took.forall_ops (P := fun _ op => op.Closes v.store) (fun _ _ closes => closes.wake)
        (fun u hu op hop => (ih.closes u hu op hop).imp kept) ?_ fun _ _ _ _ => trivial
      cases took.act with
      | deed deed quiet =>
          have closes := ih.closes t took.mem_threads _
            took.due_mem
          rw [took.store]
          exact deed.closes (took.store ▸ kept) closes
      | broke payload loose lands uncaught => exact lands.closes
    · refine took.forall_threads
        (P := fun _ ops => ∀ p i waiting rest, ops = .join p i waiting :: rest → v.store.IsDown p)
        ?_ (fun u hu p i waiting rest hops => kept p (ih.joins u hu p i waiting rest hops))
        (fun p i waiting rest hops => kept p (took.joins orderly ih hops)) ?_
      · intro who op ops h p i waiting rest hops
        obtain ⟨hop, rfl⟩ := List.cons.inj hops
        exact h p i waiting ops (by rw [Op.eq_join_of_wake hop])
      · intro u hu p i waiting rest hops
        obtain ⟨q, j, name, rfl, -⟩ := took.birth hu
        cases hops
    · refine took.forall_threads
        (P := fun who ops => ∀ p i, who = .worker p i → ops = [] → v.store.IsDown p)
        (fun _ _ _ _ _ _ _ hops => absurd hops (List.cons_ne_nil _ _))
        (fun u hu p i who hops => kept p (ih.ended u hu p i who hops))
        (fun p i who hops => kept p (took.ended orderly who hops)) ?_
      intro u hu p i who hops
      obtain ⟨q, j, name, rfl, -⟩ := took.birth hu
      cases hops

end World

end WorkerPool
