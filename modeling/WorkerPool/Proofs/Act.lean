import WorkerPool.Proofs.DeedComplete
import WorkerPool.Proofs.Stack

/-! A turn as what it does to a thread: it replaces the operations at the front by others. Mostly
that is a deed of the first operation; but a panic goes through all operations up to the one that
catches it. Both leave a thread in order whose operations were in order before.

What happens to the pools in a turn is also said here once: of a pool that is there, hardly anything
can change. -/

namespace WorkerPool

variable {α : Type}

/-- What a turn does to the operations `old` at the front of a thread: the operation in front takes
its turn, or a panic passes all of them. -/
inductive Act (around : Around) (s : Store α) (who : Who) : List (Op α) → Effect α → Prop
  | deed {op : Op α} {e : Effect α} (deed : Deed around s who op e) (quiet : e.panic = none) :
      Act around s who [op] e
  | broke (payload : Payload) {above old new : List (Op α)} {notes : List Entry}
      (loose : ∀ op ∈ above, op.Loose) (lands : Op.Lands payload old new notes)
      (uncaught : old = [] → who.Steps) :
      Act around s who (above ++ old)
        { store := s, ops := new, notes := above.flatMap Op.raisedNotes ++ notes }

/-- Only a loose operation is passed by a panic alone. -/
theorem Act.deed_of_not_loose {around : Around} {s : Store α} {who : Who} {op : Op α} {e : Effect α}
    (act : Act around s who [op] e) (tight : ¬op.Loose) : Deed around s who op e := by
  generalize hold : [op] = old at act
  cases act with
  | deed deed quiet =>
      obtain ⟨rfl, -⟩ := List.cons.inj hold
      exact deed
  | @broke payload above old' new notes loose lands uncaught =>
      cases above with
      | nil => cases lands <;> cases hold
      | cons op' above =>
          obtain ⟨rfl, -⟩ := List.cons.inj hold
          exact absurd (loose _ List.mem_cons_self) tight

theorem Deed.of_panic {around : Around} {s : Store α} {who : Who} {op : Op α} {e : Effect α}
    (deed : Deed around s who op e) {payload : Payload} (h : e.panic = some payload) :
    op.Raises ∧ e.store = s ∧ e.notes = [] ∧ e.alarm = .silent ∧ e.births = [] ∧
      ∀ rest, unwind payload (e.ops ++ rest) = unwind payload (op :: rest) := by
  cases deed with
  | actionRaised origin position action rest later payload =>
      exact ⟨.code _ _ _ _, rfl, rfl, rfl, rfl, fun _ => rfl⟩
  | deadlocked place index pool found inside =>
      exact ⟨.join _ _ _, rfl, rfl, rfl, rfl, fun _ => rfl⟩
  | _ => cases h

theorem Op.Lands.leads {payload : Payload} {who : Who} {old new : List (Op α)} {notes : List Entry}
    (lands : Op.Lands payload old new notes) {rest : List (Op α)} (h : Op.Leads who old rest) :
    Op.Leads who new rest := by
  cases lands with
  | nowhere => exact trivial
  | item position current later p index item =>
      obtain ⟨-, hwork, -⟩ := h
      cases hwork with
      | work _ _ _ self proper => exact ⟨.work p index _ self trivial, trivial⟩
  | finale position current later l job =>
      obtain ⟨-, hrunning, -⟩ := h
      cases hrunning with
      | running _ _ _ after => exact ⟨.running l job false after, trivial⟩
  | batch position current later p batch id asker =>
      obtain ⟨-, hconstruct, -⟩ := h
      cases hconstruct with
      | constructBatch steps _ _ _ job name handover _ empty finale =>
          exact ⟨.constructBatch steps p batch id job name handover false empty finale, trivial⟩
  | latchMade position current later name =>
      obtain ⟨-, hconstruct, -⟩ := h
      cases hconstruct with
      | constructLatch steps => exact ⟨.constructLatch steps name false, trivial⟩

/-- A fall records the functions that it ends, and where it was caught. -/
theorem Op.Lands.of_mem_notes {payload : Payload} {old new above : List (Op α)}
    {notes : List Entry} (lands : Op.Lands payload old new notes) {note : Entry}
    (h : note ∈ above.flatMap Op.raisedNotes ++ notes) :
    (∃ origin position, note = .raised origin position) ∨
      note = .line (.continuationPanicked payload) := by
  rcases List.mem_append.mp h with h | h
  · obtain ⟨op, -, h⟩ := List.mem_flatMap.mp h
    unfold Op.raisedNotes at h
    split at h
    · exact .inl ⟨_, _, List.mem_singleton.mp h⟩
    · cases h
  · cases lands with
    | nowhere => cases h
    | item => exact .inl ⟨_, _, List.mem_singleton.mp h⟩
    | finale | batch | latchMade =>
        rcases List.mem_cons.mp h with rfl | h
        · exact .inl ⟨_, _, rfl⟩
        · exact .inr (List.mem_singleton.mp h)

section Acts

variable {around : Around} {s : Store α} {who : Who} {old : List (Op α)} {e : Effect α}

theorem Act.leads (act : Act around s who old e) {rest : List (Op α)}
    (h : Op.Leads who old rest) : Op.Leads who e.ops rest := by
  cases act with
  | deed deed quiet => exact deed.leads h.1
  | broke payload loose lands uncaught =>
      rw [Op.leads_append] at h
      exact lands.leads h.2

theorem Act.births_lead (act : Act around s who old e) :
    ∀ t ∈ e.births, Op.Leads t.who t.ops [] := by
  cases act with
  | deed deed quiet => exact deed.births_lead
  | broke payload loose lands uncaught => simp

end Acts

/-! ### Operations that nobody depends on -/

/-- Operations that have no item in their hands, count for no latch and perform nothing on account
of an item, a latch or a batch. -/
def Op.Plain : Op α → Prop
  | .monitor .. | .channel .. | .latch _ .terminate _ | .latch _ (.wait _) _ | .code .caller ..
  | .construct (.latch _) _ | .backlog _ (.awaitIdle _) | .shutDown _ .check | .release _ | .join ..
  | .hand .. | .answer _ => True
  | _ => False

/-- Plain operations, and counts on latches that somebody knows by name. -/
def Op.Free (s : Store α) (op : Op α) : Prop :=
  op.Plain ∨ ∃ l failed, op = .latch l (.count failed) .nobody ∧ s.NamesLatch l

theorem Command.Leaves.free {s : Store α} {ops : List (Op α)} (h : Command.Leaves s ops) :
    ∀ op ∈ ops, op.Free s := by
  cases h with
  | count place failed answer named =>
      simp only [List.mem_cons, List.not_mem_nil, or_false, forall_eq_or_imp, forall_eq]
      exact ⟨.inr ⟨place, failed, rfl, named⟩, .inl trivial⟩
  | _ => simp [Op.Free, Op.Plain, Op.perform]

theorem Action.Leaves.free {s : Store α} {ops : List (Op α)} (h : Action.Leaves s ops) :
    ∀ op ∈ ops, op.Free s := by
  cases h with
  | count place failed named =>
      simp only [List.mem_cons, List.not_mem_nil, or_false, forall_eq]
      exact .inr ⟨place, failed, rfl, named⟩
  | _ => simp [Op.Free, Op.Plain, Op.perform]

theorem Submission.Hands.plain {sub : Submission} {ops : List (Op α)} (h : sub.Hands ops) :
    ∀ op ∈ ops, op.Plain := by
  cases h <;> simp [Op.Plain]

theorem Submission.Refuses.plain {sub : Submission} {ops : List (Op α)} (h : sub.Refuses ops) :
    ∀ op ∈ ops, op.Plain := by
  cases h <;> simp [Op.Plain]

theorem Op.Loose.plain {op : Op α} (h : op.Loose) : op.Plain := by
  cases op with
  | code origin position current later =>
      obtain ⟨rfl, -⟩ := h
      trivial
  | join | release | hand | answer => trivial
  | _ => exact h.elim

/-- What is done to settle an item, whatever has become of it. -/
inductive Op.Settles : Op α → Prop
  | count (l : Nat) (failed : Bool) : Settles (.latch l (.count failed) .nobody)
  | leave (p : Nat) : Settles (.backlog p .leave)
  | wait (l : Nat) (sub : Submission) : Settles (.latch l (.wait .arriving) (.refused sub))
  | refused (sub : Submission) : Settles (.submit sub .refused)

theorem Op.complete_settles (latch : Option Nat) (failed : Bool) :
    ∀ op ∈ (complete latch failed : List (Op α)), op.Settles := by
  intro op hop
  obtain ⟨l, -, rfl⟩ := List.mem_map.mp hop
  exact .count l failed

theorem Op.discard_settles (p : Nat) (item : Item) :
    ∀ op ∈ (discard p item : List (Op α)), op.Settles := by
  intro op hop
  rcases List.mem_append.mp hop with hop | hop
  · exact complete_settles _ _ op hop
  · obtain rfl := List.mem_singleton.mp hop
    exact .leave p

theorem Op.flatMap_discard_settles (p : Nat) (items : List Item) :
    ∀ op ∈ (items.flatMap (discard p) : List (Op α)), op.Settles := by
  intro op hop
  obtain ⟨item, -, hop⟩ := List.mem_flatMap.mp hop
  exact discard_settles p item op hop

theorem Submission.afterRefusal_settles (sub : Submission) :
    ∀ op ∈ (sub.afterRefusal : List (Op α)), op.Settles := by
  intro op hop
  unfold afterRefusal at hop
  split at hop
  · rename_i latch hticket
    rcases List.mem_append.mp hop with hop | hop
    · obtain ⟨job, -, rfl⟩ := List.mem_map.mp hop
      exact .count latch true
    · obtain rfl := List.mem_singleton.mp hop
      exact .wait latch sub
  · obtain rfl := List.mem_singleton.mp hop
    exact .refused sub

/-! ### Pools -/

/-- What no turn takes away from a pool: its name, its size, the latch that its workers report to
and the soundness of its ring. Ids are given out in order, and a pool that is down stays down. -/
structure Pool.Grows (p q : Pool) : Prop where
  name : q.name = p.name
  started : q.started = p.started
  threads : q.threads = p.threads
  capacity : q.intake.value.capacity = p.intake.value.capacity
  nextId : p.nextId ≤ q.nextId
  down : p.isDown = true → q.isDown = true
  ring : p.intake.value.Valid → q.intake.value.Valid
  endless : q.backlog.terminated = p.backlog.terminated

theorem Pool.Grows.refl (p : Pool) : p.Grows p :=
  ⟨rfl, rfl, rfl, rfl, Nat.le_refl _, id, id, rfl⟩

/-- A pool that has just been set up. -/
structure Pool.Fresh (p : Pool) : Prop where
  empty : p.intake.value.toList = []
  valid : p.intake.value.Valid
  up : p.isDown = false
  backlog : p.backlog = { value := 0 }
  idle : ∀ flag ∈ p.busy, flag = false
  threads : 0 < p.threads
  nextId : p.nextId = 1

/-- What a turn does to the pools: nothing, a change of one of them, or a new one. -/
inductive PoolsChange (pools : List Pool) : List Pool → Prop
  | same : PoolsChange pools pools
  | one (place : Nat) (pool pool' : Pool) (found : pools[place]? = some pool)
      (grows : pool.Grows pool') : PoolsChange pools (pools.set place pool')
  | new (pool : Pool) (fresh : pool.Fresh) : PoolsChange pools (pools ++ [pool])

section Pools

theorem Store.getElem?_setPool {s : Store α} {place : Nat} {pool : Pool}
    (found : s.pools[place]? = some pool) (pool' : Pool) (p : Nat) :
    (s.setPool place pool').pools[p]? = if p = place then some pool' else s.pools[p]? := by
  have hlt := (List.getElem?_eq_some_iff.mp found).1
  rw [setPool_pools, List.getElem?_set]
  by_cases h : p = place
  · simp [h, hlt]
  · simp [h, Ne.symm h]

variable {around : Around} {s : Store α} {who : Who} {old : List (Op α)} {e : Effect α}

theorem Deed.pools {op : Op α} (deed : Deed around s who op e) :
    PoolsChange s.pools e.store.pools := by
  have hsame : ∀ {pools : List Pool}, pools = s.pools → PoolsChange s.pools pools := by
    rintro pools rfl
    exact .same
  cases deed with
  | commanded command eases => exact hsame eases.pools
  | acted origin position action rest later eases => exact hsame eases.pools
  | handed ticket name same => exact hsame same.1
  | poolMade command name settings capacity threads =>
      refine .new _ ⟨Ring.toList_empty capacity, Ring.valid_empty capacity, rfl, rfl, ?_, ?_, rfl⟩
      · exact fun flag hflag => List.eq_of_mem_replicate hflag
      · simpa [Pool.threads] using threads
  | jobAdded submits place pool job found =>
      exact .one place pool _ found ⟨rfl, rfl, rfl, rfl, Nat.le_succ _, id, id, rfl⟩
  | freeJobAdded submits place pool job found =>
      exact .one place pool _ found ⟨rfl, rfl, rfl, rfl, Nat.le_succ _, id, id, rfl⟩
  | batchAdded command place pool batch ticket found =>
      exact .one place pool _ found ⟨rfl, rfl, rfl, rfl, Nat.le_succ _, id, id, rfl⟩
  | freeBatchAdded command place pool batch ticket found =>
      exact .one place pool _ found ⟨rfl, rfl, rfl, rfl, Nat.le_succ _, id, id, rfl⟩
  | emptyBatchAdded command place pool batch job ticket found =>
      exact .one place pool _ found ⟨rfl, rfl, rfl, rfl, Nat.le_succ _, id, id, rfl⟩
  | memberAdded sub pool job rest found =>
      exact .one sub.pool pool _ found ⟨rfl, rfl, rfl, rfl, Nat.le_succ _, id, id, rfl⟩
  | left place pool found =>
      exact .one place pool _ found ⟨rfl, rfl, rfl, rfl, Nat.le_refl _, id, id, rfl⟩
  | enlisted sub pool item found =>
      exact .one sub.pool pool _ found ⟨rfl, rfl, rfl, rfl, Nat.le_refl _, id, id, rfl⟩
  | pushed sub pool item stage found awake up room =>
      exact .one sub.pool pool _ found ⟨rfl, rfl, rfl, Ring.capacity_push _ _, Nat.le_refl _, id,
        fun valid => (valid.push room item).1, rfl⟩
  | taken place index pool stage item ring found awake up valid first capacity =>
      exact .one place pool _ found
        ⟨rfl, rfl, rfl, capacity, Nat.le_refl _, id, fun _ => valid, rfl⟩
  | jobStarted place index pool item found =>
      exact .one place pool _ found
        ⟨rfl, rfl, List.length_set, rfl, Nat.le_refl _, id, id, rfl⟩
  | jobFinished place index pool item succeeded found =>
      exact .one place pool _ found
        ⟨rfl, rfl, List.length_set, rfl, Nat.le_refl _, id, id, rfl⟩
  | poolTerminated place pool found =>
      exact .one place pool _ found
        ⟨rfl, rfl, rfl, rfl, Nat.le_refl _, fun _ => rfl, id, rfl⟩
  | drained place pool ring found valid empty capacity =>
      exact .one place pool _ found
        ⟨rfl, rfl, rfl, capacity, Nat.le_refl _, id, fun _ => valid, rfl⟩
  | _ => exact .same

theorem Act.pools (act : Act around s who old e) : PoolsChange s.pools e.store.pools := by
  cases act with
  | deed deed quiet => exact deed.pools
  | broke payload loose lands uncaught => exact .same

/-- A pool that is there stays there. -/
theorem PoolsChange.grows {pools pools' : List Pool} (h : PoolsChange pools pools') {p : Nat}
    {pool : Pool} (found : pools[p]? = some pool) :
    ∃ pool', pools'[p]? = some pool' ∧ pool.Grows pool' := by
  cases h with
  | same => exact ⟨pool, found, .refl pool⟩
  | one place q q' hq grows =>
      by_cases hp : place = p
      · subst hp
        obtain rfl : pool = q := Option.some.inj (found.symm.trans hq)
        exact ⟨q', by simp [(List.getElem?_eq_some_iff.mp hq).1], grows⟩
      · exact ⟨pool, by rw [List.getElem?_set_ne hp, found], .refl pool⟩
  | new q fresh =>
      have hlt := (List.getElem?_eq_some_iff.mp found).1
      exact ⟨pool, by rw [List.getElem?_append_left hlt, found], .refl pool⟩

/-- A pool comes from one that was there, or is new. -/
theorem PoolsChange.origin {pools pools' : List Pool} (h : PoolsChange pools pools') {p : Nat}
    {pool' : Pool} (found : pools'[p]? = some pool') :
    (∃ pool, pools[p]? = some pool ∧ pool.Grows pool') ∨ (p = pools.length ∧ pool'.Fresh) := by
  cases h with
  | same => exact .inl ⟨pool', found, .refl pool'⟩
  | one place q q' hq grows =>
      by_cases hp : place = p
      · subst hp
        have : some q' = some pool' := by
          rw [← found, List.getElem?_set_self (List.getElem?_eq_some_iff.mp hq).1]
        obtain rfl := Option.some.inj this
        exact .inl ⟨q, hq, grows⟩
      · rw [List.getElem?_set_ne hp] at found
        exact .inl ⟨pool', found, .refl pool'⟩
  | new q fresh =>
      rcases Nat.lt_or_ge p pools.length with hlt | hge
      · rw [List.getElem?_append_left hlt] at found
        exact .inl ⟨pool', found, .refl pool'⟩
      · rw [List.getElem?_append_right hge, List.getElem?_singleton] at found
        split at found
        · obtain rfl := Option.some.inj found
          exact .inr ⟨by omega, fresh⟩
        · cases found

theorem PoolsChange.ringsValid {s s' : Store α} (h : PoolsChange s.pools s'.pools)
    (rings : s.RingsValid) : s'.RingsValid := by
  intro p pool' found
  rcases h.origin found with ⟨pool, hpool, grows⟩ | ⟨-, fresh⟩
  · exact grows.ring (rings p pool hpool)
  · exact fresh.valid

end Pools

/-! ### Latches -/

/-- What no turn takes back from a latch. A continuation can only be used up. -/
structure Latch.Grows (l l' : Latch) : Prop where
  held : l'.value.continuation = l.value.continuation ∨ l'.value.continuation = none
  failed : l.value.failed = true → l'.value.failed = true
  remaining : l'.value.remaining ≤ l.value.remaining
  down : l.terminated = true → l'.terminated = true

theorem Latch.Grows.refl (l : Latch) : l.Grows l :=
  ⟨.inl rfl, id, Nat.le_refl _, id⟩

/-- What a turn does to the latches: nothing, a change of one of them, or a new one. -/
inductive LatchesChange (latches : List Latch) : List Latch → Prop
  | same : LatchesChange latches latches
  | one (place : Nat) (l l' : Latch) (found : latches[place]? = some l) (grows : l.Grows l') :
      LatchesChange latches (latches.set place l')
  | new (l : Latch) (up : l.terminated = false) (idle : l.value.finishing = false) :
      LatchesChange latches (latches ++ [l])

section Latches

theorem Store.getElem?_setLatch {s : Store α} {place : Nat} {l : Latch}
    (found : s.latches[place]? = some l) (l' : Latch) (k : Nat) :
    (s.setLatch place l').latches[k]? = if k = place then some l' else s.latches[k]? := by
  have hlt := (List.getElem?_eq_some_iff.mp found).1
  rw [setLatch_latches, List.getElem?_set]
  by_cases h : k = place
  · simp [h, hlt]
  · simp [h, Ne.symm h]

variable {around : Around} {s : Store α} {who : Who} {old : List (Op α)} {e : Effect α}

theorem Deed.latches {op : Op α} (deed : Deed around s who op e) :
    LatchesChange s.latches e.store.latches := by
  have hsame : ∀ {latches : List Latch}, latches = s.latches → LatchesChange s.latches latches := by
    rintro latches rfl
    exact .same
  cases deed with
  | commanded command eases => exact hsame eases.latches
  | acted origin position action rest later eases => exact hsame eases.latches
  | handed ticket name same => exact hsame same.2.1
  | latchMade | poolMade | jobAdded | batchAdded | latchSettled | batchSettled =>
      exact .new _ rfl rfl
  | countSkipped place l failed job found counts last held spoilt =>
      exact .one place l _ found ⟨.inr rfl, fun _ => rfl, Nat.zero_le _, id⟩
  | countStarted place l job found counts last held sound =>
      exact .one place l _ found ⟨.inr rfl, fun h => by simp [sound] at h, Nat.le_refl _, id⟩
  | counted place l failed found counts plain =>
      exact .one place l _ found ⟨.inl rfl, fun h => by simp [h], Nat.sub_le _ _, id⟩
  | continued place l job succeeded found =>
      exact .one place l _ found ⟨.inl rfl, fun h => by simp [h], Nat.sub_le _ _, id⟩
  | latchTerminated place l found held idle =>
      exact .one place l _ found ⟨.inl rfl, id, Nat.le_refl _, fun _ => rfl⟩
  | _ => exact .same

theorem Act.latches (act : Act around s who old e) : LatchesChange s.latches e.store.latches := by
  cases act with
  | deed deed quiet => exact deed.latches
  | broke payload loose lands uncaught => exact .same

/-- A latch that is there stays there. -/
theorem LatchesChange.grows {latches latches' : List Latch} (h : LatchesChange latches latches')
    {k : Nat} {l : Latch} (found : latches[k]? = some l) :
    ∃ l', latches'[k]? = some l' ∧ l.Grows l' := by
  cases h with
  | same => exact ⟨l, found, .refl l⟩
  | one place m m' hm grows =>
      by_cases hk : place = k
      · subst hk
        obtain rfl : l = m := Option.some.inj (found.symm.trans hm)
        exact ⟨m', by simp [(List.getElem?_eq_some_iff.mp hm).1], grows⟩
      · exact ⟨l, by rw [List.getElem?_set_ne hk, found], .refl l⟩
  | new m up idle =>
      have hlt := (List.getElem?_eq_some_iff.mp found).1
      exact ⟨l, by rw [List.getElem?_append_left hlt, found], .refl l⟩

theorem LatchesChange.length_le {latches latches' : List Latch}
    (h : LatchesChange latches latches') : latches.length ≤ latches'.length := by
  cases h <;> simp

theorem PoolsChange.length_le {pools pools' : List Pool} (h : PoolsChange pools pools') :
    pools.length ≤ pools'.length := by
  cases h <;> simp

end Latches

end WorkerPool
