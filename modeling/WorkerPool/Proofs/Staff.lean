import WorkerPool.Proofs.Urgency

/-! The workers of a pool. A pool has a worker for each of its flags, or the step that makes it is
going to start one. Whoever waits for no turn and is a worker has ended, which it does only when its
pool is down, or sleeps before the ring, or is inside a function that it performs for its pool: a
call that such a function makes comes back to the function, so a worker that sleeps or waits in a
call is inside as well. -/

namespace WorkerPool

variable {α : Type}

/-- The thread is a worker of the pool at `p`. -/
def Who.worksFor (p : Nat) : Who → Bool
  | .worker q _ => q == p
  | .step _ => false

theorem Who.worksFor_iff {p : Nat} {who : Who} :
    who.worksFor p = true ↔ ∃ i, who = .worker p i := by
  cases who <;> simp [worksFor]

namespace Op

/-- Whether the operation is going to start the worker `i` of the pool at `p`. -/
def spawns (p i : Nat) : Op α → Nat
  | .spawn q k _ => if q = p ∧ k ≤ i then 1 else 0
  | _ => 0

/-- Whether the operation is a function of an item or of a continuation that has been called and has
not returned. -/
def inside : Op α → Bool
  | .code (.item ..) _ (some _) _ | .code (.latch _) _ (some _) _ => true
  | _ => false

/-- A worker that reports for duty counts on the latch of its pool, and performs no continuation. -/
def OnDuty (s : Store α) : Op α → List (Op α) → Prop
  | .latch l (.count _) _, [.work p _ (.receive _)] =>
    ∃ pool, s.pools[p]? = some pool ∧ pool.started = l
  | .latch _ (.running ..) _, [.work _ _ (.receive _)] => False
  | _, _ => True

/-- The operation neither counts on a latch nor performs a continuation. -/
def Mute : Op α → Prop
  | .latch _ (.count _) _ | .latch _ (.running ..) _ => False
  | _ => True

/-- The operation says that the worker is about to take an item. -/
def Receives : Op α → Prop
  | .work _ _ (.receive _) => True
  | _ => False

theorem spawns_wake (p i : Nat) (op : Op α) : op.wake.spawns p i = op.spawns p i := by
  cases op with
  | submit sub phase => cases phase <;> rfl
  | work q j phase => cases phase <;> rfl
  | _ => rfl

theorem OnDuty.of_mute {s : Store α} {op : Op α} (mute : op.Mute) (rest : List (Op α)) :
    op.OnDuty s rest := by
  unfold OnDuty
  split
  · exact mute.elim
  · exact mute.elim
  · trivial

theorem along_of_mute {s : Store α} {ops : List (Op α)} (mute : ∀ op ∈ ops, op.Mute)
    (behind : List (Op α)) : Along (OnDuty s) ops behind :=
  along_of_forall (fun op hop rest => .of_mute (mute op hop) rest) behind

theorem OnDuty.of_cons {s : Store α} (op : Op α) {next : Op α} (other : ¬next.Receives)
    (rest : List (Op α)) : op.OnDuty s (next :: rest) := by
  unfold OnDuty
  split
  · rename_i hcons
    obtain ⟨rfl, -⟩ := List.cons.inj hcons
    exact absurd trivial other
  · rename_i hcons
    obtain ⟨rfl, -⟩ := List.cons.inj hcons
    exact absurd trivial other
  · trivial

theorem onDuty_running {s : Store α} {l : Nat} {job : Job} {succeeded : Bool} {waiter : Waiter}
    {rest : List (Op α)} : OnDuty s (.latch l (.running job succeeded) waiter) rest ↔
      ∀ p i call, rest ≠ [.work p i (.receive call)] := by
  constructor
  · rintro duty p i call rfl
    exact duty
  · intro other
    unfold OnDuty
    split
    · rename_i hop
      cases hop
    · exact other _ _ _ rfl
    · trivial

theorem OnDuty.wake {s : Store α} {op : Op α} {rest : List (Op α)} (duty : op.OnDuty s rest) :
    op.wake.OnDuty s rest := by
  cases op with
  | latch l call waiter => cases call <;> exact duty
  | submit sub phase => exact .of_mute (by cases phase <;> trivial) rest
  | work p i phase => exact .of_mute (by cases phase <;> trivial) rest
  | _ => exact duty

theorem OnDuty.imp {s s' : Store α} (started : ∀ (p : Nat) (pool : Pool), s.pools[p]? = some pool →
      ∃ pool', s'.pools[p]? = some pool' ∧ pool'.started = pool.started) {op : Op α}
    {rest : List (Op α)} (duty : op.OnDuty s rest) : op.OnDuty s' rest := by
  unfold OnDuty at duty ⊢
  split
  · obtain ⟨pool, found, rfl⟩ := duty
    exact started _ pool found
  · exact duty
  · trivial

/-- What ends in something else does not report for duty. -/
theorem along_onDuty {s : Store α} {ops : List (Op α)} (other : ∀ op ∈ ops, ¬op.Receives)
    {last : Op α} (plain : ¬last.Receives) (mute : last.Mute) (behind : List (Op α)) :
    Along (OnDuty s) (ops ++ [last]) behind := by
  induction ops with
  | nil => exact ⟨.of_mute mute _, trivial⟩
  | cons op ops ih =>
      refine ⟨?_, ih fun op hop => other op (List.mem_cons_of_mem _ hop)⟩
      cases ops with
      | nil => exact .of_cons op plain _
      | cons next ops =>
          exact .of_cons op (other next (List.mem_cons_of_mem _ List.mem_cons_self)) _

theorem Settles.not_receives {op : Op α} (settles : op.Settles) : ¬op.Receives := by
  cases settles <;> exact id

theorem Plain.spawns {op : Op α} (h : op.Plain) (p i : Nat) : op.spawns p i = 0 := by
  cases op with
  | spawn q k name => exact h.elim
  | _ => rfl

theorem Lands.spawns {payload : Payload} {old new : List (Op α)} {notes : List Entry}
    (lands : Op.Lands payload old new notes) (p i : Nat) : (old.map (Op.spawns p i)).sum = 0 := by
  cases lands <;> simp [Op.spawns]

theorem Before.steps_of_construct {who : Who} {construction : Construction} {succeeded : Bool}
    {rest : List (Op α)} (before : Before who (.construct construction succeeded) rest) :
    who.Steps := by
  cases before with
  | constructLatch steps | constructBatch steps => exact steps

/-- A worker that has a panic to pass on is inside. -/
theorem Raises.inside {p i : Nat} {op : Op α} {rest : List (Op α)} (raises : op.Raises)
    (stack : Leads (.worker p i) (op :: rest) []) : (op :: rest).any Op.inside = true := by
  obtain ⟨above, old, new, notes, tail, hsplit, loose, lands, hend, -⟩ :=
    unwind_eq (.text "") raises stack
  rw [hsplit, leads_append, leads_append] at stack
  rw [hsplit]
  cases lands with
  | nowhere => exact (hend rfl).2.elim
  | item | finale => simp [Op.inside]
  | batch | latchMade => exact stack.1.2.2.1.steps_of_construct.elim

/-- A worker that submits is inside. -/
theorem AfterSubmission.inside {p i : Nat} {sub : Submission} {rest : List (Op α)}
    (after : AfterSubmission (.worker p i) sub rest) (stack : Leads (.worker p i) rest []) :
    rest.any Op.inside = true := by
  cases after with
  | step _ _ _ steps => exact steps.elim
  | function _ origin position current later rest =>
      exact Raises.inside (.code origin position current later) stack

/-- A worker that cannot take a turn sleeps before the ring, or is inside. -/
theorem Waits.worker {p i : Nat} {op : Op α} {rest : List (Op α)} (waits : op.Waits)
    (stack : Leads (.worker p i) (op :: rest) []) :
    (op = .work p i (.receive (.receive .asleep)) ∧ rest = []) ∨
      (op :: rest).any Op.inside = true := by
  have before := stack.1
  rw [List.append_nil] at before
  cases waits with
  | inside origin position program later =>
      exact .inr (Raises.inside (.code origin position program later) stack)
  | joining q j => exact .inr (Raises.inside (.join q j true) stack)
  | monitor | channel => cases before with | _ steps => exact steps.elim
  | asleep op bell sleeps =>
      cases before with
      | work q j phase self proper =>
          cases self
          cases phase with
          | receive call =>
              cases call with
              | receive stage =>
                  cases stage with
                  | asleep => exact .inl ⟨rfl, rfl⟩
                  | arriving | woken => cases sleeps
              | announce => cases sleeps
              | _ => exact proper.elim
          | _ => cases sleeps
      | submit sub phase proper fits after | waitRefused _ _ sub _ _ after =>
          refine .inr ?_
          rw [List.any_cons, after.inside stack.2, Bool.or_true]
      | command steps | monitor steps | channel steps | waitCaller steps | waitTicket steps
      | waitReady steps | awaitIdle steps => exact steps.elim
      | _ => cases sleeps

end Op

section Deeds

variable {around : Around} {s : Store α} {who : Who} {e : Effect α}

open Op (Along OnDuty Mute along_onDuty along_of_mute)

/-- What the making of a pool leaves behind. -/
theorem Deed.of_made {op : Op α} (deed : Deed around s who op e) {pool : Pool}
    (made : e.store.pools[s.pools.length]? = some pool) :
    pool.started = s.latches.length ∧
      e.store.latches = s.latches ++ [Latch.expecting pool.threads none] ∧
      ∃ name, e.ops = [.spawn s.pools.length 0 name] := by
  have hlt := (List.getElem?_eq_some_iff.mp made).1
  cases deed with
  | poolMade command name settings capacity threads =>
      simp only [List.getElem?_concat_length, Option.some.injEq] at made
      subst made
      exact ⟨rfl, by simp [Pool.threads], name, rfl⟩
  | commanded command eases => simp [eases.pools] at hlt
  | acted origin position action rest later eases => simp [eases.pools] at hlt
  | handed ticket name same => simp [same.1] at hlt
  | _ => simp [Store.setMonitor, Store.setChannel] at hlt

theorem Command.Leaves.onDuty {ops : List (Op α)} (leaves : Command.Leaves s ops) {s' : Store α} :
    Along (OnDuty s') ops [] := by
  cases leaves with
  | count place failed answer named =>
      exact ⟨.of_cons _ (by exact id) _, trivial, trivial⟩
  | _ => exact along_of_mute (by simp [Mute, Op.perform]) _

theorem Submission.onDuty_refusal (sub : Submission) (item : Item) (behind : List (Op α)) :
    Along (OnDuty s) (Op.discard sub.pool item ++ sub.afterRefusal) behind := by
  have hdiscard : ∀ op ∈ (Op.discard sub.pool item : List (Op α)), ¬op.Receives :=
    fun op hop => (Op.discard_settles _ _ op hop).not_receives
  unfold afterRefusal
  split
  · rw [← List.append_assoc]
    refine along_onDuty (fun op hop => ?_) id (by trivial) behind
    rcases List.mem_append.mp hop with hop | hop
    · exact hdiscard op hop
    · obtain ⟨job, -, rfl⟩ := List.mem_map.mp hop
      exact id
  · exact along_onDuty hdiscard id (by trivial) behind

/-- Whoever reports for duty counts on the latch of its pool, which carries no continuation. -/
theorem Deed.onDuty {op : Op α} (deed : Deed around s who op e) {rest : List (Op α)}
    (before : op.Before who rest)
    (bare : ∀ (p : Nat) (pool : Pool) (latch : Latch), s.pools[p]? = some pool →
      s.latches[pool.started]? = some latch → latch.value.continuation = none)
    (duty : op.OnDuty s rest) : Along (OnDuty s) e.ops rest := by
  cases deed with
  | commanded command eases leaves plain =>
      cases before with
      | command steps => exact leaves.onDuty
  | acted origin position action program later eases leaves plain =>
      refine along_onDuty (fun op hop => ?_) id (by trivial) rest
      revert op
      cases leaves <;> simp [Op.Receives, Op.perform]
  | jobAdded submits | freeJobAdded submits =>
      refine along_of_mute ?_ _
      cases submits <;> simp [Mute]
  | monitorTurned place call left | channelTurned place call left =>
      refine along_of_mute ?_ _
      rcases left with rfl | ⟨call, rfl⟩ <;> simp [Mute]
  | countStarted place l job found counts last held sound =>
      refine ⟨trivial, Op.onDuty_running.mpr ?_, trivial⟩
      rintro p i call rfl
      obtain ⟨pool, hpool, rfl⟩ := duty
      rw [bare p pool l hpool found] at held
      cases held
  | counted | continued | left =>
      refine along_of_mute ?_ _
      dsimp only
      split <;> simp [Mute]
  | poolReady place l stage pool q name succeeded found awake verdict present =>
      refine along_of_mute ?_ _
      cases s.names.pools.find? name <;> simp [Mute]
  | accepted sub pool found through hands plain =>
      refine along_of_mute ?_ _
      cases hands <;> simp [Mute]
  | refused sub pool found refuses plain =>
      refine along_of_mute ?_ _
      cases refuses <;> simp [Mute]
  | refusing sub pool item found => exact sub.onDuty_refusal item rest
  | workStarted place index pool found =>
      cases before with
      | work => exact ⟨⟨pool, found, rfl⟩, trivial, trivial⟩
  | jobRan place index pool item found | jobBroke place index pool item payload found =>
      exact along_onDuty (fun op hop => (Op.complete_settles _ _ op hop).not_receives)
        id (by trivial) rest
  | abandoned place pool items found =>
      exact along_onDuty (fun op hop => (Op.flatMap_discard_settles _ _ op hop).not_receives)
        id (by trivial) rest
  | _ => exact along_of_mute (by simp [Mute, Op.perform]) _

theorem Op.Lands.onDuty {payload : Payload} {old new : List (Op α)} {notes : List Entry}
    (lands : Op.Lands payload old new notes) {rest : List (Op α)}
    (duty : Along (OnDuty s) old rest) : Along (OnDuty s) new rest := by
  cases lands with
  | nowhere => exact trivial
  | finale position current later l job =>
      exact ⟨Op.onDuty_running.mpr (Op.onDuty_running.mp duty.2.1), trivial⟩
  | item | batch | latchMade => exact ⟨trivial, trivial⟩

/-- Who is about to start a worker goes on to, or starts it. -/
theorem Deed.spawns {op : Op α} (deed : Deed around s who op e) {p i : Nat} {pool : Pool}
    (found : s.pools[p]? = some pool) (within : i < pool.threads) :
    op.spawns p i ≤ (e.ops.map (Op.spawns p i)).sum +
      (e.births.map fun u => if u.who = .worker p i then 1 else 0).sum := by
  cases deed with
  | jobAdded submits | freeJobAdded submits => cases submits <;> exact Nat.zero_le _
  | spawned place index name q hq inside =>
      by_cases hp : place = p
      · subst hp
        simp only [Op.spawns, true_and, List.map_singleton, List.sum_singleton, Who.worker.injEq]
        split <;> split <;> split <;> omega
      · simp [Op.spawns, hp]
  | spawnedAll place index name q hq outside =>
      have hzero : Op.spawns p i (.spawn place index name : Op α) = 0 := by
        refine if_neg ?_
        rintro ⟨rfl, hle⟩
        obtain rfl := Option.some.inj (found.symm.trans hq)
        omega
      rw [hzero]
      exact Nat.zero_le _
  | _ => exact Nat.zero_le _

end Deeds

namespace World

/-- How many threads the worker `i` of the pool at `p` is. -/
def crew (w : World α) (p i : Nat) : Nat :=
  w.total fun who _ => if who = .worker p i then 1 else 0

/-- How many workers of the pool at `p` are inside a function that has not returned. -/
def insiders (w : World α) (p : Nat) : Nat :=
  w.threads.countP fun t => t.who.worksFor p && t.ops.any Op.inside

/-- Every pool has its workers, or somebody is going to start them. -/
def Staffed (w : World α) : Prop :=
  ∀ p pool, w.store.pools[p]? = some pool → 0 < pool.threads ∧
    ∀ i < pool.threads, 0 < w.crew p i + w.load fun _ => Op.spawns p i

variable {w v : World α} {index : Nat} {t : Thread α} {old tail : List (Op α)} {e : Effect α}

theorem Took.staffed (took : w.Took v index t old tail e) (h : w.Staffed) : v.Staffed := by
  intro p pool' found'
  have hcounts : ∀ i, ∃ r r', w.crew p i = r ∧
      (w.load fun _ => Op.spawns p i) = (old.map (Op.spawns p i)).sum + r' ∧
      v.crew p i = (e.births.map fun u => if u.who = .worker p i then 1 else 0).sum + r ∧
      (v.load fun _ => Op.spawns p i) = (e.ops.map (Op.spawns p i)).sum + r' := by
    intro i
    obtain ⟨r, hcrew, hcrew'⟩ := took.total (fun who _ => if who = .worker p i then 1 else 0)
      fun _ _ _ => rfl
    obtain ⟨r', hload, hload'⟩ := took.load_of_start (fun _ => Op.spawns p i)
      (fun _ op => op.spawns_wake p i) fun _ _ _ => rfl
    exact ⟨_, r', hcrew, hload, by rw [crew, hcrew']; omega, hload'⟩
  obtain ⟨pool, found, grows⟩ | ⟨rfl, fresh⟩ := took.act.pools.origin (took.store ▸ found')
  · obtain ⟨some, staff⟩ := h p pool found
    rw [grows.threads]
    refine ⟨some, fun i hi => ?_⟩
    obtain ⟨r, r', hcrew, hload, hcrew', hload'⟩ := hcounts i
    have hbefore := staff i hi
    rw [hcrew', hload']
    cases took.act with
    | deed deed quiet =>
        have hdeed := deed.spawns found hi
        rw [List.map_singleton, List.sum_singleton] at hload
        omega
    | broke payload loose lands uncaught =>
        rw [List.map_append, List.sum_append, lands.spawns,
          sum_map_eq_zero fun op hop => (loose op hop).plain.spawns p i] at hload
        omega
  · refine ⟨fresh.threads, fun i hi => ?_⟩
    obtain ⟨r, r', -, -, -, hload'⟩ := hcounts i
    cases took.act with
    | deed deed quiet =>
        obtain ⟨-, -, name, hops⟩ := deed.of_made (took.store ▸ found')
        rw [hload', hops]
        simp only [List.map_singleton, List.sum_singleton, Op.spawns, Nat.zero_le, and_self, if_true]
        omega
    | broke payload loose lands uncaught =>
        have := (List.getElem?_eq_some_iff.mp found').1
        rw [took.store] at this
        exact absurd this (Nat.lt_irrefl _)

theorem Reachable.staffed {w : World α} (h : w.Reachable) : w.Staffed := by
  refine h.induct (P := Staffed) (fun cells p pool found => nomatch found)
    (fun w command _ ih p pool found => ?_) fun w v index t old tail e _ took ih => took.staffed ih
  obtain ⟨some, staff⟩ := ih p pool found
  refine ⟨some, fun i hi => ?_⟩
  have hcrew : w.crew p i ≤ (w.issue command).crew p i := by
    simp [crew, World.total, issue]
  have := staff i hi
  rw [load_issue]
  omega

/-- Whoever reports for duty counts on the latch of its pool, and these latches have nothing to
perform. -/
structure Dutiful (w : World α) : Prop where
  ops : ∀ t ∈ w.threads, Op.Along (Op.OnDuty w.store) t.ops []
  bare : ∀ (p : Nat) (pool : Pool) (latch : Latch), w.store.pools[p]? = some pool →
    w.store.latches[pool.started]? = some latch → latch.value.continuation = none

theorem Took.dutiful (reachable : w.Reachable) (took : w.Took v index t old tail e)
    (h : w.Dutiful) : v.Dutiful := by
  have stack := took.leads reachable.orderly
  have started : ∀ (p : Nat) (pool : Pool), w.store.pools[p]? = some pool →
      ∃ pool', v.store.pools[p]? = some pool' ∧ pool'.started = pool.started := by
    intro p pool found
    obtain ⟨pool', found', grows⟩ := took.act.pools.grows found
    exact ⟨pool', took.store ▸ found', grows.started⟩
  constructor
  · refine took.along (P := fun _ => Op.OnDuty w.store) (Q := fun _ => Op.OnDuty v.store)
      (fun _ _ _ duty => duty.wake) (fun _ _ _ duty => duty.imp started) h.ops (fun duty => ?_)
      fun _ _ => trivial
    refine Op.Along.imp (fun _ _ duty => Op.OnDuty.imp started duty) ?_
    cases took.act with
    | deed deed quiet => exact deed.onDuty stack.1.1 h.bare duty.1
    | broke payload loose lands uncaught =>
        rw [Op.along_append] at duty
        exact lands.onDuty duty.2
  · intro p pool' latch' found' hlatch'
    obtain ⟨pool, found, grows⟩ | ⟨rfl, fresh⟩ := took.act.pools.origin (took.store ▸ found')
    · have there := reachable.known.store.started p pool found
      obtain ⟨latch, hlatch, lgrows⟩ :=
        took.act.latches.grows (List.getElem?_eq_getElem there)
      rw [took.store, grows.started, hlatch, Option.some.injEq] at hlatch'
      have bare := h.bare p pool _ found (List.getElem?_eq_getElem there)
      rcases lgrows.held with held | held
      · rw [← hlatch', held, bare]
      · rw [← hlatch', held]
    · cases took.act with
      | deed deed quiet =>
          obtain ⟨hstarted, hlatches, -⟩ := deed.of_made (took.store ▸ found')
          rw [took.store, hstarted, hlatches, List.getElem?_concat_length,
            Option.some.injEq] at hlatch'
          rw [← hlatch']
          rfl
      | broke payload loose lands uncaught =>
          have := (List.getElem?_eq_some_iff.mp found').1
          rw [took.store] at this
          exact absurd this (Nat.lt_irrefl _)

theorem Reachable.dutiful {w : World α} (h : w.Reachable) : w.Dutiful := by
  refine h.induct (P := Dutiful) (fun cells => ⟨by simp [World.start], by simp [World.start]⟩)
    (fun w command _ ih => ⟨fun t ht => ?_, ih.bare⟩)
    fun w v index t old tail e reachable took ih => took.dutiful reachable ih
  rcases List.mem_append.mp ht with ht | ht
  · exact ih.ops t ht
  · obtain rfl := List.mem_singleton.mp ht
    exact ⟨trivial, trivial⟩

/-- A worker that is there. -/
theorem exists_of_crew {p i : Nat} (h : 0 < w.crew p i) : ∃ t ∈ w.threads, t.who = .worker p i := by
  by_contra none
  push Not at none
  have : w.crew p i = 0 := sum_map_eq_zero fun t ht => if_neg (none t ht)
  omega

theorem insiders_pos {p i : Nat} (ht : t ∈ w.threads) (who : t.who = .worker p i)
    (inside : t.ops.any Op.inside = true) : 0 < w.insiders p :=
  List.countP_pos_iff.mpr ⟨t, ht, by simp [who, Who.worksFor, inside]⟩

/-! ### Where no thread can take a turn -/

/-- All the workers of a pool have been started. -/
theorem Quiescent.worker (quiet : w.Quiescent) (h : w.Reachable) {p i : Nat} {pool : Pool}
    (found : w.store.pools[p]? = some pool) (within : i < pool.threads) :
    ∃ t ∈ w.threads, t.who = .worker p i := by
  have started : (w.load fun _ => Op.spawns p i) = 0 := by
    refine load_eq_zero _ fun t ht op hop => ?_
    by_contra spawns
    refine quiet.not_urgent h ht hop ?_
    unfold Op.spawns at spawns
    split at spawns
    · trivial
    · exact absurd rfl spawns
  have := (h.staffed p pool found).2 i within
  exact exists_of_crew (by omega)

/-- A worker has ended, sleeps before the ring, or is inside. -/
theorem Quiescent.worker_cases (quiet : w.Quiescent) (h : w.Reachable) (ht : t ∈ w.threads)
    {p i : Nat} (who : t.who = .worker p i) :
    (t.ops = [] ∧ w.store.IsDown p) ∨
      (t.ops = [.work p i (.receive (.receive .asleep))] ∧ ¬w.store.IsDown p ∧
        w.store.ring p = []) ∨
      t.ops.any Op.inside = true := by
  cases hops : t.ops with
  | nil => exact .inl ⟨rfl, h.closed.ended t ht p i who hops⟩
  | cons op rest =>
      have stack := h.orderly.ordered t ht
      rw [who, hops] at stack
      refine .inr (((quiet.waits h ht hops).worker stack).imp_left ?_)
      rintro ⟨rfl, rfl⟩
      obtain ⟨pool, found, up, empty⟩ := quiet.held h ht hops rfl
      refine ⟨rfl, ?_, ?_⟩
      · rintro ⟨pool', found', down⟩
        obtain rfl := Option.some.inj (found.symm.trans found')
        rw [up] at down
        cases down
      · rw [Store.ring_eq found]
        exact (h.orderly.rings p pool found).isEmpty_iff.mp empty

end World

end WorkerPool
