import WorkerPool.Proofs.Charges

/-! What a latch still expects. Of the latch of a ticket every completion that remains is somebody's
to count: it stands for an item in a ring or in somebody's hands, for a member that is still to be
submitted, or for a count that is about to be made. So the latch comes to zero with the last of
these, not before it and not after it, and no count is lost. A latch whose continuation is being
performed waits for that one count alone. -/

namespace WorkerPool

variable {α : Type}

/-- The item reports to the latch. -/
def Item.tells (l : Nat) (item : Item) : Bool :=
  item.latch == some l

namespace Op

/-- How many completions an operation is to bring about that the latch `l` expects, its continuation
aside. -/
def stakes (l : Nat) : Op α → Nat
  | .submit _ .refused => 0
  | .submit sub phase =>
    if sub.ticket.latch = some l then sub.rest.length + phase.item?.toList.length else 0
  | .latch k (.count _) _ => if k = l then 1 else 0
  | .work _ _ (.receive (.announce (.received (some item)))) | .work _ _ (.begin item)
  | .work _ _ (.running item _) => if item.tells l then 1 else 0
  | .shutDown _ (.call (.announce (.drained items))) => items.countP (Item.tells l)
  | _ => 0

/-- Whether an operation counts for the continuation of the latch `l`, which is being performed. -/
def runs (l : Nat) : Op α → Nat
  | .latch k (.running _ _) _ => if k = l then 1 else 0
  | _ => 0

theorem stakes_wake (l : Nat) (op : Op α) : op.wake.stakes l = op.stakes l := by
  cases op with
  | submit sub phase =>
      cases phase with
      | send call => cases call <;> rfl
      | _ => rfl
  | latch k call waiter => cases call <;> rfl
  | work q i phase =>
      cases phase with
      | receive call => cases call <;> rfl
      | _ => rfl
  | _ => rfl

theorem runs_wake (l : Nat) (op : Op α) : op.wake.runs l = op.runs l := by
  cases op with
  | latch k call waiter => cases call <;> rfl
  | submit sub phase => cases phase <;> rfl
  | work q i phase => cases phase <;> rfl
  | _ => rfl

theorem Plain.stakes {op : Op α} (h : op.Plain) (l : Nat) : op.stakes l = 0 := by
  unfold Op.stakes
  split
  all_goals first | exact h.elim | rfl

theorem Plain.runs {op : Op α} (h : op.Plain) (l : Nat) : op.runs l = 0 := by
  unfold Op.runs
  split
  · exact h.elim
  · rfl

theorem Free.stakes {s : Store α} {op : Op α} (h : op.Free s) {l : Nat}
    (nameless : ¬s.NamesLatch l) :
    op.stakes l = 0 := by
  rcases h with h | ⟨k, failed, rfl, named⟩
  · exact h.stakes l
  · refine if_neg ?_
    rintro rfl
    exact nameless named

theorem Free.runs {s : Store α} {op : Op α} (h : op.Free s) (l : Nat) : op.runs l = 0 := by
  rcases h with h | ⟨k, failed, rfl, -⟩
  · exact h.runs l
  · rfl

theorem Settles.runs {op : Op α} (h : op.Settles) (l : Nat) : op.runs l = 0 := by
  cases h <;> rfl

/-- A worker has no more at stake than the items in its hands. -/
theorem stakes_work_le (l p i : Nat) (phase : WorkerPhase) :
    stakes l (.work p i phase : Op α) ≤ phase.items.countP (Item.tells l) := by
  cases phase with
  | receive call =>
      cases call with
      | announce reply =>
          cases reply with
          | received item => cases item <;> simp [stakes, WorkerPhase.items, List.countP_cons]
          | _ => simp [stakes, WorkerPhase.items]
      | _ => simp [stakes, WorkerPhase.items]
  | _ => simp [stakes, WorkerPhase.items, List.countP_cons]

theorem stakes_shutDown (l p : Nat) (phase : ShutdownPhase) :
    stakes l (.shutDown p phase : Op α) = phase.items.countP (Item.tells l) := by
  cases phase with
  | call call =>
      cases call with
      | announce reply => cases reply <;> rfl
      | _ => rfl
  | _ => rfl

theorem sum_complete_stakes (item : Item) (failed : Bool) (l : Nat) :
    ((complete item.latch failed : List (Op α)).map (stakes l)).sum =
      if item.tells l then 1 else 0 := by
  rw [Item.tells]
  cases item.latch with
  | none => rfl
  | some k =>
      show (if k = l then 1 else 0) = _
      simp

theorem sum_discard_stakes (p : Nat) (item : Item) (l : Nat) :
    ((discard p item : List (Op α)).map (stakes l)).sum = if item.tells l then 1 else 0 := by
  rw [discard, List.map_append, List.sum_append, sum_complete_stakes]
  rfl

theorem sum_flatMap_discard_stakes (p : Nat) (items : List Item) (l : Nat) :
    ((items.flatMap (discard p) : List (Op α)).map (stakes l)).sum =
      items.countP (Item.tells l) := by
  induction items with
  | nil => rfl
  | cons item items ih =>
      rw [List.flatMap_cons, List.map_append, List.sum_append, ih, sum_discard_stakes,
        List.countP_cons, Nat.add_comm]

end Op

/-- A refused submission has the members behind the refused one to count. -/
theorem Submission.sum_afterRefusal_stakes {sub : Submission} {phase : SubmissionPhase}
    (fits : sub.Fits phase) (l : Nat) :
    ((sub.afterRefusal : List (Op α)).map (Op.stakes l)).sum =
      if sub.ticket.latch = some l then sub.rest.length else 0 := by
  unfold afterRefusal
  split
  · rename_i id size waitable latch hticket
    rw [hticket, List.map_append, List.sum_append, List.map_singleton, List.map_const']
    simp [Ticket.latch, Op.stakes]
  · rename_i hbatch
    show 0 = _
    split
    · rename_i hlatch
      cases hticket : sub.ticket with
      | job id latch => rw [(fits.alone id latch hticket).1]; rfl
      | batch id size waitable latch =>
          rw [hticket] at hlatch
          obtain rfl : latch = some l := hlatch
          exact absurd hticket (hbatch id size waitable l)
    · rfl

theorem Op.Submits.stakes {op : Op α} {made : List (Op α)} {asker : Asker}
    (submits : op.Submits made asker) (l : Nat) :
    (op.stakes l = 0 ∧ op.runs l = 0) ∧
      (made.map (Op.stakes l)).sum = 0 ∧ (made.map (Op.runs l)).sum = 0 := by
  cases submits <;> exact ⟨⟨rfl, rfl⟩, rfl, rfl⟩

namespace Store

/-- How many items in the rings report to the latch `l`. -/
def ringStakes (s : Store α) (l : Nat) : Nat :=
  (s.pools.map fun pool => pool.intake.value.toList.countP (Item.tells l)).sum

theorem ringStakes_of_pools {s s' : Store α} (h : s'.pools = s.pools) (l : Nat) :
    s'.ringStakes l = s.ringStakes l := by
  rw [ringStakes, h, ringStakes]

/-- A turn on a pool changes what is at stake in its own ring. -/
theorem ringStakes_set {s s' : Store α} {place : Nat} {pool pool' : Pool}
    (found : s.pools[place]? = some pool) (h : s'.pools = s.pools.set place pool') (l : Nat) :
    s'.ringStakes l + pool.intake.value.toList.countP (Item.tells l) =
      s.ringStakes l + pool'.intake.value.toList.countP (Item.tells l) := by
  obtain ⟨r, hbefore, hafter⟩ := World.sum_map_set
    (fun pool : Pool => pool.intake.value.toList.countP (Item.tells l)) found pool'
  rw [ringStakes, h, hafter, ringStakes, hbefore]
  omega

theorem ringStakes_set_same {s s' : Store α} {place : Nat} {pool pool' : Pool}
    (found : s.pools[place]? = some pool) (h : s'.pools = s.pools.set place pool')
    (same : pool'.intake.value = pool.intake.value) (l : Nat) :
    s'.ringStakes l = s.ringStakes l := by
  have := ringStakes_set found h l
  rw [same] at this
  omega

end Store

/-- How a latch stands while `runs` threads perform its continuation. -/
structure Latch.Composed (l : Latch) (runs : Nat) : Prop where
  runs : runs = if l.value.finishing then 1 else 0
  last : l.value.finishing = true → l.value.remaining = 1 ∧ l.value.continuation = none
  held : l.value.continuation ≠ none → 0 < l.value.remaining

/-- A latch that nobody has taken away and that expects so many completions. -/
structure Latch.Tallied (l : Latch) (stakes : Nat) : Prop where
  up : l.terminated = false
  remaining : l.value.remaining = stakes

/-- Nobody but the pool of its ticket has to do with the latch `l`. -/
structure Op.Guards (s : Store α) (l : Nat) (op : Op α) : Prop where
  nameless : ¬s.NamesLatch l
  unstarted : ∀ (p : Nat) (pool : Pool), s.pools[p]? = some pool → pool.started ≠ l
  spared : ∀ waiter, op ≠ .latch l .terminate waiter

/-- A latch that is expected to be counted on counts. -/
theorem Latch.Composed.counts {l : Latch} {runs stakes : Nat} (composed : l.Composed runs)
    (tallied : l.Tallied (stakes + runs)) (staked : 0 < stakes) : l.counts = true := by
  have hruns := composed.runs
  have hremaining := tallied.remaining
  cases hfinishing : l.value.finishing with
  | false =>
      have : l.value.remaining ≠ 0 := by omega
      simp [Latch.counts, this, hfinishing, tallied.up]
  | true =>
      have hlast := (composed.last hfinishing).1
      rw [hfinishing, if_pos rfl] at hruns
      omega

/-- At zero the continuation has been used up, and nobody is performing it. -/
theorem Latch.Composed.of_zero {l : Latch} {runs : Nat} (composed : l.Composed runs)
    (zero : l.value.remaining = 0) :
    l.value.continuation = none ∧ l.value.finishing = false := by
  constructor
  · by_contra held
    have := composed.held held
    omega
  · cases hfinishing : l.value.finishing with
    | false => rfl
    | true =>
        have := (composed.last hfinishing).1
        omega

section Deeds

variable {around : Around} {s : Store α} {who : Who} {old : List (Op α)} {e : Effect α}

/-- Only a call on a latch changes it. -/
theorem Deed.latch_kept {op : Op α} (deed : Deed around s who op e) {l : Nat}
    (there : l < s.latches.length) (apart : ∀ call waiter, op ≠ .latch l call waiter) :
    e.store.latches[l]? = s.latches[l]? := by
  have hset : ∀ {k : Nat} {m m' : Latch} {call : Latch.Call} {waiter : Waiter},
      s.latches[k]? = some m → op = .latch k call waiter →
        (s.setLatch k m').latches[l]? = s.latches[l]? := by
    intro k m m' call waiter found hop
    rw [Store.getElem?_setLatch found, if_neg]
    rintro rfl
    exact apart call waiter hop
  cases deed with
  | commanded command eases => rw [eases.latches]
  | acted origin position action rest later eases => rw [eases.latches]
  | handed ticket name same => rw [same.2.1]
  | latchMade | poolMade | jobAdded | batchAdded | latchSettled | batchSettled =>
      exact List.getElem?_append_left there
  | countSkipped k m failed job found => exact hset found rfl
  | countStarted k m job found => exact hset found rfl
  | counted k m failed found => exact hset found rfl
  | continued k m job succeeded found => exact hset found rfl
  | latchTerminated k m found => exact hset found rfl
  | _ => rfl

/-- Only a call on a latch has to do with the performance of its continuation. -/
theorem Deed.runs_kept {op : Op α} (deed : Deed around s who op e) {l : Nat}
    (apart : ∀ call waiter, op ≠ .latch l call waiter) :
    (e.ops.map (Op.runs l)).sum = op.runs l := by
  cases deed with
  | commanded command eases leaves plain =>
      exact sum_map_eq_zero fun op hop => (leaves.free op hop).runs l
  | acted origin position action program later eases leaves plain =>
      rw [List.map_append, List.sum_append,
        sum_map_eq_zero fun op hop => (leaves.free op hop).runs l]
      rfl
  | jobAdded submits | freeJobAdded submits =>
      obtain ⟨⟨-, hrun⟩, -, hmade⟩ := submits.stakes l
      rw [List.map_append, List.sum_append, hmade, hrun]
      rfl
  | monitorTurned place call left | channelTurned place call left =>
      rcases left with rfl | ⟨call, rfl⟩ <;> rfl
  | countStarted k m job found counts last held sound =>
      have hk : k ≠ l := by
        rintro rfl
        exact apart _ _ rfl
      simp [Op.runs, Op.perform, hk]
  | counted | left =>
      dsimp only
      split <;> rfl
  | continued k m job succeeded found =>
      have hk : k ≠ l := by
        rintro rfl
        exact apart _ _ rfl
      rw [Op.runs, if_neg hk]
      dsimp only
      split <;> rfl
  | poolReady place m stage pool q name succeeded found awake verdict present =>
      cases s.names.pools.find? name <;> rfl
  | accepted sub pool found through hands plain =>
      exact sum_map_eq_zero fun op hop => (hands.plain op hop).runs l
  | refused sub pool found refuses plain =>
      exact sum_map_eq_zero fun op hop => (refuses.plain op hop).runs l
  | refusing sub pool item found =>
      rw [List.map_append, List.sum_append,
        sum_map_eq_zero fun op hop => (Op.discard_settles sub.pool item op hop).runs l,
        sum_map_eq_zero fun op hop => (sub.afterRefusal_settles op hop).runs l]
      rfl
  | jobRan place index pool item found =>
      rw [List.map_append, List.sum_append,
        sum_map_eq_zero fun op hop => (Op.complete_settles item.latch false op hop).runs l]
      rfl
  | jobBroke place index pool item payload found =>
      rw [List.map_append, List.sum_append,
        sum_map_eq_zero fun op hop => (Op.complete_settles item.latch true op hop).runs l]
      rfl
  | abandoned place pool items found =>
      rw [List.map_append, List.sum_append,
        sum_map_eq_zero fun op hop => (Op.flatMap_discard_settles place items op hop).runs l]
      rfl
  | _ => rfl

/-- What a latch expects is handed on by every turn but the calls on the latch. -/
theorem Deed.stakes_kept {op : Op α} (deed : Deed around s who op e) (rings : s.RingsValid)
    {rest : List (Op α)} (before : op.Before who rest) {l : Nat} (there : l < s.latches.length)
    (guards : op.Guards s l) (apart : ∀ call waiter, op ≠ .latch l call waiter) :
    (e.ops.map (Op.stakes l)).sum + e.store.ringStakes l = op.stakes l + s.ringStakes l := by
  have hpools : e.store.pools = s.pools → (e.ops.map (Op.stakes l)).sum = op.stakes l →
      (e.ops.map (Op.stakes l)).sum + e.store.ringStakes l = op.stakes l + s.ringStakes l := by
    intro h hops
    rw [hops, Store.ringStakes_of_pools h]
  have hring : ∀ {place : Nat} {pool pool' : Pool}, s.pools[place]? = some pool →
      e.store.pools = s.pools.set place pool' → pool'.intake.value = pool.intake.value →
      (e.ops.map (Op.stakes l)).sum = op.stakes l →
      (e.ops.map (Op.stakes l)).sum + e.store.ringStakes l = op.stakes l + s.ringStakes l := by
    intro place pool pool' found h same hops
    rw [hops, Store.ringStakes_set_same found h same]
  have hmoved : ∀ {place : Nat} {pool : Pool} {ring : Ring Item}, s.pools[place]? = some pool →
      e.store.pools = s.pools.set place { pool with intake := { pool.intake with value := ring } } →
      e.store.ringStakes l + pool.intake.value.toList.countP (Item.tells l) =
        s.ringStakes l + ring.toList.countP (Item.tells l) :=
    fun found h => Store.ringStakes_set found h l
  have hfresh : s.latches.length ≠ l := by omega
  cases deed with
  | commanded command eases leaves plain =>
      exact hpools eases.pools
        (sum_map_eq_zero fun op hop => (leaves.free op hop).stakes guards.nameless)
  | acted origin position action program later eases leaves plain =>
      refine hpools eases.pools ?_
      rw [List.map_append, List.sum_append,
        sum_map_eq_zero fun op hop => (leaves.free op hop).stakes guards.nameless]
      rfl
  | poolMade command name settings capacity threads =>
      simp [Store.ringStakes, Op.stakes, Channel.empty, Ring.toList_empty capacity]
  | jobAdded submits place pool job found waitable =>
      obtain ⟨⟨hop, -⟩, hmade, -⟩ := submits.stakes l
      refine hring found rfl rfl ?_
      rw [List.map_append, List.sum_append, hmade, hop]
      simp [Op.stakes, Ticket.latch, hfresh]
  | freeJobAdded submits place pool job found free =>
      obtain ⟨⟨hop, -⟩, hmade, -⟩ := submits.stakes l
      refine hring found rfl rfl ?_
      rw [List.map_append, List.sum_append, hmade, hop]
      simp [Op.stakes, Ticket.latch]
  | batchAdded command place pool batch ticket found counted ahead =>
      refine hring found rfl rfl ?_
      simp [Op.stakes, Ticket.latch, hfresh]
  | freeBatchAdded command place pool batch ticket found bare free =>
      refine hring found rfl rfl ?_
      simp [Op.stakes, Ticket.latch]
  | emptyBatchAdded command place pool batch job ticket found finale empty =>
      exact hring found rfl rfl rfl
  | batchSettled place pool batch id asker succeeded found =>
      refine hpools rfl ?_
      simp [Op.stakes, Ticket.latch, hfresh]
  | monitorTurned place call left | channelTurned place call left =>
      refine hpools rfl ?_
      rcases left with rfl | ⟨call, rfl⟩ <;> rfl
  | countIgnored k | countSkipped k | countStarted k | counted k =>
      have hk : k ≠ l := by
        rintro rfl
        exact apart _ _ rfl
      refine hpools rfl ?_
      rw [show Op.stakes l (.latch k (.count _) .nobody : Op α) = 0 from if_neg hk]
      first
        | rfl
        | split <;> rfl
  | continued =>
      refine hpools rfl ?_
      dsimp only
      split <;> rfl
  | poolReady place m stage pool q name succeeded found awake verdict present =>
      refine hpools rfl ?_
      cases s.names.pools.find? name <;> rfl
  | left place pool found =>
      refine hring found rfl rfl ?_
      dsimp only
      split <;> rfl
  | accepted sub pool found through hands plain =>
      refine hpools rfl ?_
      rw [sum_map_eq_zero fun op hop => (hands.plain op hop).stakes l]
      simp [Op.stakes, through, SubmissionPhase.item?]
  | refused sub pool found refuses plain =>
      exact hpools rfl (sum_map_eq_zero fun op hop => (refuses.plain op hop).stakes l)
  | memberAdded sub pool job members found ahead =>
      refine hring found rfl rfl ?_
      simp [Op.stakes, ahead, SubmissionPhase.item?]
  | enlisted sub pool item found => exact hring found rfl rfl rfl
  | givenBack sub pool item call found down sends =>
      refine hpools rfl ?_
      rcases sends with rfl | ⟨stage, -, rfl⟩ <;> rfl
  | pushed sub pool item stage found awake up room =>
      have hring := ((rings sub.pool pool found).push room item).2
      have htold := before.fits.latch item rfl
      have hset := hmoved found rfl
      simp only [hring, List.countP_append, List.countP_singleton, Item.tells, htold,
        beq_iff_eq] at hset
      simp only [Op.stakes, SubmissionPhase.item?, Option.toList_none, Option.toList_some,
        List.length_nil, List.length_singleton, List.map_cons, List.map_nil, List.sum_cons,
        List.sum_nil]
      split
      · rename_i hlatch
        rw [if_pos hlatch] at hset
        omega
      · rename_i hlatch
        rw [if_neg hlatch] at hset
        omega
  | refusing sub pool item found =>
      have fits := before.fits
      have htold := fits.latch item rfl
      refine hpools rfl ?_
      rw [List.map_append, List.sum_append, Op.sum_discard_stakes,
        sub.sum_afterRefusal_stakes fits, Item.tells, htold]
      simp only [Op.stakes, SubmissionPhase.item?, Option.toList_some, List.length_singleton,
        beq_iff_eq]
      split
      · omega
      · omega
  | handed ticket name same kept => exact hpools same.1 rfl
  | workStarted place index pool found =>
      have hne := guards.unstarted place pool found
      simp [Op.stakes, hne]
  | taken place index pool stage item ring found awake up valid first capacity =>
      have hset := hmoved found rfl
      simp only [first, List.countP_cons] at hset
      simp only [Op.stakes, List.map_cons, List.map_nil, List.sum_cons, List.sum_nil]
      omega
  | jobStarted place index pool item found =>
      refine hring found rfl rfl ?_
      simp [Op.stakes, Op.perform]
  | jobRan place index pool item found =>
      refine hpools rfl ?_
      rw [List.map_append, List.sum_append, Op.sum_complete_stakes]
      rfl
  | jobBroke place index pool item payload found =>
      refine hpools rfl ?_
      rw [List.map_append, List.sum_append, Op.sum_complete_stakes]
      rfl
  | jobFinished place index pool item succeeded found => exact hring found rfl rfl rfl
  | poolTerminated place pool found => exact hring found rfl rfl rfl
  | drained place pool ring found valid empty capacity =>
      have hset := hmoved found rfl
      simp only [empty, List.countP_nil] at hset
      simp only [Op.stakes, List.map_cons, List.map_nil, List.sum_cons, List.sum_nil]
      omega
  | abandoned place pool items found =>
      refine hpools rfl ?_
      rw [List.map_append, List.sum_append, Op.sum_flatMap_discard_stakes]
      rfl
  | _ => exact hpools rfl rfl

/-- A call on a latch takes as much off it as the call has at stake. -/
theorem Deed.tally_call {l : Nat} {call : Latch.Call} {waiter : Waiter}
    (deed : Deed around s who (.latch l call waiter) e) {latch latch' : Latch}
    (found : s.latches[l]? = some latch) (found' : e.store.latches[l]? = some latch') {b : Nat}
    (composed : latch.Composed (Op.runs l (.latch l call waiter : Op α) + b)) :
    e.store.pools = s.pools ∧ latch'.Composed ((e.ops.map (Op.runs l)).sum + b) ∧
      ∀ a, call ≠ .terminate →
        latch.Tallied (Op.stakes l (.latch l call waiter : Op α) + a +
          (Op.runs l (.latch l call waiter : Op α) + b)) →
        latch'.Tallied ((e.ops.map (Op.stakes l)).sum + a + ((e.ops.map (Op.runs l)).sum + b)) := by
  -- a call that does not count leaves the latch as it is
  have hsame : e.store.latches = s.latches → e.store.pools = s.pools →
      (e.ops.map (Op.runs l)).sum = Op.runs l (.latch l call waiter : Op α) →
      (e.ops.map (Op.stakes l)).sum = Op.stakes l (.latch l call waiter : Op α) →
      e.store.pools = s.pools ∧ latch'.Composed ((e.ops.map (Op.runs l)).sum + b) ∧
        ∀ a, call ≠ .terminate →
          latch.Tallied (Op.stakes l (.latch l call waiter : Op α) + a +
            (Op.runs l (.latch l call waiter : Op α) + b)) →
          latch'.Tallied ((e.ops.map (Op.stakes l)).sum + a +
            ((e.ops.map (Op.runs l)).sum + b)) := by
    intro hlatches hpools hruns hstakes
    rw [hlatches, found] at found'
    obtain rfl := Option.some.inj found'
    rw [hruns, hstakes]
    exact ⟨hpools, composed, fun a _ tallied => tallied⟩
  have hset : ∀ {m m' : Latch}, s.latches[l]? = some m → e.store.latches = s.latches.set l m' →
      m = latch ∧ m' = latch' := by
    intro m m' hfound h
    refine ⟨Option.some.inj (hfound.symm.trans found), ?_⟩
    rw [h, List.getElem?_set_self (List.getElem?_eq_some_iff.mp hfound).1] at found'
    exact Option.some.inj found'
  cases deed with
  | jobAdded submits | freeJobAdded submits => cases submits
  | countIgnored _ m failed hfound idle =>
      obtain rfl : m = latch := Option.some.inj (hfound.symm.trans found)
      obtain rfl : m = latch' := Option.some.inj (hfound.symm.trans found')
      refine ⟨rfl, composed, fun a _ tallied => ?_⟩
      have hstaked : 0 < Op.stakes l (.latch l (.count failed) .nobody : Op α) + a := by
        simp only [Op.stakes, if_true]
        omega
      have hcounts := composed.counts tallied hstaked
      rw [idle] at hcounts
      cases hcounts
  | countSkipped _ m failed job hfound counts last held spoilt =>
      obtain ⟨rfl, rfl⟩ := hset hfound rfl
      refine ⟨rfl, ⟨composed.runs, fun h => ?_, fun h => absurd rfl h⟩,
        fun a _ tallied => ⟨tallied.up, ?_⟩⟩
      · exact absurd held (by rw [(composed.last h).2]; simp)
      · have hremaining := tallied.remaining
        simp only [Op.stakes, if_true, List.map_cons, List.map_nil, List.sum_cons, List.sum_nil,
          Op.runs] at hremaining ⊢
        omega
  | countStarted _ m job hfound counts last held sound =>
      obtain ⟨rfl, rfl⟩ := hset hfound rfl
      have hidle : m.value.finishing = false := by
        simp only [Latch.counts, Bool.not_eq_true', Bool.or_eq_false_iff] at counts
        exact counts.1.2
      have hruns := composed.runs
      rw [hidle] at hruns
      simp only [Op.runs, Bool.false_eq_true, if_false, Nat.zero_add] at hruns
      subst hruns
      refine ⟨rfl, ⟨?_, fun _ => ⟨last, rfl⟩, fun h => absurd rfl h⟩,
        fun a _ tallied => ⟨tallied.up, ?_⟩⟩
      · simp [Op.runs, Op.perform]
      · have hremaining := tallied.remaining
        simp only [Op.stakes, if_true, Op.perform, List.map_cons, List.map_nil, List.sum_cons,
          List.sum_nil, Op.runs] at hremaining ⊢
        omega
  | counted _ m failed hfound counts plain =>
      have hruns : ((if m.value.remaining = 1 then [.latch l .announce .nobody] else [] :
          List (Op α)).map (Op.runs l)).sum = 0 := by
        split <;> rfl
      have hstakes : ((if m.value.remaining = 1 then [.latch l .announce .nobody] else [] :
          List (Op α)).map (Op.stakes l)).sum = 0 := by
        split <;> rfl
      obtain ⟨rfl, rfl⟩ := hset hfound rfl
      simp only [Latch.counts, Bool.not_eq_true', Bool.or_eq_false_iff, beq_eq_false_iff_ne]
        at counts
      obtain ⟨⟨hpos, hidle⟩, -⟩ := counts
      rw [hruns, hstakes]
      refine ⟨rfl, ⟨composed.runs, fun h => absurd (hidle.symm.trans h) Bool.noConfusion,
        fun h => ?_⟩, fun a _ tallied => ⟨tallied.up, ?_⟩⟩
      · rcases plain with hone | hnone
        · show 0 < m.value.remaining - 1
          omega
        · exact absurd hnone h
      · have hremaining := tallied.remaining
        simp only [Op.stakes, if_true, Op.runs] at hremaining
        show m.value.remaining - 1 = 0 + a + (0 + b)
        omega
  | continued _ m job succeeded hfound =>
      have hruns : ((if m.value.remaining - 1 = 0 then [.latch l .announce .nobody] else [] :
          List (Op α)).map (Op.runs l)).sum = 0 := by
        split <;> rfl
      have hstakes : ((if m.value.remaining - 1 = 0 then [.latch l .announce .nobody] else [] :
          List (Op α)).map (Op.stakes l)).sum = 0 := by
        split <;> rfl
      obtain ⟨rfl, rfl⟩ := hset hfound rfl
      have hone := composed.runs
      simp only [Op.runs, if_true] at hone
      have hfinishing : m.value.finishing = true := by
        by_contra h
        rw [if_neg h] at hone
        omega
      rw [hfinishing, if_pos rfl] at hone
      obtain rfl : b = 0 := by omega
      rw [hruns, hstakes]
      refine ⟨rfl, ⟨rfl, fun h => Bool.noConfusion h,
        fun h => absurd (composed.last hfinishing).2 h⟩, fun a _ tallied => ⟨tallied.up, ?_⟩⟩
      have hremaining := tallied.remaining
      simp only [Op.stakes, Op.runs, if_true] at hremaining
      show m.value.remaining - 1 = 0 + a + (0 + 0)
      omega
  | latchTerminated _ m hfound held idle =>
      obtain ⟨rfl, rfl⟩ := hset hfound rfl
      exact ⟨rfl, ⟨composed.runs, composed.last, composed.held⟩, fun a hcall => absurd rfl hcall⟩
  | poolReady _ m stage pool q name succeeded hfound awake verdict present =>
      refine hsame rfl rfl ?_ ?_
      · cases s.names.pools.find? name <;> rfl
      · cases s.names.pools.find? name <;> rfl
  | _ => exact hsame rfl rfl rfl rfl

/-- A latch that is made expects what the turn leaves at stake. -/
theorem Deed.tally_new {op : Op α} (deed : Deed around s who op e) {rest : List (Op α)}
    (before : op.Before who rest) {l : Nat} {latch : Latch} (fresh : s.latches.length ≤ l)
    (found : e.store.latches[l]? = some latch) :
    (e.ops.map (Op.runs l)).sum = 0 ∧ latch.Composed 0 ∧ e.store.ringStakes l = s.ringStakes l ∧
      ∀ p ticket, .ticketed p ticket ∈ e.notes → latch.Tallied (e.ops.map (Op.stakes l)).sum := by
  have hlt := (List.getElem?_eq_some_iff.mp found).1
  have hold : e.store.latches.length ≤ s.latches.length → False := by
    intro h
    omega
  have hmade : ∀ {m : Latch}, e.store.latches = s.latches ++ [m] →
      l = s.latches.length ∧ m = latch := by
    intro m h
    rw [h, List.length_append, List.length_singleton] at hlt
    obtain rfl : l = s.latches.length := by omega
    rw [h, List.getElem?_concat_length] at found
    exact ⟨rfl, Option.some.inj found⟩
  cases deed with
  | commanded command eases => exact (hold (by rw [eases.latches])).elim
  | acted origin position action program later eases => exact (hold (by rw [eases.latches])).elim
  | handed ticket name same => exact (hold (by rw [same.2.1])).elim
  | latchMade command name count continuation held =>
      obtain ⟨rfl, rfl⟩ := hmade rfl
      refine ⟨rfl, ⟨rfl, fun h => Bool.noConfusion h, fun h => ?_⟩, rfl, by simp⟩
      exact Nat.pos_of_ne_zero fun hcount => h (held hcount)
  | poolMade command name settings capacity threads =>
      obtain ⟨rfl, rfl⟩ := hmade rfl
      refine ⟨rfl, ⟨rfl, fun h => Bool.noConfusion h, fun h => absurd rfl h⟩, ?_, by simp⟩
      simp [Store.ringStakes, Channel.empty, Ring.toList_empty capacity]
  | jobAdded submits place pool job hfound waitable =>
      obtain ⟨rfl, rfl⟩ := hmade rfl
      obtain ⟨-, hmade, hmadeRuns⟩ := submits.stakes s.latches.length
      refine ⟨?_, ⟨rfl, fun h => Bool.noConfusion h, fun h => absurd rfl h⟩,
        Store.ringStakes_set_same hfound (by rfl) (by rfl) _, fun _ _ _ => ⟨rfl, ?_⟩⟩
      · rw [List.map_append, List.sum_append, hmadeRuns]
        rfl
      · rw [List.map_append, List.sum_append, hmade]
        simp [Op.stakes, Ticket.latch, SubmissionPhase.item?, Latch.expecting]
  | batchAdded command place pool batch ticket hfound counted ahead =>
      obtain ⟨rfl, rfl⟩ := hmade rfl
      refine ⟨rfl, ⟨rfl, fun h => Bool.noConfusion h, fun h => ?_⟩,
        Store.ringStakes_set_same hfound (by rfl) (by rfl) _, fun _ _ _ => ⟨rfl, ?_⟩⟩
      · exact List.length_pos_iff.mpr (ahead (Option.isSome_iff_ne_none.mpr h))
      · simp [Op.stakes, Ticket.latch, SubmissionPhase.item?, Latch.expecting, Batch.size]
  | latchSettled name succeeded =>
      obtain ⟨rfl, rfl⟩ := hmade rfl
      exact ⟨rfl, ⟨rfl, fun h => Bool.noConfusion h, fun h => absurd rfl h⟩, rfl, by simp⟩
  | batchSettled place pool batch id asker succeeded hfound =>
      obtain ⟨rfl, rfl⟩ := hmade rfl
      have hempty := before.finale.1
      refine ⟨rfl, ⟨rfl, fun h => Bool.noConfusion h, fun h => absurd rfl h⟩,
        Store.ringStakes_of_pools rfl _, fun _ _ _ => ⟨rfl, ?_⟩⟩
      simp [Op.stakes, SubmissionPhase.item?, Latch.settled, hempty]
  | countSkipped | countStarted | counted | continued | latchTerminated =>
      exact (hold (by simp)).elim
  | _ => exact (hold (Nat.le_refl _)).elim

theorem Op.Lands.stakes {payload : Payload} {old new : List (Op α)} {notes : List Entry}
    (lands : Op.Lands payload old new notes) (l : Nat) :
    (new.map (Op.stakes l)).sum = (old.map (Op.stakes l)).sum ∧
      (new.map (Op.runs l)).sum = (old.map (Op.runs l)).sum := by
  cases lands <;> simp [Op.stakes, Op.runs]

theorem Act.tally (act : Act around s who old e) (rings : s.RingsValid) {rest : List (Op α)}
    (leads : Op.Leads who old rest) {l : Nat} {latch latch' : Latch}
    (found : s.latches[l]? = some latch) (found' : e.store.latches[l]? = some latch') {b : Nat}
    (composed : latch.Composed ((old.map (Op.runs l)).sum + b)) :
    latch'.Composed ((e.ops.map (Op.runs l)).sum + b) ∧
      ∀ a, (∀ op ∈ old, op.Guards s l) →
        latch.Tallied ((old.map (Op.stakes l)).sum + s.ringStakes l + a +
          ((old.map (Op.runs l)).sum + b)) →
        latch'.Tallied ((e.ops.map (Op.stakes l)).sum + e.store.ringStakes l + a +
          ((e.ops.map (Op.runs l)).sum + b)) := by
  cases act with
  | broke payload loose lands uncaught =>
      obtain ⟨hstakes, hruns⟩ := lands.stakes l
      rw [List.map_append, List.sum_append,
        sum_map_eq_zero fun op hop => (loose op hop).plain.runs l, Nat.zero_add] at composed
      obtain rfl := Option.some.inj (found.symm.trans found')
      rw [hruns, hstakes, List.map_append, List.map_append, List.sum_append, List.sum_append,
        sum_map_eq_zero fun op hop => (loose op hop).plain.runs l,
        sum_map_eq_zero fun op hop => (loose op hop).plain.stakes l, Nat.zero_add, Nat.zero_add]
      exact ⟨composed, fun a _ tallied => tallied⟩
  | @deed op e deed quiet =>
      simp only [List.map_cons, List.map_nil, List.sum_cons, List.sum_nil, Nat.add_zero,
        List.mem_singleton, forall_eq] at composed ⊢
      by_cases hcall : ∃ call waiter, op = .latch l call waiter
      · obtain ⟨call, waiter, rfl⟩ := hcall
        obtain ⟨hpools, hcomposed, htallied⟩ := deed.tally_call found found' composed
        refine ⟨hcomposed, fun a guards tallied => ?_⟩
        have hspared : call ≠ .terminate := by
          rintro rfl
          exact guards.spared waiter rfl
        rw [Store.ringStakes_of_pools hpools, Nat.add_assoc _ _ a]
        rw [Nat.add_assoc _ _ a] at tallied
        exact htallied _ hspared tallied
      · have apart : ∀ call waiter, op ≠ .latch l call waiter :=
          fun call waiter h => hcall ⟨call, waiter, h⟩
        have hlt := (List.getElem?_eq_some_iff.mp found).1
        rw [deed.latch_kept hlt apart, found] at found'
        obtain rfl := Option.some.inj found'
        rw [deed.runs_kept apart]
        refine ⟨composed, fun a guards tallied => ?_⟩
        rw [deed.stakes_kept rings leads.1 hlt guards apart]
        exact tallied

end Deeds

/-- What refers only to latches that are there has nothing to do with others. -/
theorem Op.Known.stakes {h : List (Who × Entry)} {s : Store α} {op : Op α} (known : op.Known h s)
    (store : s.Known h) {l : Nat} (absent : s.latches.length ≤ l) :
    op.stakes l = 0 ∧ op.runs l = 0 := by
  have htells : ∀ {p : Nat} {item : Item}, item.Known h p → item.tells l = false := by
    intro p item hitem
    cases htold : item.tells l with
    | false => rfl
    | true =>
        have := store.latch_lt hitem l (by simpa [Item.tells] using htold)
        omega
  cases op with
  | submit sub phase =>
      have hlatch : sub.ticket.latch ≠ some l := by
        intro hl
        have := store.latches _ _ l known.1 hl
        omega
      refine ⟨?_, rfl⟩
      cases phase <;> simp [Op.stakes, hlatch]
  | latch k call waiter =>
      have hk : k ≠ l := by
        have := known.1
        omega
      cases call <;> simp [Op.stakes, Op.runs, hk]
  | work p i phase =>
      have hnone := List.countP_eq_zero.mpr fun item hitem => ne_true_of_eq_false
        (htells (known.2 item hitem))
      exact ⟨Nat.le_zero.mp (hnone ▸ Op.stakes_work_le l p i phase), rfl⟩
  | shutDown p phase =>
      have hnone := List.countP_eq_zero.mpr fun item hitem => ne_true_of_eq_false
        (htells (known.2 item hitem))
      exact ⟨(Op.stakes_shutDown l p phase).trans hnone, rfl⟩
  | _ => exact ⟨rfl, rfl⟩

theorem Store.Known.ringStakes {h : List (Who × Entry)} {s : Store α} (known : s.Known h) {l : Nat}
    (absent : s.latches.length ≤ l) : s.ringStakes l = 0 := by
  refine sum_map_eq_zero fun pool hpool => List.countP_eq_zero.mpr fun item hitem htold => ?_
  obtain ⟨p, found⟩ := List.mem_iff_getElem?.mp hpool
  have hmem : item ∈ s.ring p := by rwa [Store.ring_eq found]
  have := known.latch_lt (known.ring p item hmem) l (by simpa [Item.tells] using htold)
  omega

namespace World

/-- How many completions there are that the latch `l` expects, its continuation aside. -/
def stakes (w : World α) (l : Nat) : Nat :=
  w.load (fun _ => Op.stakes l) + w.store.ringStakes l

/-- How many threads perform the continuation of the latch `l`. -/
def runs (w : World α) (l : Nat) : Nat :=
  w.load fun _ => Op.runs l

/-- Every latch stands as the threads that perform its continuation say, and the latch of a ticket
expects what there is at stake. -/
structure Tallied (w : World α) : Prop where
  composed : ∀ (l : Nat) (latch : Latch), w.store.latches[l]? = some latch →
    latch.Composed (w.runs l)
  tallied : ∀ (p : Nat) (ticket : Ticket) (l : Nat) (latch : Latch),
    Recorded w.history (.ticketed p ticket) → ticket.latch = some l →
      w.store.latches[l]? = some latch → latch.Tallied (w.stakes l + w.runs l)

/-- The latch of a ticket is guarded from everything that a thread has left to do. -/
theorem Reachable.guards {w : World α} (h : w.Reachable) {p l : Nat} {ticket : Ticket}
    (recorded : Recorded w.history (.ticketed p ticket)) (hl : ticket.latch = some l)
    {t : Thread α} (ht : t ∈ w.threads) {op : Op α} (hop : op ∈ t.ops) :
    op.Guards w.store l := by
  have discreet := h.discreet
  refine ⟨fun named => discreet.named l named p ticket recorded hl, ?_, ?_⟩
  · rintro q pool found rfl
    exact discreet.started q pool found p ticket recorded hl
  · rintro waiter rfl
    obtain ⟨_, _, _, untold⟩ := (h.charged t ht).of_mem hop
    exact untold p ticket recorded hl

theorem Took.tallied {w v : World α} {index : Nat} {t : Thread α} {old tail : List (Op α)}
    {e : Effect α} (reachable : w.Reachable) (took : w.Took v index t old tail e)
    (h : w.Tallied) : v.Tallied := by
  have known := reachable.known
  have orderly := reachable.orderly
  have ht := took.mem_threads
  have stack := took.leads orderly
  have hloads : ∀ l, ∃ a b, w.load (fun _ => Op.stakes l) = (old.map (Op.stakes l)).sum + a ∧
      w.runs l = (old.map (Op.runs l)).sum + b ∧
      v.load (fun _ => Op.stakes l) = (e.ops.map (Op.stakes l)).sum + a ∧
      v.runs l = (e.ops.map (Op.runs l)).sum + b := by
    intro l
    obtain ⟨a, hbefore, hafter⟩ := took.load_of_start (fun _ => Op.stakes l)
      (fun _ op => op.stakes_wake l) fun _ _ _ => rfl
    obtain ⟨b, hruns, hruns'⟩ := took.load_of_start (fun _ => Op.runs l)
      (fun _ op => op.runs_wake l) fun _ _ _ => rfl
    exact ⟨a, b, hbefore, hruns, hafter, hruns'⟩
  have hnone : ∀ l, w.store.latches.length ≤ l →
      w.load (fun _ => Op.stakes l) = 0 ∧ w.runs l = 0 := by
    intro l absent
    exact ⟨load_eq_zero _ fun u hu op hop => ((known.ops u hu op hop).stakes known.store absent).1,
      load_eq_zero _ fun u hu op hop => ((known.ops u hu op hop).stakes known.store absent).2⟩
  have hact : ∀ (l : Nat) (latch' : Latch), v.store.latches[l]? = some latch' →
      latch'.Composed (v.runs l) ∧ ∀ p ticket, Recorded v.history (.ticketed p ticket) →
        ticket.latch = some l → latch'.Tallied (v.stakes l + v.runs l) := by
    intro l latch' found'
    obtain ⟨a, b, hstakes, hruns, hstakes', hruns'⟩ := hloads l
    rw [took.store] at found'
    rw [World.stakes, hstakes', hruns', took.store]
    rcases Nat.lt_or_ge l w.store.latches.length with there | absent
    · obtain ⟨latch, found⟩ : ∃ latch, w.store.latches[l]? = some latch :=
        ⟨_, List.getElem?_eq_getElem there⟩
      obtain ⟨hcomposed, htallied⟩ := took.act.tally orderly.rings stack.1 found found'
        (hruns ▸ h.composed l latch found)
      refine ⟨hcomposed, fun p ticket recorded hl => ?_⟩
      have recorded : Recorded w.history (.ticketed p ticket) := by
        rcases took.recorded.mp recorded with hnote | recorded
        · have := (took.act.tickets hnote hnote).2.2 l hl
          omega
        · exact recorded
      have tallied := h.tallied p ticket l latch recorded hl found
      rw [World.stakes, hstakes, hruns, Nat.add_right_comm _ a] at tallied
      rw [Nat.add_right_comm _ a]
      exact htallied a (fun op hop => reachable.guards recorded hl ht
        (took.mem_ops hop)) tallied
    · obtain ⟨hzero, hzero'⟩ := hnone l absent
      obtain rfl : a = 0 := by omega
      obtain rfl : b = 0 := by omega
      cases took.act with
      | broke payload loose lands uncaught =>
          have := (List.getElem?_eq_some_iff.mp found').1
          exact absurd absent (Nat.not_le.mpr this)
      | deed deed quiet =>
          obtain ⟨hnew, hcomposed, hring, htallied⟩ := deed.tally_new stack.1.1 absent found'
          rw [hnew, hring, known.store.ringStakes absent]
          refine ⟨hcomposed, fun p ticket recorded hl => ?_⟩
          rcases took.recorded.mp recorded with hnote | recorded
          · exact htallied p ticket hnote
          · have := known.store.latches p ticket l recorded hl
            omega
  exact ⟨fun l latch found => (hact l latch found).1,
    fun p ticket l latch recorded hl found => (hact l latch found).2 p ticket recorded hl⟩

theorem Reachable.tallied {w : World α} (h : w.Reachable) : w.Tallied := by
  refine h.induct (P := Tallied) (fun cells => ⟨by simp [World.start], by simp [World.start]⟩)
    (fun w command _ ih => ?_) fun w v index t old tail e reachable took ih =>
      took.tallied reachable ih
  have hruns : ∀ l, (w.issue command).runs l = w.runs l := fun l => load_issue _ w command
  have hstakes : ∀ l, (w.issue command).stakes l = w.stakes l := by
    intro l
    rw [World.stakes, load_issue]
    rfl
  refine ⟨fun l latch found => ?_, fun p ticket l latch recorded hl found => ?_⟩
  · rw [hruns]
    exact ih.composed l latch found
  · rw [hruns, hstakes]
    exact ih.tallied p ticket l latch recorded hl found

end World

end WorkerPool
