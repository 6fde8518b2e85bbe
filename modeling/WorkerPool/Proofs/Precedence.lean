import WorkerPool.Proofs.Crew
import WorkerPool.Proofs.Moments
import WorkerPool.Proofs.Numbering
import WorkerPool.Proofs.Succession

/-! Who sends first is served first. A thread sends one item after the other: the submission that it
goes on with is what it has to do next, and no other thread goes by its name. The item that it has in
hand got its id later than all that it has pushed before, so every thread pushes its items in the
order of their ids, and in the order in which they were pushed the workers take them.

Together with what the ids of a pool are spent on, this accounts for all of them. -/

namespace WorkerPool

variable {α : Type}

/-- The item that a thread has in hand has the largest id of all that it has sent to the pool. -/
def Op.Foremost (h : List (Who × Entry)) (who : Who) : Op α → Prop
  | .submit sub phase => ∀ item, phase.item? = some item →
      ∀ sent : Item, (who, .pushed sub.pool sent) ∈ h → sent.id ≤ item.id
  | _ => True

theorem Op.Foremost.wake {h : List (Who × Entry)} {who : Who} {op : Op α}
    (foremost : op.Foremost h who) : op.wake.Foremost h who := by
  cases op with
  | submit sub phase =>
      cases phase with
      | send call => cases call <;> exact foremost
      | _ => exact foremost
  | work p i phase => cases phase <;> exact trivial
  | _ => exact foremost

namespace World

variable {w v : World α} {index : Nat} {t : Thread α} {old tail : List (Op α)} {e : Effect α}

/-! ### One item at a time -/

/-- No two threads go by the same name. -/
theorem Reachable.who_unique (h : w.Reachable) {i j : Nat} {t u : Thread α}
    (got : w.threads[i]? = some t) (got' : w.threads[j]? = some u) (same : t.who = u.who) :
    i = j := by
  cases who : t.who with
  | step number => exact h.step_unique got got' who (same ▸ who)
  | worker p k => exact h.worker_unique got got' who (same ▸ who)

/-- A thread goes on with one submission at a time. -/
theorem Reachable.sends_unique (h : w.Reachable) {t u : Thread α} (ht : t ∈ w.threads)
    (hu : u ∈ w.threads) (same : t.who = u.who) {op op' : Op α} (hop : op ∈ t.ops)
    (hop' : op' ∈ u.ops) (sends : op.Sends) (sends' : op'.Sends) : op = op' := by
  obtain ⟨i, got⟩ := List.mem_iff_getElem?.mp ht
  obtain ⟨j, got'⟩ := List.mem_iff_getElem?.mp hu
  obtain rfl := h.who_unique got got' same
  obtain rfl := Option.some.inj (got.symm.trans got')
  have stack := h.orderly.ordered t ht
  obtain ⟨rest, hfront⟩ := stack.front_of_sends hop sends
  obtain ⟨rest', hfront'⟩ := stack.front_of_sends hop' sends'
  exact (List.cons.inj (hfront.symm.trans hfront')).1

/-- What has been pushed got its id before. -/
theorem Reachable.pushed_lt (h : w.Reachable) {p : Nat} {pool : Pool} {item : Item}
    (found : w.store.pools[p]? = some pool) (pushed : Recorded w.history (.pushed p item)) :
    item.id < pool.nextId := by
  by_contra late
  have ahead : w.Ahead p item.id := by
    intro pool' found'
    obtain rfl := Option.some.inj (found.symm.trans found')
    exact Nat.le_of_not_lt late
  have none := (h.issues p item.id).2 ahead
  obtain ⟨who, hmem⟩ := pushed
  obtain ⟨-, ticket, -, part⟩ := h.known.entries who _ hmem
  cases part with
  | job _ issued => exact absurd (mem_issues.mpr issued) (none ▸ List.not_mem_nil)
  | member _ _ _ _ issued => exact absurd (mem_issues.mpr issued) (none ▸ List.not_mem_nil)

/-- Whatever a turn finds in the hands of a thread still is the foremost afterwards. -/
theorem Took.foremost_kept (reachable : w.Reachable) (took : w.Took v index t old tail e)
    (h : ∀ t ∈ w.threads, ∀ op ∈ t.ops, op.Foremost w.history t.who) :
    ∀ u ∈ w.threads, ∀ op ∈ u.ops, op.Foremost v.history u.who := by
  intro u hu op hop
  have before := h u hu op hop
  cases op with
  | submit sub phase =>
      intro item hitem sent hsent
      rcases took.mem_history.mp hsent with ⟨same, hnote⟩ | hsent
      · obtain ⟨op, rfl, writes, deed⟩ := took.act.written hnote not_false nofun
        generalize hentry : Entry.pushed sub.pool sent = entry at writes
        cases writes with
        | pushed other _ stage =>
            -- the thread that pushes has nothing else in hand
            obtain ⟨-, rfl⟩ := Entry.pushed.inj hentry
            have ht := took.mem_threads
            have due : .submit other (.send (.send sent stage)) ∈ t.ops := took.due_mem
            have sends : (Op.submit sub phase : Op α).Sends := by
              cases phase <;> trivial
            have same := reachable.sends_unique ht hu same.symm due hop trivial sends
            cases same
            cases hitem
            exact Nat.le_refl _
        | _ => cases hentry
      · exact before item hitem sent hsent
  | _ => trivial

/-- What a turn takes in hand is the foremost: it goes on with what was in hand before, or it has
just got the next id. -/
theorem Took.foremost_self (reachable : w.Reachable) (took : w.Took v index t old tail e)
    (kept : ∀ t ∈ w.threads, ∀ op ∈ t.ops, op.Foremost v.history t.who) :
    ∀ op ∈ e.ops, op.Foremost v.history t.who := by
  intro op' hop'
  by_cases serves : op'.Serves
  swap
  · cases op' with
    | submit sub phase =>
        cases phase with
        | refused => exact fun item hitem => nomatch hitem
        | _ => exact absurd trivial serves
    | _ => trivial
  have ht := took.mem_threads
  cases took.act with
  | broke payload loose lands uncaught =>
      rcases lands.of_serves hop' serves with ⟨p, i, item, rfl, -⟩ | ⟨p, batch, bid, asker, rfl, -⟩
      · trivial
      · trivial
  | @deed op _ deed quiet =>
      have foremost := kept t ht op took.due_mem
      -- an id that is given out now is larger than those of all items that have been pushed
      have fresh : ∀ {p : Nat} {pool : Pool}, w.store.pools[p]? = some pool →
          (∀ sub call, op ≠ .submit sub (.send call)) →
          ∀ sent : Item, (t.who, .pushed p sent) ∈ v.history → sent.id ≤ pool.nextId := by
        intro p pool found apart sent hsent
        rcases took.mem_history.mp hsent with ⟨-, hnote⟩ | hsent
        · rcases deed.writes hnote with plain | writes
          · exact plain.elim
          · cases writes with
            | pushed sub _ stage => exact absurd rfl (apart sub _)
        · exact Nat.le_of_lt (reachable.pushed_lt found ⟨t.who, hsent⟩)
      cases deed.follows hop' serves with
      | jobAdded submits p pool job latch found told =>
          rintro item ⟨⟩
          refine fresh found fun sub call heq => ?_
          rw [heq] at submits
          cases submits
      | memberAdded sub pool job rest found ahead issued =>
          rintro item ⟨⟩
          exact fresh found (by simp)
      | batchAdded | finaleThrough | pushed | sent => exact fun item hitem => nomatch hitem
      | enlisted sub item | offered sub item | sendSlept sub item => exact foremost
      | givenBack sub call item had =>
          rintro _ ⟨⟩
          exact foremost item had
      | _ => trivial

/-- The item that a thread has in hand has a larger id than all that it has pushed. -/
theorem Reachable.foremost (h : w.Reachable) :
    ∀ t ∈ w.threads, ∀ op ∈ t.ops, op.Foremost w.history t.who := by
  refine h.induct (P := fun w => ∀ t ∈ w.threads, ∀ op ∈ t.ops, op.Foremost w.history t.who)
    (fun cells t ht => nomatch ht) (fun w command _ ih => ?_)
    fun w v index t old tail e reachable took ih => ?_
  · exact forall_ops_issue (P := fun who op => op.Foremost w.history who) ih trivial
  · have kept := took.foremost_kept reachable ih
    exact took.forall_ops (P := fun who op => op.Foremost v.history who)
      (fun who op foremost => foremost.wake) kept (took.foremost_self reachable kept)
      fun _ _ _ _ => trivial

/-! ### In the order of the ids -/

end World

end WorkerPool
