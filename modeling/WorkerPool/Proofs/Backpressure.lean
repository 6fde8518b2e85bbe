import WorkerPool.Proofs.Flags
import WorkerPool.Proofs.Quiescence
import WorkerPool.Proofs.Rejected

/-! Work conservation. When a world has come to rest, a worker is inside a function or asleep, and
it sleeps only before an empty ring; a submission is asleep too, and it sleeps only before a full
one. So the busy flags count the workers that are inside, an item waits only while all of them are,
and a submission only while all of them are and there is no room. This does not depend on how the
world came to rest: panics, refusals and earlier sleeps leave nothing behind that could keep a
worker or a submission asleep next to work or to room.

A submission that has been refused waits for the members that were accepted before, but nothing is
refused before the pool is down. -/

namespace WorkerPool

variable {α : Type}

/-- What is left to do of a submission to the pool at `p`, from its first member on. -/
inductive Op.Offering (p : Nat) : Op α → Prop
  | submit (sub : Submission) (phase : SubmissionPhase) (mine : sub.pool = p) :
      Offering p (.submit sub phase)
  | refused (l : Nat) (stage : Stage) (sub : Submission) (mine : sub.pool = p) :
      Offering p (.latch l (.wait stage) (.refused sub))

section Deeds

variable {around : Around} {s : Store α} {who : Who} {e : Effect α}

/-- An item is given back only by a pool that is down. -/
theorem Deed.down_of_refuse {op : Op α} (deed : Deed around s who op e) {sub : Submission}
    {item : Item} (h : .submit sub (.refuse item) ∈ e.ops) : s.IsDown sub.pool := by
  cases deed.follows h trivial with
  | givenBack sub call item had =>
      cases deed with
      | jobAdded submits | freeJobAdded submits => cases submits
      | givenBack sub pool item call found down sends => exact ⟨pool, found, down⟩
      | offered | pushed | sendSlept | sendAnnounced => simp at h

end Deeds

namespace World

variable {w v : World α} {index : Nat} {t : Thread α} {old tail : List (Op α)} {e : Effect α}
  {p : Nat}

/-! ### Nothing is refused before the pool is down -/

theorem Reachable.down_of_refuse (h : w.Reachable) (ht : t ∈ w.threads) {sub : Submission}
    {item : Item} (hop : .submit sub (.refuse item) ∈ t.ops) : w.store.IsDown sub.pool := by
  suffices hall : ∀ t ∈ w.threads, ∀ op ∈ t.ops, ∀ sub item, op = .submit sub (.refuse item) →
      w.store.IsDown sub.pool from hall t ht _ hop sub item rfl
  clear hop ht
  refine h.induct (P := fun w => ∀ t ∈ w.threads, ∀ op ∈ t.ops, ∀ sub item,
      op = .submit sub (.refuse item) → w.store.IsDown sub.pool)
    (fun cells t ht => nomatch ht) (fun w command _ ih => ?_)
    fun w v index t old tail e reachable took ih => ?_
  · exact forall_ops_issue (P := fun _ op => ∀ sub item, op = .submit sub (.refuse item) →
      w.store.IsDown sub.pool) ih nofun
  · refine took.forall_ops (P := fun _ op => ∀ sub item, op = .submit sub (.refuse item) →
      v.store.IsDown sub.pool) (fun who op hP sub item hop => ?_)
      (fun u hu op hop sub item heq => took.isDown (ih u hu op hop sub item heq))
      (fun op hop sub item heq => ?_) nofun
    · refine hP sub item ?_
      cases op with
      | submit sub' phase => cases phase <;> first | exact hop | cases hop
      | latch l call waiter => cases call <;> cases hop
      | work q i phase => cases phase <;> cases hop
      | _ => cases hop
    · subst heq
      cases took.act with
      | deed deed quiet => exact took.isDown (deed.down_of_refuse hop)
      | broke payload loose lands uncaught =>
          obtain ⟨_, _, _, heq, -⟩ | ⟨_, _, _, _, heq, -⟩ := lands.of_serves hop trivial <;>
            cases heq

theorem Reachable.down_of_refused (h : w.Reachable) {item : Item}
    (refused : Recorded w.history (.refused p item)) : w.store.IsDown p := by
  refine h.induct (P := fun w => Recorded w.history (.refused p item) → w.store.IsDown p)
    (fun cells h => ?_) (fun w command _ ih => ih)
    (fun w v index t old tail e reachable took ih h => ?_) refused
  · obtain ⟨who, hmem⟩ := h
    cases hmem
  · rcases took.recorded.mp h with hnote | before
    · obtain ⟨op, rfl, writes, deed⟩ := took.act.written hnote not_false nofun
      cases writes with
      | refused sub _ =>
          have hop : .submit sub (.refuse item) ∈ t.ops := took.due_mem
          exact took.isDown (reachable.down_of_refuse took.mem_threads hop)
    · exact took.isDown (ih before)

/-! ### Submissions at rest -/

/-- A submission to a pool that is up can rest only before a full ring. -/
theorem Quiescent.offering (quiet : w.Quiescent) (h : w.Reachable) {pool : Pool}
    (found : w.store.pools[p]? = some pool) (up : pool.isDown = false) (ht : t ∈ w.threads)
    {op : Op α} (hop : op ∈ t.ops) (offering : op.Offering p) :
    t.sleepsAt = some (.intake p) ∧ pool.pending = pool.intake.value.capacity := by
  have calm := quiet.not_urgent h ht hop
  have open' : ¬w.store.IsDown p := by
    rintro ⟨pool', found', down⟩
    obtain rfl := Option.some.inj (found.symm.trans found')
    rw [up] at down
    cases down
  cases offering with
  | refused l stage sub mine =>
      subst mine
      obtain ⟨item, refused, -⟩ := (h.rejects t ht _ hop).item
      exact absurd (h.down_of_refused refused) open'
  | submit sub phase mine =>
      subst mine
      cases phase with
      | send call =>
          cases hasleep : call.asleep with
          | false => exact absurd hasleep calm
          | true =>
              obtain ⟨item, rfl⟩ : ∃ item, call = .send item .asleep := by
                obtain ⟨above, rest, -, before⟩ := (h.orderly.ordered t ht).before hop
                have sends := before.proper
                cases call with
                | send item stage => exact ⟨item, by cases stage <;> first | rfl | cases hasleep⟩
                | receive => exact sends.elim
                | _ => cases hasleep
              obtain ⟨rest, ops⟩ := (h.orderly.ordered t ht).asleep hop rfl
              obtain ⟨pool', found', -, full⟩ := quiet.held h ht ops rfl
              obtain rfl := Option.some.inj (found.symm.trans found')
              have valid := h.orderly.rings sub.pool pool found
              refine ⟨by rw [Thread.sleepsAt, ops]; rfl, ?_⟩
              rw [Pool.pending, valid.size_eq, valid.full_iff.mp full]
      | _ => exact absurd trivial calm

/-! ### Workers at rest -/

/-- A worker rests with its flag set only inside a function. -/
theorem Quiescent.busy_iff (quiet : w.Quiescent) (h : w.Reachable) (ht : t ∈ w.threads) {i : Nat}
    (who : t.who = .worker p i) :
    w.store.busy p i = true ↔ t.ops.any Op.inside = true := by
  obtain ⟨standing, shows⟩ := h.shows ht who
  rw [h.busy_iff ht who shows]
  refine ⟨fun engaged => ?_, shows.engaged_of_inside⟩
  obtain ⟨op, hop, engaged⟩ := shows.engaged_iff.mp engaged
  rcases quiet.worker_cases h ht who with ⟨ops, -⟩ | ⟨ops, -⟩ | inside
  · rw [ops] at hop
    cases hop
  · rw [ops, List.mem_singleton] at hop
    subst hop
    cases engaged
  · exact inside

theorem busyCount_eq {pool : Pool} (found : w.store.pools[p]? = some pool) :
    pool.busyCount = (List.range pool.threads).countP (w.store.busy p) := by
  have hflags : pool.busy = (List.range pool.threads).map (w.store.busy p) := by
    refine List.ext_getElem (by simp [Pool.threads]) fun i hi hi' => ?_
    simp [Store.busy, found, hi]
  rw [Pool.busyCount]
  conv_lhs => rw [hflags]
  rw [List.count, List.countP_map]
  exact List.countP_congr fun i hi => by simp

/-- The workers of a pool that are inside a function, by name. -/
theorem Reachable.nodup_insiders (h : w.Reachable) :
    ((w.threads.filter fun t => t.who.worksFor p && t.ops.any Op.inside).map (·.who)).Nodup := by
  have apart : w.threads.Pairwise fun t u => t.who.worksFor p = true → t.who ≠ u.who := by
    refine List.pairwise_iff_getElem.mpr fun j k hj hk hlt works same => ?_
    obtain ⟨i, who⟩ := Who.worksFor_iff.mp works
    exact Nat.ne_of_lt hlt (h.worker_unique (List.getElem?_eq_getElem hj)
      (List.getElem?_eq_getElem hk) who (same ▸ who))
  refine List.pairwise_map.mpr ((apart.filter _).imp_of_mem fun ht _ hne => hne ?_)
  exact (Bool.and_eq_true_iff.mp (List.mem_filter.mp ht).2).1

/-- At rest the flags that are set are those of the workers inside a function. -/
theorem Quiescent.busyCount_eq_insiders (quiet : w.Quiescent) (h : w.Reachable) {pool : Pool}
    (found : w.store.pools[p]? = some pool) : pool.busyCount = w.insiders p := by
  have hnodup : (((List.range pool.threads).filter (w.store.busy p)).map (Who.worker p)).Nodup :=
    (List.nodup_range.filter _).map fun i j heq => by cases heq; rfl
  have hperm := (List.perm_ext_iff_of_nodup hnodup (h.nodup_insiders (p := p))).mpr fun who => ?_
  · calc pool.busyCount = ((List.range pool.threads).filter (w.store.busy p)).length := by
          rw [busyCount_eq found, List.countP_eq_length_filter]
      _ = (w.threads.filter fun t => t.who.worksFor p && t.ops.any Op.inside).length := by
          simpa using hperm.length_eq
      _ = w.insiders p := List.countP_eq_length_filter.symm
  · simp only [List.mem_map, List.mem_filter, List.mem_range, Bool.and_eq_true]
    constructor
    · rintro ⟨i, ⟨within, flag⟩, rfl⟩
      obtain ⟨t, ht, who⟩ := quiet.worker h found within
      exact ⟨t, ⟨ht, Who.worksFor_iff.mpr ⟨i, who⟩, (quiet.busy_iff h ht who).mp flag⟩, who⟩
    · rintro ⟨t, ⟨ht, works, inside⟩, rfl⟩
      obtain ⟨i, who⟩ := Who.worksFor_iff.mp works
      obtain ⟨pool', found', within⟩ := h.worker_within ht who
      obtain rfl := Option.some.inj (found.symm.trans found')
      exact ⟨i, ⟨within, (quiet.busy_iff h ht who).mpr inside⟩, who.symm⟩

/-- While an item lies in the ring of a pool that is up, no worker of the pool can rest outside. -/
theorem Quiescent.all_busy (quiet : w.Quiescent) (h : w.Reachable) {pool : Pool}
    (found : w.store.pools[p]? = some pool) (up : pool.isDown = false) (items : 0 < pool.pending) :
    pool.busyCount = pool.threads := by
  have hitems : w.store.ring p ≠ [] := by
    rw [Store.ring_eq found, ← List.length_pos_iff, ← (h.orderly.rings p pool found).size_eq]
    exact items
  rw [busyCount_eq found]
  refine (List.countP_eq_length.mpr fun i hi => ?_).trans List.length_range
  obtain ⟨t, ht, who⟩ := quiet.worker h found (List.mem_range.mp hi)
  rw [quiet.busy_iff h ht who]
  rcases quiet.worker_cases h ht who with ⟨-, pool', found', down⟩ | ⟨-, -, empty⟩ | inside
  · obtain rfl := Option.some.inj (found.symm.trans found')
    rw [up] at down
    cases down
  · exact absurd empty hitems
  · exact inside

/-- A worker rests in its receive only before an empty ring. -/
theorem Quiescent.empty_of_receive (quiet : w.Quiescent) (h : w.Reachable) {pool : Pool}
    (found : w.store.pools[p]? = some pool) (ht : t ∈ w.threads) {i : Nat}
    (hop : .work p i (.receive (.receive .asleep)) ∈ t.ops) : pool.pending = 0 := by
  obtain ⟨rest, ops⟩ := (h.orderly.ordered t ht).asleep hop rfl
  obtain ⟨pool', found', -, empty⟩ := quiet.held h ht ops rfl
  obtain rfl := Option.some.inj (found.symm.trans found')
  have valid := h.orderly.rings p pool found
  rw [Pool.pending, valid.size_eq, valid.isEmpty_iff.mp empty, List.length_nil]

/-- No item waits while a worker idles, and no producer waits while there is room. -/
structure Conserved (w : World α) (p : Nat) (pool : Pool) : Prop where
  working : 0 < pool.pending → pool.busyCount = pool.threads
  idling : ∀ t ∈ w.threads, ∀ i, .work p i (.receive (.receive .asleep)) ∈ t.ops →
    pool.pending = 0 ∧ ∀ u ∈ w.threads, ∀ op ∈ u.ops, ¬op.Offering p
  blocked : ∀ t ∈ w.threads, ∀ op ∈ t.ops, op.Offering p →
    t.sleepsAt = some (.intake p) ∧ pool.pending = pool.intake.value.capacity ∧
      pool.busyCount = pool.threads
  busy : pool.busyCount = w.insiders p

/-- In a pool that is up and at rest, items wait only while every worker is inside a function, and
submissions only while in addition the ring is full. -/
theorem Reachable.work_conserved (h : w.Reachable) (quiet : w.Quiescent) {pool : Pool}
    (found : w.store.pools[p]? = some pool) (up : pool.isDown = false) : w.Conserved p pool := by
  have hroom := (h.orderly.rings p pool found).capacity_pos
  refine ⟨quiet.all_busy h found up, fun t ht i hop => ?_, fun t ht op hop offering => ?_,
    quiet.busyCount_eq_insiders h found⟩
  · have empty := quiet.empty_of_receive h found ht hop
    refine ⟨empty, fun u hu op hop offering => ?_⟩
    have full := (quiet.offering h found up hu hop offering).2
    omega
  · obtain ⟨asleep, full⟩ := quiet.offering h found up ht hop offering
    exact ⟨asleep, full, quiet.all_busy h found up (by omega)⟩

/-- A pool with one worker. Its first item panicked, the second one is held up by a gate, the third
one waits in the ring, and the step that submits the fourth one waits for room. -/
def crowded : World Unit :=
  follow 40 [
    .newPool "p" (.given { capacity := 1, threads := some 1, name := "p" }),
    .onPool "p" (.submit (.link [.panic (.text "no")] false) none .holding),
    .onPool "p" (.submit (.link [.passGate "g"] false) none .holding),
    .onPool "p" (.submit (.link [] false) none .holding),
    .onPool "p" (.submit (.link [] false) none .holding)] (.start [])

theorem work_conserved_of_crowded :
    ∃ pool, crowded.store.pools[0]? = some pool ∧ crowded.Conserved 0 pool ∧
      pool.pending = 1 ∧ pool.busyCount = 1 ∧ crowded.insiders 0 = 1 ∧
      ∃ t ∈ crowded.threads, t.who = .step 4 ∧ t.sleepsAt = some (.intake 0) := by
  have reachable : crowded.Reachable := reachable_follow 40 _ (.start [])
  have quiet : crowded.Quiescent := by decide
  have there : crowded.store.pools[0]?.map (fun pool => (pool.isDown, pool.pending, pool.threads)) =
      some (false, 1, 1) := by decide
  obtain ⟨pool, found, hpool⟩ := Option.map_eq_some_iff.mp there
  simp only [Prod.mk.injEq] at hpool
  obtain ⟨up, pending, threads⟩ := hpool
  have submits : ∃ t, crowded.threads[5]? = some t ∧ t.who = .step 4 ∧
      ∃ sub phase, t.ops = [.submit sub phase] ∧ sub.pool = 0 := ⟨_, rfl, rfl, _, _, rfl, rfl⟩
  obtain ⟨t, got, who, sub, phase, ops, mine⟩ := submits
  have ht := List.mem_of_getElem? got
  have conserved := reachable.work_conserved quiet found up
  obtain ⟨asleep, -, full⟩ := conserved.blocked t ht (.submit sub phase) (by simp [ops])
    (.submit sub phase mine)
  rw [threads] at full
  exact ⟨pool, found, conserved, pending, full, conserved.busy ▸ full, t, ht, who, asleep⟩

end World

end WorkerPool
