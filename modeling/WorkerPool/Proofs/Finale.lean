import WorkerPool.Proofs.Completions

/-! How the finale of a batch stands. It is kept with the latch of the batch until the last member
is counted, and then dropped or begun; a failure that has been counted decides which. So what the
latch knows of failures is what was counted as a failure and how the finale ended, and whoever finds
the latch at zero finds the finale dropped or at its end. -/

namespace WorkerPool

variable {α : Type}

/-- What is to be performed after the members of what an id was given to. -/
def Issue.finale? : Issue → Option Job
  | .batch b => b.finale
  | _ => none

/-- On whose account it is performed, where `l` is the latch of the submission: on that of the
latch, but for a batch without members. -/
def Issue.finaleOrigin (p id l : Nat) : Issue → Origin
  | .batch b => if b.members = [] then .batch p id else .latch l
  | _ => .latch l

theorem Issue.finaleOrigin_ne_caller (p id l : Nat) (issue : Issue) :
    issue.finaleOrigin p id l ≠ .caller := by
  cases issue with
  | batch b =>
      dsimp only [finaleOrigin]
      split <;> simp
  | _ => simp [finaleOrigin]

theorem Op.of_wake_running {op : Op α} {l : Nat} {job : Job} {succeeded : Bool} {waiter : Waiter}
    (h : op.wake = .latch l (.running job succeeded) waiter) :
    op = .latch l (.running job succeeded) waiter := by
  cases op with
  | latch k call waiter' =>
      cases call with
      | running job' succeeded' =>
          cases h
          rfl
      | _ => cases h
  | submit sub phase => cases phase <;> cases h
  | work p i phase => cases phase <;> cases h
  | _ => cases h

section Deeds

variable {around : Around} {s : Store α} {who : Who} {old : List (Op α)} {e : Effect α}

theorem Op.Lands.running_of_mem {payload : Payload} {old new : List (Op α)} {notes : List Entry}
    (lands : Op.Lands payload old new notes) {l : Nat} {job : Job} {succeeded : Bool}
    {waiter : Waiter}
    (h : .latch l (.running job succeeded) waiter ∈ new) :
    .latch l (.running job true) .nobody ∈ old := by
  cases lands <;> simp_all

/-- Only a call on a latch has its continuation performed, and a panic leaves that of the one who
performs it. -/
theorem Act.running_of_mem (act : Act around s who old e) {l : Nat}
    (apart : ∀ call waiter, old ≠ [.latch l call waiter]) {job : Job} {succeeded : Bool}
    {waiter : Waiter} (h : .latch l (.running job succeeded) waiter ∈ e.ops) :
    .latch l (.running job true) .nobody ∈ old := by
  cases act with
  | @deed op _ deed quiet =>
      have apart' : ∀ call waiter, op ≠ .latch l call waiter := by
        rintro call waiter rfl
        exact apart call waiter rfl
      obtain ⟨r, hsum⟩ := World.sum_map_of_mem (Op.runs l) h
      have hnone : op.runs l = 0 := by
        unfold Op.runs
        split
        · refine if_neg ?_
          rintro rfl
          exact apart' _ _ rfl
        · rfl
      rw [deed.runs_kept apart', hnone] at hsum
      simp only [Op.runs, if_true] at hsum
      omega
  | broke payload loose lands uncaught =>
      exact List.mem_append_right _ (lands.running_of_mem h)

end Deeds

namespace World

variable {w v : World α} {index : Nat} {t : Thread α} {old tail : List (Op α)} {e : Effect α}

/-- How what is to be performed after the members of a submission stands, if there is anything,
where `latch` is the latch at `l` of the submission and `o` is what it is performed on account of.
-/
inductive Finale (w : World α) (l : Nat) (o : Origin) (latch : Latch) : Option Job → Prop
  | absent (bare : latch.value.continuation = none) (idle : latch.value.finishing = false)
      (verdict : latch.value.failed = true ↔ 0 < w.counts l true)
      (untouched : w.Untouched (.latch l)) : Finale w l o latch none
  | awaited (job : Job) (kept : latch.value.continuation = some job) (mine : o = .latch l)
      (idle : latch.value.finishing = false)
      (verdict : latch.value.failed = true ↔ 0 < w.counts l true) : Finale w l o latch (some job)
  | skipped (job : Job) (spent : latch.value.continuation = none) (mine : o = .latch l)
      (idle : latch.value.finishing = false) (zero : latch.value.remaining = 0)
      (verdict : latch.value.failed = true) (lost : 0 < w.counts l true)
      (untouched : w.Untouched o) : Finale w l o latch (some job)
  | running (job : Job) (spent : latch.value.continuation = none) (mine : o = .latch l)
      (finishing : latch.value.finishing = true) (verdict : latch.value.failed = false)
      (sound : w.counts l true = 0)
      (same : ∀ t ∈ w.threads, ∀ op ∈ t.ops, ∀ job' succeeded waiter,
        op = .latch l (.running job' succeeded) waiter → job' = job) : Finale w l o latch (some job)
  | finished (job : Job) (who : Who) (succeeded : Bool) (spent : latch.value.continuation = none)
      (idle : latch.value.finishing = false) (zero : latch.value.remaining = 0)
      (verdict : latch.value.failed = !succeeded) (sound : w.counts l true = 0)
      (ended : if succeeded then w.CompletedBy who o job.programs
        else w.SpoiltBy who o job.programs) : Finale w l o latch (some job)

/-- A turn that calls nothing on account of `o` and leaves nothing of it leaves it untouched. -/
theorem Took.untouched (took : w.Took v index t old tail e) {o : Origin} (untouched : w.Untouched o)
    (calls : e.calls o t.who = []) (parts : e.parts o t.who = 0) : v.Untouched o := by
  obtain ⟨r, hbefore, hafter⟩ := took.parts o
  have hidle : w.parts o = 0 := untouched.left
  have hzero : r = 0 := Multiset.le_zero.mp (hidle ▸ hbefore ▸ Multiset.le_add_left r _)
  refine ⟨?_, ?_, fun h => absurd rfl h⟩
  · rw [took.calls, calls]
    exact untouched.trail
  · rw [hafter, parts, hzero]
    rfl

/-- What is not begun by a turn stays untouched. -/
theorem Took.untouched_of_unbegun (reachable : w.Reachable) (took : w.Took v index t old tail e)
    {o : Origin} (ho : o ≠ .caller) (untouched : w.Untouched o)
    (unbegun : ∀ op, old = [op] → ¬op.Begins w.store t.who e o) : v.Untouched o := by
  have stack := took.leads reachable.orderly
  obtain ⟨r, hbefore, -⟩ := took.parts o
  have hidle : w.parts o = 0 := untouched.left
  have hold : (old.map (Op.parts o t.who)).sum = 0 :=
    Multiset.le_zero.mp (hidle ▸ hbefore ▸ Multiset.le_add_right _ r)
  have performs := took.act.performs stack.1 ho
  rw [hold] at performs
  obtain ⟨calls, parts⟩ := performs.of_zero fun ⟨op, hop, begins⟩ => unbegun op hop begins
  exact took.untouched untouched calls parts

section Latches

variable {l : Nat} {o : Origin} {latch latch' : Latch} {finale? : Option Job}

theorem Finale.issue (finale : w.Finale l o latch finale?) (command : Command α) :
    (w.issue command).Finale l o latch finale? := by
  cases finale with
  | absent bare idle verdict untouched => exact .absent bare idle verdict (stands_issue untouched)
  | awaited job kept mine idle verdict => exact .awaited job kept mine idle verdict
  | skipped job spent mine idle zero verdict lost untouched =>
      exact .skipped job spent mine idle zero verdict lost (stands_issue untouched)
  | running job spent mine finishing verdict sound same =>
      exact .running job spent mine finishing verdict sound (forall_ops_issue
        (P := fun _ op => ∀ job' succeeded waiter, op = .latch l (.running job' succeeded) waiter →
          job' = job) same nofun)
  | finished job who succeeded spent idle zero verdict sound ended =>
      refine .finished job who succeeded spent idle zero verdict sound ?_
      cases succeeded with
      | true => exact stands_issue ended
      | false =>
          obtain ⟨done, program, later, hprograms, stands⟩ := ended
          exact ⟨done, program, later, hprograms, stands_issue stands⟩

/-- A turn that leaves the latch and what was counted on it alone leaves the finale where it is. -/
theorem Took.finale_kept (reachable : w.Reachable) (took : w.Took v index t old tail e)
    (ho : o ≠ .caller) (found : w.store.latches[l]? = some latch)
    (counts : v.counts l true = w.counts l true)
    (running : ∀ job succeeded waiter, .latch l (.running job succeeded) waiter ∈ e.ops →
      ∃ succeeded waiter, .latch l (.running job succeeded) waiter ∈ old)
    (finale : w.Finale l o latch finale?) : v.Finale l o latch finale? := by
  cases finale with
  | absent bare idle verdict untouched =>
      exact .absent bare idle (counts ▸ verdict)
        (took.stands reachable Origin.noConfusion untouched rfl ⟨latch, found, bare⟩)
  | awaited job kept mine idle verdict => exact .awaited job kept mine idle (counts ▸ verdict)
  | skipped job spent mine idle zero verdict lost untouched =>
      have begun : w.Begun o := mine ▸ ⟨latch, found, spent⟩
      exact .skipped job spent mine idle zero verdict (counts ▸ lost)
        (took.stands reachable ho untouched rfl begun)
  | running job spent mine finishing verdict sound same =>
      refine .running job spent mine finishing verdict (counts.trans sound) ?_
      refine took.forall_ops (P := fun _ op => ∀ job' succeeded waiter,
        op = .latch l (.running job' succeeded) waiter → job' = job)
        (fun who op h job' succeeded waiter hop => h job' succeeded waiter (Op.of_wake_running hop))
        same (fun op hop job' succeeded waiter heq => ?_) nofun
      · obtain ⟨succeeded', waiter', hold⟩ := running job' succeeded waiter (heq ▸ hop)
        exact same t took.mem_threads _
          (took.mem_ops hold) job' succeeded' waiter' rfl
  | finished job who succeeded spent idle zero verdict sound ended =>
      refine .finished job who succeeded spent idle zero verdict (counts.trans sound) ?_
      cases succeeded with
      | true => exact took.completedBy reachable ho ended
      | false => exact took.spoiltBy reachable ho ended

/-- A latch that has kept its continuation has not been at zero. -/
theorem Finale.of_kept (finale : w.Finale l o latch finale?) {job : Job}
    (kept : latch.value.continuation = some job) :
    finale? = some job ∧ o = .latch l ∧ latch.value.finishing = false ∧
      (latch.value.failed = true ↔ 0 < w.counts l true) := by
  cases finale with
  | awaited job' kept' mine idle verdict => exact ⟨kept' ▸ kept, mine, idle, verdict⟩
  | absent spent | skipped _ spent | running _ spent | finished _ _ _ spent =>
      rw [spent] at kept
      cases kept

theorem Finale.of_finishing (finale : w.Finale l o latch finale?)
    (finishing : latch.value.finishing = true) :
    ∃ job, finale? = some job ∧ o = .latch l ∧ latch.value.failed = false ∧
      latch.value.continuation = none ∧ w.counts l true = 0 ∧
      ∀ t ∈ w.threads, ∀ op ∈ t.ops, ∀ job' succeeded waiter,
        op = .latch l (.running job' succeeded) waiter → job' = job := by
  cases finale with
  | running job spent mine _ verdict sound same =>
      exact ⟨job, rfl, mine, verdict, spent, sound, same⟩
  | absent _ idle | awaited _ _ _ idle | skipped _ _ _ idle | finished _ _ _ _ idle =>
      rw [idle] at finishing
      cases finishing

theorem not_running_of_runs (idle : w.runs l = 0) {job : Job} {succeeded : Bool} {waiter : Waiter} :
    ∀ t ∈ w.threads, .latch l (.running job succeeded) waiter ∉ t.ops := by
  intro t ht hop
  have := eq_zero_of_load idle ht hop
  simp [Op.runs] at this

/-- A call on the latch of a submission takes the finale along: the last count drops it if a failure
has been counted and begins it if not, and its end is what the latch is told. -/
theorem Took.finale_call {call : Latch.Call} {waiter : Waiter} (reachable : w.Reachable)
    (took : w.Took v index t [.latch l call waiter] tail e) (ho : o ≠ .caller)
    (guards : (Op.latch l call waiter : Op α).Guards w.store l)
    (found : w.store.latches[l]? = some latch) (found' : v.store.latches[l]? = some latch')
    (finale : w.Finale l o latch finale?) : v.Finale l o latch' finale? := by
  have deed := took.act.deed_of_not_loose id
  have composed := reachable.tallied.composed l latch found
  rw [took.store] at found'
  have kept : e.store.latches = w.store.latches → v.counts l true = w.counts l true →
      (∀ job succeeded waiter, .latch l (.running job succeeded) waiter ∉ e.ops) →
      v.Finale l o latch' finale? := fun same counts still => by
    rw [same, found, Option.some.injEq] at found'
    exact found' ▸ took.finale_kept reachable ho found counts
      (fun job succeeded waiter hop => absurd hop (still job succeeded waiter)) finale
  have hcounts := took.counts l true
  cases deed with
  | jobAdded submits | freeJobAdded submits => cases submits
  | countIgnored | latchAnnounced | waitSlept | callerWaited | ticketWaited | refusedWaited
    | poolMissed | latchSpared => exact kept rfl (by simpa using hcounts) (by simp)
  | poolReady =>
      refine kept rfl (by simpa [Entry.counts] using hcounts) fun job succeeded waiter hop => ?_
      simp at hop
  | countSkipped _ m failed job hfound counts last held spoilt =>
      obtain ⟨rfl, rfl⟩ := eq_of_set found found' hfound rfl
      obtain ⟨rfl, rfl, idle, verdict⟩ := finale.of_kept held
      have unbegun : ¬w.Begun (.latch l) := by
        rintro ⟨m', found', spent⟩
        rw [found, Option.some.injEq] at found'
        rw [← found', held] at spent
        cases spent
      have lost : 0 < v.counts l true := by
        simp only [List.map_cons, List.sum_cons, Entry.counts, true_and] at hcounts
        cases failed with
        | true =>
            rw [if_pos rfl] at hcounts
            omega
        | false =>
            have := verdict.mp (by simpa using spoilt)
            omega
      exact .skipped job rfl rfl idle rfl rfl lost
        (took.untouched (reachable.untouched ho unbegun) (by simp [Effect.calls, Entry.calls])
          (by simp [Effect.parts, Op.parts]))
  | countStarted _ m job hfound counts last held sound =>
      obtain ⟨rfl, rfl⟩ := eq_of_set found found' hfound rfl
      obtain ⟨rfl, rfl, idle, verdict⟩ := finale.of_kept held
      have none : w.counts l true = 0 := by
        rw [sound] at verdict
        have := mt verdict.mpr Bool.false_ne_true
        omega
      have still : w.runs l = 0 := by
        rw [composed.runs, idle]
        rfl
      refine .running job rfl rfl rfl rfl (by simpa [Entry.counts, none] using hcounts) ?_
      refine took.forall_ops (P := fun _ op => ∀ job' succeeded waiter,
        op = .latch l (.running job' succeeded) waiter → job' = job)
        (fun who op h job' succeeded waiter hop => h job' succeeded waiter (Op.of_wake_running hop))
        (fun u hu op hop job' succeeded waiter heq =>
          absurd (heq ▸ hop) (not_running_of_runs still u hu)) ?_ (by simp)
      simp [Op.perform]
  | counted _ m failed hfound counts plain =>
      obtain ⟨rfl, rfl⟩ := eq_of_set found found' hfound rfl
      have active : (m.value.remaining ≠ 0 ∧ m.value.finishing = false) ∧ m.terminated = false := by
        simpa [Latch.counts] using counts
      have hverdict : (m.value.failed = true ↔ 0 < w.counts l true) →
          ((m.value.failed || failed) = true ↔ 0 < v.counts l true) := fun verdict => by
        simp only [List.map_cons, List.map_nil, List.sum_cons, List.sum_nil, Entry.counts,
          true_and] at hcounts
        rw [Bool.or_eq_true, verdict, hcounts]
        cases failed with
        | true =>
            simp only [if_true, or_true, true_iff]
            omega
        | false => simp
      cases finale with
      | absent bare idle verdict untouched =>
          exact .absent bare idle (hverdict verdict)
            (took.stands reachable Origin.noConfusion untouched rfl ⟨m, found, bare⟩)
      | awaited job kept' mine idle verdict => exact .awaited job kept' mine idle (hverdict verdict)
      | skipped _ _ _ _ zero | finished _ _ _ _ _ zero => exact absurd zero active.1.1
      | running _ _ _ finishing => simp [active.1.2] at finishing
  | continued _ m job succeeded hfound =>
      obtain ⟨rfl, rfl⟩ := eq_of_set found found' hfound rfl
      have ht := took.mem_threads
      have hop : .latch l (.running job succeeded) .nobody ∈ t.ops := took.due_mem
      have finishing : m.value.finishing = true := by
        by_contra idle
        refine not_running_of_runs ?_ t ht hop
        rw [composed.runs, if_neg idle]
      obtain ⟨job', rfl, rfl, verdict, spent, sound, same⟩ := finale.of_finishing finishing
      obtain rfl := same t ht _ hop job succeeded .nobody rfl
      refine .finished job t.who succeeded spent rfl ?_ ?_ (by simpa [sound] using hcounts) ?_
      · simp [(composed.last finishing).1]
      · simp [verdict]
      · exact took.settles reachable (.finale l job succeeded .nobody) (by simp [Op.parts])
  | latchTerminated _ m hfound held idle => exact absurd rfl (guards.spared _)

end Latches

section Tickets

variable {p l : Nat} {ticket : Ticket} {issue : Issue} {latch : Latch}

/-- When a ticket is made out, its latch is told what there is to perform in the end. Without
members that has been performed already. -/
theorem Took.finale_new (reachable : w.Reachable) (reachable' : v.Reachable)
    (took : w.Took v index t old tail e) (told : .ticketed p ticket ∈ e.notes)
    (hl : ticket.latch = some l) (issued : Recorded v.history (.issued p ticket.id issue))
    (found : v.store.latches[l]? = some latch) :
    v.Finale l (issue.finaleOrigin p ticket.id l) latch issue.finale? := by
  obtain ⟨op, rfl, founds⟩ := took.founds told hl found
  have fresh : l = w.store.latches.length := (took.act.tickets told told).2.2 l hl
  have apart : ∀ call waiter, [op] ≠ [.latch l call waiter] := fun call waiter h =>
    founds.apart l call waiter (List.cons.inj h).1
  have none : v.counts l true = 0 := by
    rw [(took.total_kept l apart true).1]
    exact (reachable.counts_absent (Nat.le_of_eq fresh.symm) true).1
  have untouched : v.Untouched (.latch l) := by
    have absent : w.store.latches[l]? = .none := List.getElem?_eq_none (Nat.le_of_eq fresh.symm)
    refine took.untouched_of_unbegun reachable Origin.noConfusion
      (reachable.untouched Origin.noConfusion ?_) ?_
    · rintro ⟨m, found', -⟩
      rw [absent] at found'
      cases found'
    · rintro op - (_ | ⟨_, _, _, _, found'⟩)
      rw [absent] at found'
      cases found'
  have hissue : ∀ {issue'}, .issued p ticket.id issue' ∈ e.notes → issue = issue' := fun hnote =>
    reachable'.issue_eq issued (took.recorded.mpr (.inl hnote))
  have verdict : ∀ n job?, (Latch.expecting n job?).value.failed = true ↔ 0 < v.counts l true := by
    simp [none, Latch.expecting]
  cases founds with
  | job submits pool job given =>
      obtain rfl := hissue given
      exact .absent rfl rfl (verdict 1 .none) untouched
  | batch command pool batch given ahead =>
      obtain rfl := hissue given
      rw [Issue.finale?]
      cases hfinale : batch.finale with
      | none => exact .absent rfl rfl (verdict _ _) untouched
      | some job =>
          exact .awaited job rfl (if_neg (ahead (hfinale ▸ rfl))) rfl (verdict _ _)
  | emptyBatch batch id asker succeeded =>
      have known : Recorded w.history (.issued p id (.batch batch)) :=
        reachable.known.ops t took.mem_threads _ took.due_mem
      obtain rfl := reachable'.issue_eq issued (known.mono took.history_subset)
      have stands := (took.leads reachable.orderly).1.1
      obtain ⟨empty, job, finale⟩ := stands.finale
      rw [Issue.finale?, Issue.finaleOrigin, if_pos empty, finale]
      refine .finished job t.who succeeded rfl rfl rfl rfl none ?_
      exact took.settles reachable (.batch p batch id asker succeeded)
        (by simp [Op.parts, finale])

/-- The finale of a submission stands as its latch says. -/
theorem Reachable.finale (h : w.Reachable) (recorded : Recorded w.history (.ticketed p ticket))
    (hl : ticket.latch = some l) (issued : Recorded w.history (.issued p ticket.id issue))
    (found : w.store.latches[l]? = some latch) :
    w.Finale l (issue.finaleOrigin p ticket.id l) latch issue.finale? := by
  suffices hall : w.Reachable → Recorded w.history (.ticketed p ticket) →
      Recorded w.history (.issued p ticket.id issue) → ∀ latch, w.store.latches[l]? = some latch →
        w.Finale l (issue.finaleOrigin p ticket.id l) latch issue.finale? from
    hall h recorded issued latch found
  clear recorded issued found
  refine h.induct (P := fun w => w.Reachable → Recorded w.history (.ticketed p ticket) →
    Recorded w.history (.issued p ticket.id issue) → ∀ latch, w.store.latches[l]? = some latch →
      w.Finale l (issue.finaleOrigin p ticket.id l) latch issue.finale?) ?_
    (fun w command reachable ih _ recorded issued latch found =>
      (ih reachable recorded issued latch found).issue command)
    fun w v index t old tail e reachable took ih reachable' recorded issued latch' found' => ?_
  · rintro cells - ⟨who, hmem⟩
    cases hmem
  · rcases took.recorded.mp recorded with told | recorded'
    · exact took.finale_new reachable reachable' told hl issued found'
    · have there := reachable.known.store.latches p ticket l recorded' hl
      have found : w.store.latches[l]? = some w.store.latches[l] := List.getElem?_eq_getElem there
      have issued' : Recorded w.history (.issued p ticket.id issue) := by
        obtain ⟨who, hmem⟩ := recorded'
        obtain ⟨-, -, issue', before, -⟩ := reachable.known.entries who _ hmem
        exact reachable'.issue_eq issued (before.mono took.history_subset) ▸ before
      have ho := Issue.finaleOrigin_ne_caller p ticket.id l issue
      have ih := ih reachable recorded' issued' _ found
      by_cases apart : ∀ call waiter, old ≠ [.latch l call waiter]
      · obtain ⟨counts, -, kept⟩ := took.total_kept l apart true
        rw [kept there, found, Option.some.injEq] at found'
        exact found' ▸ took.finale_kept reachable ho found counts
          (fun job succeeded waiter hop => ⟨_, _, took.act.running_of_mem apart hop⟩) ih
      · push Not at apart
        obtain ⟨call, waiter, rfl⟩ := apart
        have hop : .latch l call waiter ∈ t.ops := took.due_mem
        exact took.finale_call reachable ho
          (reachable.guards recorded' hl took.mem_threads hop) found found' ih

end Tickets

end World

end WorkerPool
