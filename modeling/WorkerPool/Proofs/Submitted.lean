import WorkerPool.Proofs.Enactment
import WorkerPool.Proofs.Numbering

/-! What is submitted is what was presented. The first turn of a submission gives the next id of the
pool to the job that its text stands for, or to the batch that is kept under its name, and what it
leaves to do is the submission of just that. No other turn gives an id to a job or to a batch. So
whatever a history says of the id of a submission, who has accepted it, what was counted for it and
which functions were called, it says of what a command or a function presented in that one turn. A
result on batches that were given an id speaks of the batches that commands have presented. -/

namespace WorkerPool

variable {α : Type}

/-- What is left of a submission after its first turn, `behind` apart. A job is about to be counted
into the backlog, with a latch of its own if it may be waited for. The members of a batch are all
still to come, and its latch, if it is to have one, expects as many and holds the finale. Without
members the finale is performed before there is a latch. -/
inductive Op.TakesUp (s : Store α) (e : Effect α) (p id : Nat) (asker : Asker)
    (behind : List (Op α)) : Issue → Prop
  | job (job : Job) (latch : Option Nat) (wanted : latch.isSome = job.waitable)
      (held : ∀ l, latch = some l →
        l = s.latches.length ∧ e.store.latches = s.latches ++ [Latch.expecting 1 none])
      (left : e.ops =
        .submit { pool := p, asker, ticket := .job id latch } (.enlist { id, job, latch }) ::
          behind) :
      TakesUp s e p id asker behind (.job job)
  | batch (b : Batch) (latch : Option Nat) (ahead : b.finale.isSome → b.members ≠ [])
      (wanted : latch.isSome = (b.finale.isSome || b.waitable))
      (held : ∀ l, latch = some l →
        l = s.latches.length ∧ e.store.latches = s.latches ++ [Latch.expecting b.size b.finale])
      (left : e.ops =
        .submit
          { pool := p
            asker
            ticket := .batch id b.size b.waitable latch
            rest := b.members }
          .next :: behind) :
      TakesUp s e p id asker behind (.batch b)
  | finale (b : Batch) (job : Job) (finale : b.finale = some job) (empty : b.members = [])
      (left : e.ops =
        .perform (.batch p id) job.programs :: .construct (.submission p b id asker) true ::
          behind) :
      TakesUp s e p id asker behind (.batch b)

section Turns

variable {around : Around} {s : Store α} {who : Who} {e : Effect α} {op : Op α} {p id : Nat}
  {pool : Pool} {asker : Asker} {issue : Issue}

/-- What is presented gets an id as a whole. -/
theorem Op.Presents.opens (presents : op.Presents s p pool asker issue) : issue.opens = true := by
  cases presents <;> rfl

/-- On whose behalf something is presented depends on the operation alone. -/
theorem Op.Presents.asker_eq {p' : Nat} {pool' : Pool} {asker' : Asker} {issue' : Issue}
    (presents : op.Presents s p pool asker issue)
    (presents' : op.Presents s p' pool' asker' issue') : asker' = asker := by
  cases presents <;> cases presents' <;> rfl

theorem Submission.issued_mem_ofBatch (place : Nat) (b : Batch) :
    .issued place pool.nextId (.batch b) ∈ (Submission.ofBatch s place pool b asker).notes := by
  unfold ofBatch
  dsimp only
  split
  · exact List.mem_cons_self
  · split <;> exact List.mem_cons_self

theorem Submission.panic_ofBatch (place : Nat) (b : Batch) :
    (Submission.ofBatch s place pool b asker).panic = none := by
  unfold ofBatch
  dsimp only
  split
  · rfl
  · split <;> rfl

/-- The turn of an operation that presents something gives the next id to it. -/
theorem Op.Presents.noted (presents : op.Presents s p pool asker issue)
    (effect : op.effect around s who = some e) :
    .issued p pool.nextId issue ∈ e.notes ∧ e.panic = none := by
  cases presents with
  | job name text ticket handover job known resolved =>
      have heq : Submission.ofJob s p pool job (.step ticket handover) = e := by
        simpa [Op.effect, Command.effect, PoolRequest.effect, PoolRequest.effect.known,
          Effect.withJob, Effect.withObject, known, resolved] using effect
      subst heq
      exact ⟨List.mem_cons_self, rfl⟩
  | batch name kept ticket b known found =>
      have heq : Submission.ofBatch s p pool b (.step ticket .released) = e := by
        simpa [Op.effect, Command.effect, PoolRequest.effect, PoolRequest.effect.known,
          Effect.withObject, known, found] using effect
      subst heq
      exact ⟨Submission.issued_mem_ofBatch p b, Submission.panic_ofBatch p b⟩
  | action origin position name text rest later job known resolved =>
      rw [Op.effect, Program.effect] at effect
      obtain ⟨inner, hinner, rfl⟩ := Option.map_eq_some_iff.mp effect
      have heq : Submission.ofJob s p pool job .function = inner := by
        simpa [Action.effect, known, resolved] using hinner
      subst heq
      exact ⟨List.mem_cons_self, rfl⟩

/-- A turn that gives an id to a job or a batch is the first of its submission: the operation
presents it to the pool, whose next id this is, and leaves it to be submitted in front of what is
left of the function, if it is one that submits. -/
theorem Deed.takesUp (deed : Deed around s who op e) (noted : .issued p id issue ∈ e.notes)
    (opens : issue.opens = true) :
    ∃ pool asker behind, op.Presents s p pool asker issue ∧ op.Submits behind asker ∧
      pool.nextId = id ∧ Op.TakesUp s e p id asker behind issue := by
  have first : ∀ {q n : Nat} {given : Issue} {tail : List Entry},
      (∀ note ∈ tail, note.issued? p = none) →
      .issued p id issue ∈ Entry.issued q n given :: tail → p = q ∧ id = n ∧ issue = given := by
    intro q n given tail plain mem
    rcases List.mem_cons.mp mem with heq | mem
    · simpa using heq
    · simpa [Entry.issued?] using plain _ mem
  cases deed with
  | commanded command eases leaves plain => exact (plain _ noted).elim
  | acted origin position action rest later eases leaves plain => exact (plain _ noted).elim
  | accepted sub pool found through hands plain => exact (plain _ noted).elim
  | refused sub pool found refuses plain => exact (plain _ noted).elim
  | jobAdded submits place pool job found waitable named presents =>
      obtain ⟨rfl, rfl, rfl⟩ := first (by simp [Entry.issued?]) noted
      refine ⟨pool, _, _, presents, submits, rfl, .job job (some s.latches.length) waitable.symm ?_ rfl⟩
      rintro _ ⟨⟩
      exact ⟨rfl, rfl⟩
  | freeJobAdded submits place pool job found free named presents =>
      obtain ⟨rfl, rfl, rfl⟩ := first (by simp [Entry.issued?]) noted
      exact ⟨pool, _, _, presents, submits, rfl, .job job none free.symm (by simp) rfl⟩
  | batchAdded command place pool b ticket found counted ahead named presents =>
      obtain ⟨rfl, rfl, rfl⟩ := first (by simp [Entry.issued?]) noted
      refine ⟨pool, _, [], presents, .command command ticket .released, rfl,
        .batch b (some s.latches.length) ahead ?_ ?_ rfl⟩
      · rcases counted with finale | waitable
        · simp [finale]
        · simp [waitable]
      · rintro _ ⟨⟩
        exact ⟨rfl, rfl⟩
  | freeBatchAdded command place pool b ticket found bare free named presents =>
      obtain ⟨rfl, rfl, rfl⟩ := first (by simp [Entry.issued?]) noted
      exact ⟨pool, _, [], presents, .command command ticket .released, rfl,
        .batch b none (by simp [bare]) (by simp [bare, free]) (by simp) rfl⟩
  | emptyBatchAdded command place pool b job ticket found finale empty named presents =>
      obtain ⟨rfl, rfl, rfl⟩ := first (by simp) noted
      exact ⟨pool, _, [], presents, .command command ticket .released, rfl,
        .finale b job finale empty rfl⟩
  | memberAdded sub pool job rest found ahead =>
      obtain ⟨-, -, rfl⟩ := first (by simp) noted
      cases opens
  | drained place pool ring found valid empty capacity =>
      obtain ⟨item, -, heq⟩ := List.mem_map.mp noted
      cases heq
  | jobFinished place index pool item succeeded found =>
      cases succeeded with
      | true => simp at noted
      | false => cases noted
  | abandoned place pool items found =>
      cases items with
      | nil => cases noted
      | cons item items => simp at noted
  | _ => simp at noted

/-- The turn is the first one of a submission to the pool at `p`, made by `who`: it is the turn of an
operation that presents `issue`, and the id `id` is next. -/
def Moment.Submits (m : Moment α) (who : Who) (p id : Nat) (issue : Issue) : Prop :=
  ∃ op pool asker, m.due? = some (who, op) ∧ op.Presents m.world.store p pool asker issue ∧
    pool.nextId = id

theorem Moment.Submits.opens {m : Moment α} (submits : m.Submits who p id issue) :
    issue.opens = true := by
  obtain ⟨op, pool, asker, -, presents, -⟩ := submits
  exact presents.opens

end Turns

namespace World

variable {w v : World α} {moments : List (Moment α)} {cells : List Int} {index pick p id : Nat}
  {who : Who} {op : Op α} {pool : Pool} {asker : Asker} {issue : Issue}

/-- The first turn of a submission takes up what the operation presents: it records that it gives the
next id to that, and leaves it to be submitted. -/
theorem Reachable.takesUp (h : w.Reachable) (due : (Moment.mk w index).due? = some (who, op))
    (presents : op.Presents w.store p pool asker issue) (turn : w.turn index pick = some v) :
    ∃ t rest e behind, t.who = who ∧ w.Took v index t [op] rest e ∧
      .issued p pool.nextId issue ∈ e.notes ∧ op.Submits behind asker ∧
      Op.TakesUp w.store e p pool.nextId asker behind issue := by
  obtain ⟨t, rest, got, rfl, ops⟩ := of_due? due
  obtain ⟨e, effect, -, deed, fine | panicked⟩ := took_cases h.orderly got ops turn
  · obtain ⟨noted, -⟩ := presents.noted effect
    obtain ⟨pool', asker', behind, presents', submits, -, takesUp⟩ :=
      deed.takesUp noted presents.opens
    obtain rfl := presents.asker_eq presents'
    exact ⟨t, rest, e, behind, rfl, fine.2, noted, submits, takesUp⟩
  · obtain ⟨-, calm⟩ := presents.noted effect
    obtain ⟨payload, -, -, -, -, -, panic, -⟩ := panicked
    rw [calm] at panic
    cases panic

/-- An id is recorded for a job or a batch by the turn that submits it. -/
theorem Run.issued_iff (run : (World.start cells).Run moments w) (opens : issue.opens = true) :
    (who, .issued p id issue) ∈ w.history ↔ ∃ m ∈ moments, m.Submits who p id issue := by
  induction run with
  | nil => simp [World.start]
  | issue run command ih => exact ih
  | @turn moments w v run index pick turn ih =>
      have reachable : w.Reachable := run.reachable (.start cells)
      obtain ⟨t, old, tail, e, took⟩ := took_of_turn reachable.orderly turn
      constructor
      · intro mem
        rcases took.mem_history.mp mem with ⟨rfl, noted⟩ | earlier
        · obtain ⟨op, rfl, -, deed⟩ := took.act.written noted not_false (by simp)
          obtain ⟨pool, asker, -, presents, -, next, -⟩ := deed.takesUp noted opens
          exact ⟨⟨w, index⟩, List.mem_append_right _ List.mem_cons_self, op, pool, asker,
            due?_eq took.got took.ops, presents, next⟩
        · obtain ⟨m, hm, submits⟩ := ih.mp earlier
          exact ⟨m, List.mem_append_left _ hm, submits⟩
      · rintro ⟨m, hm, submits⟩
        rcases List.mem_append.mp hm with hm | hm
        · exact took.history_subset (ih.mpr ⟨m, hm, submits⟩)
        · obtain rfl := List.mem_singleton.mp hm
          obtain ⟨op, pool, asker, due, presents, rfl⟩ := submits
          obtain ⟨t, rest, e, behind, rfl, took, noted, -⟩ := reachable.takesUp due presents turn
          exact took.mem_history.mpr (.inl ⟨rfl, noted⟩)

/-- What is submitted to a pool later gets a larger id, so each id is given to a job or a batch in one
turn at most. -/
theorem Run.submitted_in_order (run : (World.start cells).Run moments w) :
    moments.Pairwise fun m m' => ∀ who who' p id id' issue issue', m.Submits who p id issue →
      m'.Submits who' p id' issue' → id < id' := by
  induction run with
  | nil => exact .nil
  | issue run command ih => exact ih
  | @turn moments w v run index pick turn ih =>
      refine List.pairwise_append.mpr ⟨ih, List.pairwise_singleton _ _, fun m hm m' hm' => ?_⟩
      intro who who' p id id' issue issue' earlier later
      obtain rfl := List.mem_singleton.mp hm'
      obtain ⟨op, pool, asker, -, presents, rfl⟩ := later
      have given : id ∈ w.given p :=
        mem_given.mpr ⟨issue, who, (run.issued_iff earlier.opens).mpr ⟨m, hm, earlier⟩⟩
      obtain ⟨positive, all⟩ := (run.reachable (.start cells)).given_upcoming p
      rw [all, List.mem_range'_1, Store.upcoming_eq presents.pool.1] at given
      rw [Store.upcoming_eq presents.pool.1] at positive
      omega

section Results

variable {m : Moment α} {job : Job} {b : Batch} {ticket : Ticket} {l : Nat}

/-- From its first turn on the id of a submission stands for what was presented, and for nothing
else. -/
theorem Run.issued_of_submits (run : (World.start cells).Run moments w) (hm : m ∈ moments)
    (submits : m.Submits who p id issue) {given : Issue} :
    Recorded w.history (.issued p id given) ↔ given = issue := by
  have recorded : Recorded w.history (.issued p id issue) :=
    ⟨who, (run.issued_iff submits.opens).mpr ⟨m, hm, submits⟩⟩
  constructor
  · exact fun other => (run.reachable (.start cells)).issue_eq other recorded
  · rintro rfl
    exact recorded

/-- Every ticket has been made out for something that was submitted. -/
theorem Run.submits_of_ticketed (run : (World.start cells).Run moments w)
    (ticketed : Recorded w.history (.ticketed p ticket)) :
    ∃ m ∈ moments, ∃ who issue, m.Submits who p ticket.id issue ∧ issue.Fits ticket := by
  obtain ⟨_, mem⟩ := ticketed
  obtain ⟨-, -, issue, ⟨who, issued⟩, fits⟩ := (run.reachable (.start cells)).known.entries _ _ mem
  have opens : issue.opens = true := by
    cases issue with
    | member => exact fits.elim
    | _ => rfl
  obtain ⟨m, hm, submits⟩ := (run.issued_iff opens).mp issued
  exact ⟨m, hm, who, issue, submits, fits⟩

/-- Whoever has the item of a job that was submitted has that job. -/
theorem Run.job_of_submits (run : (World.start cells).Run moments w) (hm : m ∈ moments)
    (submits : m.Submits who p id (.job job)) {item : Item} (known : item.Known w.history p)
    (named : item.id = id) : item.job = job :=
  (run.reachable (.start cells)).job_of_known ((run.issued_of_submits hm submits).mpr rfl) rfl named
    known

/-- What was accepted under an id is completed when all the functions of the job that the id was given
to have been called and have returned. -/
theorem Reachable.completed_iff_of_issued (h : w.Reachable)
    (issued : Recorded w.history (.issued p id issue)) (single : issue.job? = some job)
    (pushed : Pushed w.history p id) :
    w.Completed p id ↔ ∃ i, w.CompletedBy (.worker p i) (.item p id) job.programs := by
  constructor
  · rintro ⟨i, item, named, known, completed⟩
    rw [h.job_of_known issued single named known] at completed
    exact ⟨i, completed⟩
  · rintro ⟨i, completed⟩
    obtain ⟨item, named, who, mem⟩ := pushed
    have known : item.Known w.history p := (h.known.entries _ _ mem).2
    rw [← h.job_of_known issued single named known] at completed
    exact ⟨i, item, named, known, completed⟩

/-- The ticket for a job that was submitted is one for a single job, and it is fulfilled when the
functions of that job have all been called and have returned. -/
theorem Run.fulfilled_of_job (run : (World.start cells).Run moments w) (hm : m ∈ moments)
    (submits : m.Submits who p ticket.id (.job job)) (honoured : ticket.Honoured w.history p) :
    (∃ latch, ticket = .job ticket.id latch ∧ latch.isSome = job.waitable) ∧
      (w.Fulfilled p l ticket ↔
        ∃ i, w.CompletedBy (.worker p i) (.item p ticket.id) job.programs) := by
  have h : w.Reachable := run.reachable (.start cells)
  have issued := (run.issued_of_submits hm submits).mpr rfl
  have fits := h.fits honoured.1 issued
  cases ticket with
  | batch => exact fits.elim
  | job id latch =>
      refine ⟨⟨latch, rfl, fits⟩, ?_⟩
      exact (h.fulfilled_iff_completed honoured).trans
        (h.completed_iff_of_issued issued rfl honoured.2)

/-- The ticket for a batch that was submitted is one for as many members, which are those of the
batch, and it is fulfilled when the functions of them all and of the finale, if there is one, have
been called and have returned. -/
theorem Run.fulfilled_of_batch (run : (World.start cells).Run moments w) (hm : m ∈ moments)
    (submits : m.Submits who p ticket.id (.batch b)) (honoured : ticket.Honoured w.history p) :
    (∃ latch, ticket = .batch ticket.id b.size b.waitable latch ∧
        latch.isSome = (b.finale.isSome || b.waitable)) ∧
      (WorkerPool.membersOf w.history p ticket.id).map Prod.snd = b.members ∧
      (w.Fulfilled p l ticket ↔
        (∀ member ∈ WorkerPool.membersOf w.history p ticket.id, ∃ i,
          w.CompletedBy (.worker p i) (.item p member.1) member.2.programs) ∧
        ∀ job, b.finale = some job → ∃ who, w.CompletedBy who
          ((Issue.batch b).finaleOrigin p ticket.id l) job.programs) := by
  have h : w.Reachable := run.reachable (.start cells)
  have issued := (run.issued_of_submits hm submits).mpr rfl
  have fits := h.fits honoured.1 issued
  cases ticket with
  | job => exact fits.elim
  | batch id size waitable latch =>
      obtain ⟨rfl, rfl, wanted⟩ := fits
      refine ⟨⟨latch, rfl, wanted⟩, h.members_eq honoured issued, ?_⟩
      obtain ⟨batch, -, -, pushed⟩ := honoured.2
      have completed : ∀ member ∈ WorkerPool.membersOf w.history p id,
          w.Completed p member.1 ↔ ∃ i,
            w.CompletedBy (.worker p i) (.item p member.1) member.2.programs :=
        fun member mem => h.completed_iff_of_issued (mem_membersOf_pair.mp mem) rfl
          (pushed member mem)
      constructor
      · rintro ⟨members, finale⟩
        refine ⟨fun member mem => ?_, fun job hjob => finale _ job issued hjob⟩
        exact (completed member mem).mp (members _ (List.mem_map_of_mem mem))
      · rintro ⟨members, finale⟩
        refine ⟨fun n hn => ?_, fun issue job issued' hjob => ?_⟩
        · obtain ⟨member, mem, rfl⟩ := List.mem_map.mp hn
          exact (completed member mem).mpr (members member mem)
        · rw [h.issue_eq issued' issued] at hjob ⊢
          exact finale job hjob

end Results

end World

end WorkerPool
