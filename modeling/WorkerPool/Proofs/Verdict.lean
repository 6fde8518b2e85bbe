import WorkerPool.Proofs.Moments
import WorkerPool.Proofs.Settled

/-! What the holder of a ticket is told. A ticket is handed out only when all that it stands for has
been accepted, and whoever waits for it goes on when its latch is at zero. By then every member has
come to its end and the finale has been dropped or is at its end too, so the answer can be the truth
about all of them: it is a success if every function that was submitted has been called and has
returned, and the id of the ticket is abandoned if not.

The command to wait for a ticket goes on to a wait on its latch, if somebody may wait for it, and the
thread stays there, asleep or not, until the one turn in which it is told the answer. -/

namespace WorkerPool

variable {α : Type}

/-- What stands behind a wait that is done `via` a pool or not: the pool is held until the wait is
over. -/
inductive Store.Via (s : Store α) : Option String → List (Op α) → Prop
  | direct : Via s none []
  | pool (name : String) (place : Nat) (known : s.names.pools.find? name = some place) :
      Via s (some name) [.release place]

/-- Waiting uses up a ticket that may be waited for, and leaves a wait on its latch. -/
theorem TicketRequest.effect_wait {s : Store α} {name : String} {via : Option String}
    {behind : List (Op α)} {ticket : Ticket} {l : Nat}
    (kept : s.names.tickets.find? name = some ticket) (awaited : ticket.awaited = .ok l)
    (held : s.Via via behind) :
    ∃ notes, (TicketRequest.wait via).effect s name = {
      store := { s with names := { s.names with tickets := s.names.tickets.erase name } }
      ops := .latch l (.wait .arriving) (.ticket ticket.id) :: behind
      notes } := by
  cases held with
  | direct =>
      exact ⟨_, by simp [effect, effect.kept, Effect.withObject, kept, Ticket.await, awaited]; rfl⟩
  | pool pool place known =>
      exact ⟨_, by
        simp [effect, effect.kept, Effect.withObject, kept, known, Ticket.await, awaited,
          Effect.holding]
        rfl⟩

/-- The turn in which the thread whose turn it is, which waits for the ticket `id` on the latch `l`,
is told the answer and goes on with what stands `behind` the wait. -/
def Moment.Tells (l id : Nat) (behind : List (Op α)) (m : Moment α) : Prop :=
  ∃ t stage pick v t', m.world.threads[m.index]? = some t ∧
    t.ops = .latch l (.wait stage) (.ticket id) :: behind ∧
    m.world.turn m.index pick = some v ∧ v.threads[m.index]? = some t' ∧ t'.ops = behind

namespace World

variable {w v : World α} {index : Nat} {t : Thread α} {p l : Nat} {ticket : Ticket} {latch : Latch}

/-- All functions of what a ticket stands for have been called and have returned: those of its
members and those of the finale, if there is one. -/
structure Fulfilled (w : World α) (p l : Nat) (ticket : Ticket) : Prop where
  members : ∀ id ∈ ticket.members w.history p, w.Completed p id
  finale : ∀ issue job, Recorded w.history (.issued p ticket.id issue) → issue.finale? = some job →
    ∃ who, w.CompletedBy who (issue.finaleOrigin p ticket.id l) job.programs

/-- An item that was accepted comes to no good end: it was discarded, or one of its functions has
panicked. -/
def Abandoned (w : World α) (p id : Nat) : Prop :=
  (∃ item : Item, item.id = id ∧ Recorded w.history (.discarded p item)) ∨
  ∃ (i : Nat) (item : Item), item.id = id ∧ item.Known w.history p ∧
    w.SpoiltBy (.worker p i) (.item p id) item.job.programs

/-- Nothing of what a ticket stands for is going on, nor ever will. -/
structure Over (w : World α) (p l : Nat) (ticket : Ticket) : Prop where
  members : ∀ v, w.Later v → ticket.members v.history p = ticket.members w.history p
  items : ∀ id ∈ ticket.members w.history p, w.Past (.item p id)
  finale : ∀ issue job, Recorded w.history (.issued p ticket.id issue) → issue.finale? = some job →
    w.Past (issue.finaleOrigin p ticket.id l)

/-- All members of what was accepted have their ids. -/
theorem Reachable.size_of_honoured (h : w.Reachable) (honoured : ticket.Honoured w.history p) :
    (ticket.members w.history p).length = ticket.size := by
  cases ticket with
  | job id latch => rfl
  | batch bid size waitable latch =>
      obtain ⟨batch, issued, members, -⟩ := honoured.2
      have fits := h.fits honoured.1 issued
      rw [Ticket.members, List.length_map, ← List.length_map (f := Prod.snd), members]
      exact fits.1.symm

theorem Later.honoured (later : w.Later v) (h : w.Reachable)
    (honoured : ticket.Honoured w.history p) : ticket.Honoured v.history p :=
  later.keeps h (P := fun v => ticket.Honoured v.history p) honoured (fun _ _ _ honoured => honoured)
    fun _ _ _ _ _ _ _ hu _ took honoured => took.honoured hu honoured

theorem Later.members_of_honoured (later : w.Later v) (h : w.Reachable)
    (honoured : ticket.Honoured w.history p) :
    ticket.members v.history p = ticket.members w.history p := by
  have hlength := ((h.later later).size_of_honoured (later.honoured h honoured)).trans
    (h.size_of_honoured honoured).symm
  have hstart : ticket.members w.history p <+: ticket.members v.history p := by
    refine later.keeps h
      (P := fun v => ticket.members w.history p <+: ticket.members v.history p) (List.prefix_refl _)
      (fun _ _ _ ih => ih) fun u v index t old tail e _ _ took ih => ih.trans ?_
    cases ticket with
    | job => exact List.prefix_refl _
    | batch bid =>
        rw [Ticket.members, Ticket.members, took.membersOf, List.map_append]
        exact List.prefix_append _ _
  exact (hstart.eq_of_length hlength.symm).symm

/-- An accepted item that is lost was not refused. -/
theorem Reachable.lost_of_pushed (h : w.Reachable) {id : Nat} (pushed : Pushed w.history p id) :
    w.Lost p id ↔ w.Abandoned p id := by
  constructor
  · rintro (spoilt | ⟨item, hid, discarded | refused⟩)
    · exact .inr spoilt
    · exact .inl ⟨item, hid, discarded⟩
    · exact absurd refused ((h.of_pushed pushed).1 item hid)
  · rintro (⟨item, hid, discarded⟩ | spoilt)
    · exact .inr ⟨item, hid, .inl discarded⟩
    · exact .inl spoilt

/-- All members of what was accepted have come to their ends when its latch is at zero, and they are
all good if no failure has been counted. -/
theorem Reachable.sound_iff (h : w.Reachable) (honoured : ticket.Honoured w.history p)
    (hl : ticket.latch = some l) (found : w.store.latches[l]? = some latch)
    (zero : latch.value.remaining = 0) :
    (∀ id ∈ ticket.members w.history p, w.Completed p id ∨ w.Lost p id) ∧
      (w.counts l true = 0 ↔ ∀ id ∈ ticket.members w.history p, w.Completed p id) := by
  have hsize := h.size_of_honoured honoured
  have unskipped : w.skipped p ticket = 0 := by
    unfold World.skipped
    split <;> omega
  obtain ⟨ended, failures⟩ := h.ended_of_zero honoured.1 hl found zero (by omega)
  have lost_iff : 0 < w.counts l true ↔ ∃ id ∈ ticket.members w.history p, w.Lost p id := by
    rw [failures, unskipped]
    simp
  refine ⟨ended, fun none id hid => ?_, fun completed => ?_⟩
  · refine (ended id hid).resolve_right fun lost => ?_
    have := lost_iff.mpr ⟨id, hid, lost⟩
    omega
  · refine Nat.eq_zero_of_not_pos fun counted => ?_
    obtain ⟨id, hid, lost⟩ := lost_iff.mp counted
    exact h.not_lost (completed id hid) lost

/-- The latch of what was accepted knows of a failure, when it is at zero, just if there was one. -/
theorem Reachable.fulfilled_iff (h : w.Reachable) (honoured : ticket.Honoured w.history p)
    (hl : ticket.latch = some l) (found : w.store.latches[l]? = some latch)
    (zero : latch.value.remaining = 0) :
    (w.Fulfilled p l ticket ↔ latch.value.failed = false) ∧ w.Over p l ticket := by
  have recorded := honoured.1
  obtain ⟨ended, sound_iff⟩ := h.sound_iff honoured hl found zero
  obtain ⟨spent, idle⟩ := (h.tallied.composed l latch found).of_zero zero
  obtain ⟨who, hrecorded⟩ := recorded
  obtain ⟨-, -, issue, issued, -⟩ := h.known.entries who _ hrecorded
  have finale := h.finale honoured.1 hl issued found
  have same : ∀ {issue'}, Recorded w.history (.issued p ticket.id issue') → issue' = issue :=
    fun issued' => h.issue_eq issued' issued
  have ho := Issue.finaleOrigin_ne_caller p ticket.id l issue
  have past : ∀ id ∈ ticket.members w.history p, w.Past (.item p id) := fun id hid =>
    (ended id hid).elim h.past_of_completed h.past_of_lost
  generalize hfinale : issue.finale? = finale? at finale
  cases finale with
  | awaited _ kept => simp [spent] at kept
  | running _ _ _ finishing => simp [idle] at finishing
  | absent _ _ verdict untouched =>
      refine ⟨⟨fun fulfilled => ?_, fun sound => ⟨?_, ?_⟩⟩,
        fun u later => later.members_of_honoured h honoured, past, ?_⟩
      · have none := sound_iff.mpr fulfilled.members
        exact Bool.eq_false_iff.mpr fun failed => by have := verdict.mp failed; omega
      · refine sound_iff.mp (Nat.eq_zero_of_not_pos fun lost => ?_)
        rw [verdict.mpr lost] at sound
        cases sound
      · rintro issue' job issued' hjob
        rw [same issued', hfinale] at hjob
        cases hjob
      · rintro issue' job issued' hjob
        rw [same issued', hfinale] at hjob
        cases hjob
  | skipped job _ mine _ _ verdict lost untouched =>
      refine ⟨⟨fun fulfilled => ?_, fun sound => ?_⟩,
        fun u later => later.members_of_honoured h honoured, past, ?_⟩
      · have none := sound_iff.mpr fulfilled.members
        omega
      · rw [verdict] at sound
        cases sound
      · rintro issue' job' issued' -
        rw [same issued']
        exact h.past_of_untouched ho untouched (mine ▸ ⟨latch, found, spent⟩)
  | finished job who succeeded _ _ _ verdict sound last =>
      refine ⟨⟨fun fulfilled => ?_, fun verdict' => ⟨sound_iff.mp sound, ?_⟩⟩,
        fun u later => later.members_of_honoured h honoured, past, ?_⟩
      · cases succeeded with
        | true => exact verdict
        | false =>
            obtain ⟨who', completed⟩ := fulfilled.finale issue job issued hfinale
            exact absurd last completed.not_spoiltBy
      · rintro issue' job' issued' hjob
        obtain rfl := same issued'
        obtain rfl : job = job' := Option.some.inj (hfinale.symm.trans hjob)
        rw [verdict, Bool.not_eq_false'] at verdict'
        subst verdict'
        exact ⟨who, last⟩
      · rintro issue' job' issued' -
        rw [same issued']
        cases succeeded with
        | true => exact h.past_of_completedBy ho last
        | false => exact h.past_of_spoiltBy ho last

/-- All there is to a single job are its functions. -/
theorem Reachable.fulfilled_iff_completed (h : w.Reachable) {id : Nat} {latch : Option Nat}
    (honoured : (Ticket.job id latch).Honoured w.history p) :
    w.Fulfilled p l (.job id latch) ↔ w.Completed p id := by
  refine ⟨fun fulfilled => fulfilled.members id (List.mem_singleton_self id), fun completed =>
    ⟨fun m hm => List.mem_singleton.mp hm ▸ completed, fun issue job issued hjob => ?_⟩⟩
  cases issue with
  | job => cases hjob
  | _ => exact (h.fits honoured.1 issued).elim

/-- A single job has been performed to its end or it is abandoned. -/
theorem Reachable.fulfilled_job (h : w.Reachable) {id : Nat}
    (honoured : (Ticket.job id (some l)).Honoured w.history p)
    (found : w.store.latches[l]? = some latch) (zero : latch.value.remaining = 0) :
    (w.Fulfilled p l (.job id (some l)) ↔ w.Completed p id) ∧
      (¬w.Fulfilled p l (.job id (some l)) ↔ w.Abandoned p id) := by
  have fulfilled : w.Fulfilled p l (.job id (some l)) ↔ w.Completed p id :=
    h.fulfilled_iff_completed honoured
  refine ⟨fulfilled, ?_⟩
  rw [fulfilled, ← h.lost_of_pushed honoured.2]
  obtain ⟨ended, -⟩ := h.sound_iff honoured rfl found zero
  exact ⟨(ended id (List.mem_singleton_self id)).resolve_left,
    fun lost completed => h.not_lost completed lost⟩

/-- The command to wait for a ticket goes on to the wait, if somebody may wait for the ticket. -/
theorem waits_of_command {name : String} {via : Option String} {behind : List (Op α)}
    (got : w.threads[index]? = some t) (ops : t.ops = [.command (.onTicket name (.wait via))])
    (kept : w.store.names.tickets.find? name = some ticket) (awaited : ticket.awaited = .ok l)
    (held : w.store.Via via behind) (pick : Nat) :
    ∃ v t', w.turn index pick = some v ∧ v.threads[index]? = some t' ∧
      t'.ops = .latch l (.wait .arriving) (.ticket ticket.id) :: behind := by
  obtain ⟨notes, heq⟩ := TicketRequest.effect_wait kept awaited held
  have effect : (Op.command (.onTicket name (.wait via))).effect (w.around index) w.store t.who =
      some _ := congrArg some heq
  exact ⟨_, _, turn_of_effect got ops effect pick, thread_of_silent got rfl rfl pick [],
    List.append_nil _⟩

/-- A turn of the wait goes to sleep, or it is over with the answer. -/
theorem Reachable.wait_goes (h : w.Reachable) {stage : Stage} {id pick : Nat}
    {behind : List (Op α)} (got : w.threads[index]? = some t)
    (ops : t.ops = .latch l (.wait stage) (.ticket id) :: behind)
    (turn : w.turn index pick = some v) :
    ∃ t', v.threads[index]? = some t' ∧
      (t'.ops = .latch l (.wait .asleep) (.ticket id) :: behind ∨ t'.ops = behind) := by
  obtain ⟨e, -, rfl, -, deed⟩ := took_of_effect h.orderly got ops nofun turn
  cases deed with
  | jobAdded submits | freeJobAdded submits => cases submits
  | waitSlept => exact ⟨_, thread_of_silent got rfl rfl pick behind, .inl rfl⟩
  | ticketWaited => exact ⟨_, thread_of_silent got rfl rfl pick behind, .inr rfl⟩

/-- Whoever has begun to wait for a ticket waits until it is told the answer. -/
theorem Run.waits {u : World α} {moments : List (Moment α)} (run : u.Run moments w)
    (h : u.Reachable) {stage : Stage} {id : Nat} {behind : List (Op α)}
    (got : u.threads[index]? = some t)
    (ops : t.ops = .latch l (.wait stage) (.ticket id) :: behind) :
    (∃ t' stage, w.threads[index]? = some t' ∧
        t'.ops = .latch l (.wait stage) (.ticket id) :: behind) ∨
      ∃ m ∈ turnsOf index moments, m.Tells l id behind := by
  suffices followed : ∃ t', w.threads[index]? = some t' ∧
      ((∃ stage, t'.ops = .latch l (.wait stage) (.ticket id) :: behind) ∨
        ∃ m ∈ turnsOf index moments, m.Tells l id behind) by
    obtain ⟨t', got', ⟨stage, ops'⟩ | told⟩ := followed
    · exact .inl ⟨t', stage, got', ops'⟩
    · exact .inr told
  refine run.followed h got (P := fun own t' =>
    (∃ stage, t'.ops = .latch l (.wait stage) (.ticket id) :: behind) ∨
      ∃ m ∈ own, m.Tells l id behind) (.inl ⟨stage, ops⟩) ?_ ?_
  · rintro own t (⟨stage, ops⟩ | told)
    · exact .inl ⟨stage.wake, by rw [Thread.wake, ops]; rfl⟩
    · exact .inr told
  · rintro own x y pick t later got turn (⟨stage, ops⟩ | ⟨m, hm, tells⟩)
    · obtain ⟨t', got', slept | through⟩ := (h.later later).wait_goes got ops turn
      · exact ⟨t', got', .inl ⟨.asleep, slept⟩⟩
      · have tells : (Moment.mk x index).Tells l id behind :=
          ⟨t, stage, pick, y, t', got, ops, turn, got', through⟩
        exact ⟨t', got', .inr ⟨_, List.mem_append_right _ List.mem_cons_self, tells⟩⟩
    · obtain ⟨s, old, tail, e, took⟩ := took_of_turn (h.later later).orderly turn
      obtain ⟨t', got', -⟩ := took.stays got
      exact ⟨t', got', .inr ⟨m, List.mem_append_left _ hm, tells⟩⟩

/-- From the turn of its command on, whoever waits for a ticket that may be waited for does nothing
else until it is told the answer. -/
theorem Run.waits_of_command {u : World α} {moments : List (Moment α)} {name : String}
    {via : Option String} {behind : List (Op α)} {pick : Nat} (h : u.Reachable)
    (got : u.threads[index]? = some t) (ops : t.ops = [.command (.onTicket name (.wait via))])
    (kept : u.store.names.tickets.find? name = some ticket) (awaited : ticket.awaited = .ok l)
    (held : u.store.Via via behind) (turn : u.turn index pick = some v) (run : v.Run moments w) :
    (∃ t' stage, w.threads[index]? = some t' ∧
        t'.ops = .latch l (.wait stage) (.ticket ticket.id) :: behind) ∨
      ∃ m ∈ turnsOf index moments, m.Tells l ticket.id behind := by
  obtain ⟨v', t', turn', got', ops'⟩ := World.waits_of_command got ops kept awaited held pick
  obtain rfl : v' = v := Option.some.inj (turn'.symm.trans turn)
  exact run.waits (.next h (.turn index pick turn)) got' ops'

/-- The answer to a wait for a ticket is the truth. Whoever waits got the ticket for an accepted
submission, and when the wait is over the answer is a success just if all functions of the
submission have been called and have returned; otherwise the id of the ticket is abandoned, a single
job just if it was discarded or has panicked. By then nothing of the submission is going on, nor
ever will. -/
theorem Reachable.verdict (h : w.Reachable) {stage : Stage} {id : Nat} {rest : List (Op α)}
    (got : w.threads[index]? = some t)
    (ops : t.ops = .latch l (.wait stage) (.ticket id) :: rest) {pick : Nat}
    (turn : w.turn index pick = some v) {t' : Thread α} (after : v.threads[index]? = some t')
    (through : t'.ops = rest) :
    ∃ p ticket, ticket.Honoured w.history p ∧ ticket.awaited = .ok l ∧ ticket.id = id ∧
      (t'.answer = some (.ok .nothing) ↔ w.Fulfilled p l ticket) ∧
      (t'.answer = some (.error (.abandoned id)) ↔ ¬w.Fulfilled p l ticket) ∧
      (ticket = .job id (some l) → (w.Fulfilled p l ticket ↔ w.Completed p id) ∧
        (¬w.Fulfilled p l ticket ↔ w.Abandoned p id)) ∧
      w.Over p l ticket := by
  have ht := List.mem_of_getElem? got
  have hop : .latch l (.wait stage) (.ticket id) ∈ t.ops := ops ▸ List.mem_cons_self
  obtain ⟨p, ticket, honoured, awaited, hid⟩ := h.assured.ops t ht _ hop
  have hl := Ticket.latch_of_awaited awaited
  refine ⟨p, ticket, honoured, awaited, hid, ?_⟩
  obtain ⟨e, took, deed⟩ := took_of_turn_of_firm h.orderly got ops nofun turn
  obtain ⟨hne, -⟩ | ⟨-, -, answer, hanswer, hafter⟩ := took.thread_at got after
  · exact absurd rfl hne
  cases deed with
  | jobAdded submits | freeJobAdded submits => cases submits
  | waitSlept _ latch _ _ found awake up held =>
      have := congrArg List.length through
      rcases hafter with rfl | rfl <;> simp [Thread.wake] at this
  | ticketWaited _ latch _ _ succeeded found awake verdict =>
      have hsame : t'.answer = some (if succeeded then .ok .nothing else .error (.abandoned id)) := by
        rw [← hanswer _ rfl]
        rcases hafter with rfl | rfl <;> rfl
      have up := (h.tallied.tallied p ticket l latch honoured.1 hl found).up
      obtain ⟨zero, rfl⟩ | ⟨down, -⟩ := verdict
      · obtain ⟨truth, past⟩ := h.fulfilled_iff honoured hl found zero
        refine ⟨?_, ?_, ?_, past⟩
        · rw [hsame, truth]
          cases latch.value.failed <;> simp
        · rw [hsame, truth]
          cases latch.value.failed <;> simp
        · rintro rfl
          exact h.fulfilled_job honoured found zero
      · rw [up] at down
        cases down

/-- Two tickets are waited for. The one is for a batch of which the first member has panicked and the
second one has been performed, so its finale has been dropped. The other is for a job that has been
performed, and it is waited for through the pool. -/
def twoWaits : World Unit :=
  ((((follow 60 [
    .newPool "p" (.given { capacity := 2, threads := some 1, name := "p" }),
    .newBatch "b" 2 true,
    .onBatch "b" (.add (.link [.panic (.text "broken")] true)),
    .onBatch "b" (.add (.link [] true)),
    .onBatch "b" (.setFinale (.link [] true) false),
    .onPool "p" (.submitBatch "b" (some "t")),
    .onPool "p" (.submit (.link [.say "fine"] true) (some "u") .released)]
    (.start [])).issue (.onTicket "t" (.wait none))).settle 1 8).issue
      (.onTicket "u" (.wait (some "p")))).settle 1 9

theorem of_told {ops : List (Op α)} {answer : Option (Answer α)}
    (told : ((w.turn index 0).bind (·.threads[index]?)).map (fun t => (t.ops, t.answer)) =
      some (ops, answer)) :
    ∃ v t', w.turn index 0 = some v ∧ v.threads[index]? = some t' ∧ t'.ops = ops ∧
      t'.answer = answer := by
  obtain ⟨t', after, htold⟩ := Option.map_eq_some_iff.mp told
  obtain ⟨v, turn, after⟩ := Option.bind_eq_some_iff.mp after
  obtain ⟨hops, hanswer⟩ := Prod.mk.inj htold
  exact ⟨v, t', turn, after, hops, hanswer⟩

theorem verdict_of_twoWaits :
    (∃ (t t' : Thread Unit) (v : World Unit),
      twoWaits.threads[8]? = some t ∧ t.ops = [.latch 1 (.wait .arriving) (.ticket 1)] ∧
      twoWaits.turn 8 0 = some v ∧ v.threads[8]? = some t' ∧ t'.ops = [] ∧
      (Ticket.batch 1 2 true (some 1)).Honoured twoWaits.history 0 ∧
      ¬twoWaits.Fulfilled 0 1 (.batch 1 2 true (some 1)) ∧
      twoWaits.Over 0 1 (.batch 1 2 true (some 1))) ∧
    ∃ (t t' : Thread Unit) (v : World Unit),
      twoWaits.threads[9]? = some t ∧
      t.ops = [.latch 2 (.wait .arriving) (.ticket 4), .release 0] ∧
      twoWaits.turn 9 0 = some v ∧ v.threads[9]? = some t' ∧ t'.ops = [.release 0] ∧
      (Ticket.job 4 (some 2)).Honoured twoWaits.history 0 ∧
      twoWaits.Fulfilled 0 2 (.job 4 (some 2)) ∧ twoWaits.Completed 0 4 ∧
      twoWaits.Over 0 2 (.job 4 (some 2)) := by
  have reachable : twoWaits.Reachable :=
    reachable_settle (.next (reachable_settle
      (.next (reachable_follow 60 _ (.start [])) (.issue _ _)) 1 8) (.issue _ _)) 1 9
  constructor
  · have told : ((twoWaits.turn 8 0).bind (·.threads[8]?)).map (fun t => (t.ops, t.answer)) =
        some ([], some (.error (.abandoned 1))) := rfl
    have ticketed : Recorded twoWaits.history (.ticketed 0 (.batch 1 2 true (some 1))) :=
      ⟨_, List.mem_of_getElem? (i := 31) rfl⟩
    obtain ⟨v, t', turn, after, through, answer⟩ := of_told told
    obtain ⟨p, ticket, honoured, awaited, -, -, abandoned, -, settled⟩ :=
      reachable.verdict rfl (by rfl) turn after through
    obtain ⟨rfl, rfl⟩ :=
      reachable.ticket_eq honoured.1 ticketed (Ticket.latch_of_awaited awaited) rfl
    exact ⟨_, t', v, rfl, rfl, turn, after, through, honoured, abandoned.mp answer, settled⟩
  · have told : ((twoWaits.turn 9 0).bind (·.threads[9]?)).map (fun t => (t.ops, t.answer)) =
        some ([.release 0], some (.ok .nothing)) := rfl
    have ticketed : Recorded twoWaits.history (.ticketed 0 (.job 4 (some 2))) :=
      ⟨_, List.mem_of_getElem? (i := 11) rfl⟩
    obtain ⟨v, t', turn, after, through, answer⟩ := of_told told
    obtain ⟨p, ticket, honoured, awaited, -, kept, -, single, settled⟩ :=
      reachable.verdict rfl (by rfl) turn after through
    obtain ⟨rfl, rfl⟩ :=
      reachable.ticket_eq honoured.1 ticketed (Ticket.latch_of_awaited awaited) rfl
    have fulfilled := kept.mp answer
    exact ⟨_, t', v, rfl, rfl, turn, after, through, honoured, fulfilled,
      (single rfl).1.mp fulfilled, settled⟩

end World

end WorkerPool
