import WorkerPool.Proofs.Callers
import WorkerPool.Proofs.Duties
import WorkerPool.Proofs.InPlace
import WorkerPool.Proofs.Interleaving
import WorkerPool.Proofs.Verdict

/-! Dispatching a batch agrees with performing it. Whatever the capacity of the ring, the number of
workers and the order of the turns, the functions called for a batch that was accepted are those of
its members, each up to the first panic and in its own order, and after the last of them those of
the finale, if nothing has panicked. With one worker they are called in the very order in which
performing the batch in place calls them. -/

namespace WorkerPool

variable {α : Type}

/-- What became of a chain of functions: who called them, whether none of them panicked, and what was
recorded of the calls. -/
structure Rendition where
  who : Who
  fine : Bool
  entries : List (Who × Entry)

/-- A rendition of the chain `programs` on the account of `o`: all the functions have been called and
have returned, or all up to the first that panicked. -/
inductive Renders (o : Origin) : List Program → Rendition → Prop
  | whole (who : Who) (programs : List Program) :
      Renders o programs ⟨who, true, o.account who 0 programs⟩
  | cut (who : Who) (done : List Program) (program : Program) (later : List Program) :
      Renders o (done ++ program :: later) ⟨who, false, o.account who 0 done ++
        [(who, .called o done.length program), (who, .raised o done.length)]⟩

def Entry.program? : Entry → Option Program
  | .called _ _ program => some program
  | _ => none

namespace Ticket

/-- The entry is about a function that is called for one of the members. -/
def ofMember (h : List (Who × Entry)) (p : Nat) (ticket : Ticket) (x : Who × Entry) : Bool :=
  (ticket.members h p).any fun id => Entry.calls (.item p id) x

/-- The entry is about a function that is called for the finale. -/
def ofFinale (p : Nat) (ticket : Ticket) (x : Who × Entry) : Bool :=
  Entry.calls (.batch p ticket.id) x || ticket.latch.any fun l => Entry.calls (.latch l) x

end Ticket

theorem Entry.calls_unique {o o' : Origin} {x : Who × Entry} (calls : Entry.calls o x = true)
    (calls' : Entry.calls o' x = true) : o = o' := by
  obtain ⟨who, entry⟩ := x
  cases entry <;> simp [Entry.calls] at calls calls' <;> exact calls.symm.trans calls'

/-- What is recorded of a chain without panics are its functions. -/
theorem Origin.programs_account (o : Origin) (who : Who) (position : Nat)
    (programs : List Program) :
    (o.account who position programs).filterMap (·.2.program?) = programs := by
  induction programs generalizing position with
  | nil => rfl
  | cons program programs ih => exact congrArg (program :: ·) (ih (position + 1))

theorem Renders.programs {o : Origin} {programs : List Program} {r : Rendition}
    (renders : Renders o programs r) (fine : r.fine = true) :
    r.entries.filterMap (·.2.program?) = programs := by
  cases renders with
  | whole who programs => exact o.programs_account who 0 programs
  | cut => cases fine

theorem Renders.mem {o : Origin} {programs : List Program} {r : Rendition}
    (renders : Renders o programs r) (some : programs ≠ []) :
    ∃ entry, (r.who, entry) ∈ r.entries := by
  cases renders with
  | whole who programs =>
      cases programs with
      | nil => exact absurd rfl some
      | cons program later => exact ⟨_, List.mem_cons_self⟩
  | cut who done program later => exact ⟨.raised o done.length, by simp⟩

/-- An item that has been reported as finished is finished. -/
theorem Course.eq_finished {p id : Nat} {h : List (Who × Entry)} {lot : Lot}
    (course : Course p id h lot) {who : Who} {id' : Nat}
    (hmem : (who, Entry.line (.jobFinished id')) ∈ h) :
    ∃ index item, lot = .finished index item := by
  induction course with
  | unknown => cases hmem
  | issued => cases List.mem_singleton.mp hmem
  | finished => exact ⟨_, _, rfl⟩
  | performed before ih =>
      obtain ⟨_, _, heq⟩ := ih hmem
      cases heq
  | _ =>
      rename_i ih
      rcases List.mem_cons.mp hmem with heq | hmem
      · cases heq
      · obtain ⟨_, _, heq⟩ := ih hmem
        cases heq

namespace World

variable {w v u : World α} {index : Nat} {t : Thread α} {old tail : List (Op α)} {e : Effect α}
  {p id l : Nat} {o : Origin} {ticket : Ticket} {latch : Latch} {moments : List (Moment α)}
  {cells : List Int}

theorem Past.not_later (past : u.Past o) (later : u.Later w) {newer : List (Who × Entry)}
    (history : w.history = newer ++ u.history) : ∀ x ∈ newer, Entry.calls o x = false := by
  have same : w.calls o = u.calls o := (past w later).2
  unfold calls at same
  rw [history, List.filter_append] at same
  exact fun x hx => by simpa using List.filter_eq_nil_iff.mp (List.append_left_eq_self.mp same) x hx

theorem Later.untold (later : w.Later v) (h : w.Reachable) (there : l < w.store.latches.length)
    (untold : Untold w.history l) : Untold v.history l := by
  refine (later.keeps h (P := fun v => l < v.store.latches.length ∧ Untold v.history l)
    ⟨there, untold⟩ (fun _ _ _ ih => ih) fun u v index t old tail e _ _ took ih => ?_).2
  refine ⟨?_, took.untold ih.1 ih.2⟩
  obtain ⟨latch, found, -⟩ := took.act.latches.grows (List.getElem?_eq_getElem ih.1)
  exact took.store ▸ (List.getElem?_eq_some_iff.mp found).1

theorem Later.members_prefix (later : w.Later v) (h : w.Reachable) (p bid : Nat) :
    WorkerPool.membersOf w.history p bid <+: WorkerPool.membersOf v.history p bid := by
  refine later.keeps h
    (P := fun v => WorkerPool.membersOf w.history p bid <+: WorkerPool.membersOf v.history p bid)
    List.prefix_rfl (fun _ _ _ ih => ih) fun u v index t old tail e _ _ took ih => ih.trans ?_
  rw [took.membersOf]
  exact List.prefix_append _ _

theorem Later.completed (later : w.Later v) (h : w.Reachable) (completed : w.Completed p id) :
    v.Completed p id := by
  obtain ⟨i, item, named, known, completed⟩ := completed
  exact ⟨i, item, named, known.mono (later.history_subset h),
    later.completedBy h Origin.noConfusion completed⟩

/-! ### The finale comes last -/

/-- While the continuation of its latch is being performed, all members of a submission are
completed. -/
theorem Reachable.completed_of_finale (h : w.Reachable)
    (recorded : Recorded w.history (.ticketed p ticket)) (hl : ticket.latch = some l)
    (few : (ticket.members w.history p).length ≤ ticket.size) (some : 0 < ticket.size)
    (ht : t ∈ w.threads) {job : Job} {succeeded : Bool} {waiter : Waiter}
    (hop : .latch l (.running job succeeded) waiter ∈ t.ops) :
    (∀ id ∈ ticket.members w.history p, w.Completed p id) ∧
      (ticket.members w.history p).length = ticket.size := by
  classical
  have there := h.known.store.latches p ticket l recorded hl
  have found := List.getElem?_eq_getElem there
  obtain ⟨r, hruns⟩ := load_of_mem (fun _ => Op.runs l) ht hop
  rw [Op.runs, if_pos rfl] at hruns
  change w.runs l = 1 + r at hruns
  have composed := h.tallied.composed l _ found
  have finishing : (w.store.latches[l]).value.finishing = true := by
    by_contra idle
    have := composed.runs
    rw [if_neg idle] at this
    omega
  obtain ⟨last, -⟩ := composed.last finishing
  obtain ⟨who, hrecorded⟩ := recorded
  obtain ⟨-, -, issue, issued, -⟩ := h.known.entries who _ hrecorded
  obtain ⟨-, -, -, -, -, sound, -⟩ :=
    (h.finale ⟨who, hrecorded⟩ hl issued found).of_finishing finishing
  have balanced := h.balanced ⟨who, hrecorded⟩ hl some found
  have total := balanced.uncounted
  have succeeded := balanced.succeeded
  have stakes := balanced.remaining
  have all := (ticket.members w.history p).countP_le_length (p := fun id => w.Completed p id)
  have hcount : (ticket.members w.history p).countP (fun id => w.Completed p id) =
      (ticket.members w.history p).length := by omega
  exact ⟨fun id hid => by simpa using List.countP_eq_length.mp hcount id hid, by omega⟩

/-- A worker has noted that it has finished a job. -/
def Finished (w : World α) (p id : Nat) : Prop :=
  ∃ i, (Who.worker p i, Entry.line (.jobFinished id)) ∈ w.history

theorem Reachable.completed_of_finished (h : w.Reachable) (finished : w.Finished p id) :
    w.Completed p id := by
  obtain ⟨i, mem⟩ := finished
  obtain ⟨q, j, item, hwho, rfl, taken, completed⟩ := h.truthful.finished _ _ mem
  cases hwho
  exact ⟨i, item, rfl, (h.known.entries _ _ taken).2, completed⟩

/-- A worker that is still about to note that it has finished a job has not noted it before. -/
theorem Reachable.not_finished (h : w.Reachable) (ht : t ∈ w.threads) {i : Nat} {item : Item}
    (hop : .work p i (.finish item true) ∈ t.ops) : ¬w.Finished p item.id := by
  rintro ⟨j, mem⟩
  have lots : (Op.work p i (.finish item true) : Op α).lots p item.id t.who =
      {.performed i item} := if_pos ⟨rfl, rfl⟩
  obtain ⟨_, _, heq⟩ := (h.course_of_op ht hop lots).eq_finished
    (mem_course mem (by simp [Entry.concerns]))
  cases heq

/-- Once all members of a submission have been finished, nobody is left to count a success on its
latch or to perform its continuation. -/
theorem Reachable.not_charge_of_finished (h : w.Reachable) (honoured : ticket.Honoured w.history p)
    (hl : ticket.latch = some l) (finished : ∀ id ∈ ticket.members w.history p, w.Finished p id)
    (ht : t ∈ w.threads) {above rest : List (Op α)} {op : Op α}
    (ops : t.ops = above ++ op :: rest) : ¬Op.Charge w.history t.who l false rest := by
  intro charge
  have told : ¬Untold w.history l := fun untold => untold p ticket honoured.1 hl
  obtain ⟨q, i, item, rfl, hlatch, known⟩ := Op.Charge.of_sound charge rfl told
  obtain rfl := h.pool_of_told honoured.1 hl known hlatch
  obtain ⟨other, recorded, part⟩ := known
  obtain ⟨-, rfl⟩ := h.ticket_eq recorded honoured.1 (part.latch ▸ hlatch) hl
  have hop : .work q i (.finish item true) ∈ t.ops := by simp [ops]
  exact h.not_finished ht hop (finished item.id part.mem_members)

/-- When all members of a submission have been finished, its latch is at zero. -/
theorem Reachable.zero_of_finished (h : w.Reachable) (honoured : ticket.Honoured w.history p)
    (hl : ticket.latch = some l) (found : w.store.latches[l]? = some latch)
    (finished : ∀ id ∈ ticket.members w.history p, w.Finished p id) :
    latch.value.remaining = 0 := by
  classical
  have runs : w.runs l = 0 := by
    refine load_eq_zero _ fun t ht op hop => ?_
    by_contra runs
    obtain ⟨above, rest, ops, charge⟩ := (h.charged t ht).of_mem hop
    cases op with
    | latch k call waiter =>
        cases call with
        | running =>
            obtain rfl : k = l := by
              by_contra hk
              exact runs (if_neg hk)
            exact h.not_charge_of_finished honoured hl finished ht ops charge
        | _ => exact runs rfl
    | _ => exact runs rfl
  have owed : w.owed l false = 0 := by
    refine load_eq_zero _ fun t ht op hop => ?_
    by_contra owes
    obtain ⟨above, rest, ops, charge⟩ := (h.charged t ht).of_mem hop
    unfold Op.owes at owes
    split at owes
    · obtain ⟨rfl, rfl⟩ := by simpa using owes
      exact h.not_charge_of_finished honoured hl finished ht ops charge
    · simp at owes
    · exact owes rfl
  have total := h.total honoured.1 hl found
  rcases Nat.eq_zero_or_pos ticket.size with none | some
  · omega
  · have balanced := h.balanced honoured.1 hl some found
    have succeeded := balanced.succeeded
    have hcount : (ticket.members w.history p).countP (fun id => w.Completed p id) =
        (ticket.members w.history p).length :=
      List.countP_eq_length.mpr fun id hid => by
        simpa using h.completed_of_finished (finished id hid)
    have hsize := h.size_of_honoured honoured
    omega

/-- While the continuation of its latch is being performed, all members of what will have been
accepted are completed. -/
theorem Later.completed_of_running (later : u.Later w) (h : u.Reachable)
    (honoured : ticket.Honoured w.history p) (hl : ticket.latch = some l) (ht : t ∈ u.threads)
    {job : Job} {succeeded : Bool} {waiter : Waiter}
    (hop : .latch l (.running job succeeded) waiter ∈ t.ops) :
    ∀ id ∈ ticket.members w.history p, u.Completed p id := by
  have ended : w.Reachable := h.later later
  have recorded : Recorded u.history (.ticketed p ticket) := by
    by_contra unknown
    have there := (h.known.ops t ht _ hop).1
    refine later.untold h there (fun q other recorded' hl' => unknown ?_) p ticket honoured.1 hl
    obtain ⟨rfl, rfl⟩ := ended.ticket_eq (recorded'.mono (later.history_subset h)) honoured.1 hl' hl
    exact recorded'
  have front : ticket.members u.history p <+: ticket.members w.history p := by
    cases ticket with
    | job => exact List.prefix_rfl
    | batch bid => exact (later.members_prefix h p bid).map Prod.fst
  have hsize := ended.size_of_honoured honoured
  have few := front.length_le
  rcases Nat.eq_zero_or_pos ticket.size with none | some
  · rw [List.eq_nil_of_length_eq_zero (hsize.trans none)]
    exact nofun
  · obtain ⟨completed, hlength⟩ :=
      h.completed_of_finale recorded hl (hsize ▸ few) some ht hop
    rwa [front.eq_of_length (hlength.trans hsize.symm)] at completed

/-- When a function of the finale is called, the members are completed. -/
theorem Noted.completed_of_finale {note : Entry}
    (noted : Noted cells u v w index t old tail e note) (honoured : ticket.Honoured w.history p)
    (hl : ticket.latch = some l) (calls : Entry.calls (.latch l) (t.who, note) = true) :
    ∀ id ∈ ticket.members w.history p, u.Completed p id := by
  obtain ⟨job, hop⟩ := noted.took.finale_of_call noted.before noted.mem calls
  exact noted.ahead.completed_of_running noted.before honoured hl
    noted.took.mem_threads hop

/-! ### One member -/

theorem CompletedBy.renders {who : Who} {programs : List Program}
    (completed : w.CompletedBy who o programs) :
    Renders o programs ⟨who, true, (w.calls o).reverse⟩ := by
  rw [completed.trail.reverse_eq]
  exact .whole who programs

theorem SpoiltBy.renders {who : Who} {programs : List Program}
    (spoilt : w.SpoiltBy who o programs) :
    Renders o programs ⟨who, false, (w.calls o).reverse⟩ := by
  obtain ⟨done, program, later, rfl, stands⟩ := spoilt
  rw [stands.trail.reverse_eq]
  exact .cut who done program later

/-- A worker has noted how the job went, well or not. -/
def Processed (w : World α) (p id : Nat) : Prop :=
  w.Finished p id ∨ ∃ i payload, (Who.worker p i, Entry.line (.jobPanicked id payload)) ∈ w.history

theorem Reachable.job_of_taken (h : w.Reachable) {bid i : Nat} {job : Job}
    (issued : Recorded w.history (.issued p id (.member bid job))) {item : Item}
    (named : item.id = id) (taken : (.worker p i, .taken p item) ∈ w.history) : item.job = job :=
  h.job_of_known issued rfl named (h.known.entries _ _ taken).2

/-- A member that has been processed has been performed by one worker, to its end or up to the first
panic. -/
theorem Reachable.rendered (h : w.Reachable) {bid : Nat} {job : Job}
    (issued : Recorded w.history (.issued p id (.member bid job))) (processed : w.Processed p id) :
    ∃ r : Rendition, Renders (.item p id) job.programs r ∧ (∃ i, r.who = .worker p i) ∧
      r.entries = (w.calls (.item p id)).reverse ∧
      (r.fine = true → w.Finished p id) ∧ (r.fine = false → ¬w.Completed p id) := by
  rcases processed with ⟨i, mem⟩ | ⟨i, payload, mem⟩
  · obtain ⟨q, j, item, hwho, hid, taken, completed⟩ := h.truthful.finished _ _ mem
    cases hwho
    rw [h.job_of_taken issued hid taken] at completed
    exact ⟨_, completed.renders, ⟨i, rfl⟩, rfl, fun _ => ⟨i, mem⟩, nofun⟩
  · obtain ⟨q, j, item, hwho, hid, taken, spoilt⟩ := h.truthful.panicked _ _ _ mem
    cases hwho
    rw [h.job_of_taken issued hid taken] at spoilt
    refine ⟨_, SpoiltBy.renders spoilt, ⟨i, rfl⟩, rfl, nofun, fun _ completed => ?_⟩
    obtain ⟨_, _, _, _, completed⟩ := completed
    exact completed.not_spoiltBy spoilt

/-! ### One worker -/

/-- When a member of a batch is given its id, those before it have been pushed. -/
theorem Took.pushed_of_member (reachable : u.Reachable) (took : u.Took v index t old tail e)
    {bid k : Nat} {job : Job} (hnote : .issued p k (.member bid job) ∈ e.notes) :
    (∀ id ∈ (WorkerPool.membersOf u.history p bid).map Prod.fst, Pushed u.history p id) ∧
      ¬Pushed u.history p k := by
  have ht := took.mem_threads
  obtain ⟨op, rfl, writes, -⟩ := took.act.written hnote not_false nofun
  cases writes with
  | issuedMember sub pool _ rest found ahead =>
      have hop : .submit sub .next ∈ t.ops := took.due_mem
      constructor
      · have progress : sub.Progress u.history .next := reachable.enrolled.progress t ht _ hop
        obtain ⟨above, behind, -, before⟩ := (reachable.orderly.ordered t ht).before hop
        cases before with
        | submit _ _ proper fits after =>
            unfold Submission.Progress at progress
            cases hticket : sub.ticket with
            | job id latch => simp [(fits.alone id latch hticket).1] at ahead
            | batch bid size waitable latch =>
                rw [hticket] at progress
                obtain ⟨batch, -, -, pushed⟩ := progress
                intro id hid
                obtain ⟨member, hmember, rfl⟩ := List.mem_map.mp hid
                exact (pushed member hmember).resolve_right fun ⟨_, held, _⟩ => nomatch held
      · rintro ⟨item, hid, who, pushed⟩
        obtain ⟨-, ticket, -, part⟩ := reachable.known.entries _ _ pushed
        have fresh := (reachable.issues sub.pool pool.nextId).2 (ahead_nextId found)
        cases part with
        | job _ issued | member _ _ _ _ issued =>
            have := mem_issues.mpr (hid ▸ issued)
            rw [fresh] at this
            cases this

/-- When a member of a batch is given its id, the members so far are those in front of it. -/
theorem Noted.members_eq {bid k : Nat} {job : Job}
    (noted : Noted cells u v w index t old tail e (.issued p k (.member bid job)))
    (nodup : ((WorkerPool.membersOf w.history p bid).map Prod.fst).Nodup) {front behind : List Nat}
    (split : (WorkerPool.membersOf w.history p bid).map Prod.fst = front ++ k :: behind) :
    (WorkerPool.membersOf u.history p bid).map Prod.fst = front := by
  have one : e.notes.filterMap (Entry.member? p bid) = [(k, job)] := by
    have hmem : (k, job) ∈ e.notes.filterMap (Entry.member? p bid) :=
      List.mem_filterMap.mpr ⟨_, noted.mem, Entry.member?_eq_some.mpr rfl⟩
    rcases noted.took.act.members p bid with none | ⟨_, _, _, _, -, -, -, -, -, one⟩
    · rw [none] at hmem
      cases hmem
    · rw [one] at hmem ⊢
      rw [List.mem_singleton.mp hmem]
  obtain ⟨more, hmore⟩ := noted.later.members_prefix noted.after p bid
  rw [← hmore, noted.took.membersOf, one, List.map_append, List.map_append, List.append_assoc,
    List.map_singleton, List.singleton_append] at split nodup
  have hnot := (List.nodup_middle.mp nodup).notMem
  rw [List.mem_append, not_or] at hnot
  exact ((List.append_cons_inj_of_notMem hnot.1 hnot.2).mp split).1

/-- A member of a batch is pushed before any later one is. -/
theorem Run.pushed_before (run : (World.start cells).Run moments w) {bid k : Nat}
    {front behind : List Nat}
    (split : (WorkerPool.membersOf w.history p bid).map Prod.fst = front ++ k :: behind)
    (hid : id ∈ front) :
    ∃ ahead, ahead <+: (w.pushes p).map (·.id) ∧ id ∈ ahead ∧ k ∉ ahead := by
  have reachable : w.Reachable := run.reachable (.start cells)
  have hk : k ∈ (WorkerPool.membersOf w.history p bid).map Prod.fst := by simp [split]
  obtain ⟨job, who, mem⟩ := mem_membersOf.mp hk
  obtain ⟨newer, older, history⟩ := List.append_of_mem mem
  obtain ⟨u, v, index, t, old, tail, e, note, back, noted, hx, -⟩ := run.of_history history
  obtain ⟨rfl, rfl⟩ := Prod.mk.inj hx
  have first := noted.members_eq (reachable.nodup_members p (.batch bid 0 false none)) split
  obtain ⟨pushed, unpushed⟩ := noted.took.pushed_of_member noted.before noted.mem
  refine ⟨(u.pushes p).map (·.id), ?_, ?_, ?_⟩
  · exact (noted.ahead.pushes noted.before p).map (·.id)
  · obtain ⟨item, rfl, recorded⟩ := pushed id (first ▸ hid)
    exact List.mem_map.mpr ⟨item, mem_pushes.mpr recorded, rfl⟩
  · rintro hmem
    obtain ⟨item, hitem, named⟩ := List.mem_map.mp hmem
    exact unpushed ⟨item, named, mem_pushes.mp hitem⟩

/-- An item whose round is over is not called for any more. -/
theorem Run.past_of_round (run : (World.start cells).Run moments w) {i : Nat} {rounds : List Round}
    {standing : Standing} (h : w.Rounds p i moments rounds standing) {r : Round} (hr : r ∈ rounds) :
    w.Past (.item p r.item.id) := by
  have reachable : w.Reachable := run.reachable (.start cells)
  have ended := run.ended (h.ended_mem hr)
  split at ended
  · exact reachable.past_of_completedBy Origin.noConfusion ended
  · exact reachable.past_of_spoiltBy Origin.noConfusion ended

/-- What the only worker of a pool has taken is all that has been taken. -/
theorem Run.takings_of_alone (run : (World.start cells).Run moments w) {pool : Pool}
    (found : w.store.pools[p]? = some pool) (alone : pool.threads = 1) {rounds : List Round}
    {standing : Standing} (h : w.Rounds p 0 moments rounds standing) :
    (w.takings p).map (·.2) = rounds.map (·.item) ++ standing.item?.toList := by
  have all : (w.takings p).filter (·.1 = .worker p 0) = w.takings p := by
    refine List.filter_eq_self.mpr fun x hx => ?_
    obtain ⟨j, hj, hwho⟩ := (run.reachable (.start cells)).taker found hx
    obtain rfl : j = 0 := by omega
    simpa using hwho
  rw [← taken_rounds, ← h.diary, ← run.takenBy, World.takenBy, all]

/-- The only worker of a pool is through with what was pushed before the item that it performs. -/
theorem Noted.past_of_alone {note : Entry} (noted : Noted cells u v w index t old tail e note)
    {pool : Pool} (found : w.store.pools[p]? = some pool) (alone : pool.threads = 1) {k : Nat}
    (calls : Entry.calls (.item p k) (t.who, note) = true) {ahead : List Nat}
    (hahead : ahead <+: (w.pushes p).map (·.id)) (hid : id ∈ ahead) (hk : k ∉ ahead) :
    u.Past (.item p id) := by
  obtain ⟨moments, run⟩ := noted.run
  have reachable : u.Reachable := noted.before
  have ht := noted.took.mem_threads
  obtain ⟨i, item, front, who, rfl, ops⟩ := noted.took.worker_of_call reachable noted.mem calls
  obtain ⟨pool', found', within⟩ := reachable.worker_within ht who
  obtain ⟨pool'', found'', grows⟩ := noted.ahead.pool reachable found'
  obtain rfl := Option.some.inj (found.symm.trans found'')
  have threads : pool'.threads = 1 := grows.threads ▸ alone
  obtain rfl : i = 0 := by omega
  obtain ⟨rounds, standing, h⟩ := run.rounds p 0
  have held : standing.item? = some item :=
    Standing.Shows.item_of_last (ops ▸ h.shows t ht who) item (List.mem_singleton_self _)
  have taken := run.takings_of_alone found' threads h
  rw [held, Option.toList_some] at taken
  have pushed : (rounds.map (·.item) ++ [item]).map (·.id) <+: (w.pushes p).map (·.id) := by
    refine List.IsPrefix.map _ (List.IsPrefix.trans ?_ (noted.ahead.pushes reachable p))
    rw [(reachable.succession p).order, ← taken, List.append_assoc]
    exact List.prefix_append _ _
  rw [List.map_append, List.map_map] at pushed
  rcases List.prefix_or_prefix_of_prefix hahead pushed with before | after
  · rcases List.prefix_concat_iff.mp before with heq | before
    · exact absurd (heq ▸ by simp) hk
    · obtain ⟨r, hr, rfl⟩ := List.mem_map.mp (before.subset hid)
      exact run.past_of_round h hr
  · exact absurd (after.subset (by simp)) hk

/-! ### The finale -/

/-- Entries about the functions called for what a ticket stands for, oldest first. -/
def callsFor (w : World α) (p : Nat) (ticket : Ticket) : List (Who × Entry) :=
  w.history.reverse.filter fun x => ticket.ofMember w.history p x || ticket.ofFinale p x

theorem reverse_calls (w : World α) (o : Origin) :
    (w.calls o).reverse = w.history.reverse.filter (Entry.calls o) := by
  rw [calls, List.filter_reverse]

/-- What has been called for the members is an interleaving of what has been called for each. -/
theorem Reachable.interleaves_ofMember (h : w.Reachable) (p : Nat) (ticket : Ticket) :
    Interleaves ((ticket.members w.history p).map fun id =>
        w.history.reverse.filter (Entry.calls (.item p id)))
      (w.history.reverse.filter (ticket.ofMember w.history p)) := by
  have own : ∀ id ∈ ticket.members w.history p,
      w.history.reverse.filter (Entry.calls (.item p id)) =
        (w.history.reverse.filter (ticket.ofMember w.history p)).filter
          (Entry.calls (.item p id)) := by
    intro id hid
    rw [List.filter_filter]
    refine List.filter_congr fun x _ => ?_
    rw [Bool.eq_iff_iff, Bool.and_eq_true, iff_self_and]
    exact fun calls => List.any_eq_true.mpr ⟨id, hid, calls⟩
  rw [List.map_congr_left own]
  refine interleaves_filter (f := fun id => Entry.calls (.item p id)) (h.nodup_members p ticket)
    (fun x k k' calls calls' => ?_) fun x hx => List.any_eq_true.mp (List.mem_filter.mp hx).2
  cases Entry.calls_unique calls calls'
  rfl

section Batches

variable {b : Batch} {bid size : Nat} {waitable : Bool} {latch? : Option Nat}

theorem Reachable.members_eq (h : w.Reachable)
    (honoured : (Ticket.batch bid size waitable latch?).Honoured w.history p)
    (issued : Recorded w.history (.issued p bid (.batch b))) :
    (WorkerPool.membersOf w.history p bid).map Prod.snd = b.members := by
  obtain ⟨-, batch, issued', members, -⟩ := honoured
  cases h.issue_eq issued issued'
  exact members

theorem Reachable.not_mem_members (h : w.Reachable)
    (honoured : (Ticket.batch bid size waitable latch?).Honoured w.history p)
    (issued : Recorded w.history (.issued p bid (.batch b))) (empty : b.members = []) :
    id ∉ (Ticket.batch bid size waitable latch?).members w.history p := by
  have members := h.members_eq honoured issued
  rw [empty, List.map_eq_nil_iff] at members
  rw [Ticket.members, members]
  exact List.not_mem_nil

/-- What is called on account of a batch is its finale, and the batch has no members. -/
theorem Reachable.finale_of_called (h : w.Reachable)
    (issued : Recorded w.history (.issued p bid (.batch b))) {x : Who × Entry}
    (mem : x ∈ w.calls (.batch p bid)) :
    (x.1, .issued p bid (.batch b)) ∈ w.history ∧ b.members = [] ∧ b.finale.isSome = true := by
  obtain ⟨b', job, issued', empty, finale⟩ := h.batch_called mem
  cases h.issue_eq issued ⟨_, issued'⟩
  exact ⟨issued', empty, by rw [finale]; rfl⟩

/-- The finale of a batch with members is called on account of the latch, and that of one without
members on account of the batch. -/
theorem Run.filter_ofFinale (run : (World.start cells).Run moments w)
    (honoured : (Ticket.batch bid size waitable (some l)).Honoured w.history p)
    (issued : Recorded w.history (.issued p bid (.batch b))) :
    w.history.reverse.filter ((Ticket.batch bid size waitable (some l)).ofFinale p) =
      (w.calls ((Issue.batch b).finaleOrigin p bid l)).reverse := by
  have reachable : w.Reachable := run.reachable (.start cells)
  rw [reverse_calls]
  refine List.filter_congr fun x hx => ?_
  have hx := List.mem_reverse.mp hx
  rw [Issue.finaleOrigin]
  split
  · rename_i empty
    have uncalled : Entry.calls (.latch l) x = false := by
      by_contra calls
      obtain ⟨q, i, item, -, hlatch, known, -⟩ := run.host hx (by simpa using calls)
        fun untold => untold p _ honoured.1 rfl
      obtain rfl := reachable.pool_of_told honoured.1 rfl known hlatch
      obtain ⟨other, recorded, part⟩ := known
      obtain ⟨-, rfl⟩ := reachable.ticket_eq recorded honoured.1 (part.latch ▸ hlatch) rfl
      exact reachable.not_mem_members honoured issued empty part.mem_members
    simp [Ticket.ofFinale, Ticket.id, Ticket.latch, uncalled]
  · rename_i some
    have uncalled : Entry.calls (.batch p bid) x = false := by
      by_contra calls
      exact some (reachable.finale_of_called issued
        (List.mem_filter.mpr ⟨hx, by simpa using calls⟩)).2.1
    simp [Ticket.ofFinale, Ticket.id, Ticket.latch, uncalled]

/-- Without a finale, or where a member has not come to a good end, no finale is called. -/
theorem Run.finale_uncalled (run : (World.start cells).Run moments w)
    (honoured : (Ticket.batch bid size waitable latch?).Honoured w.history p)
    (issued : Recorded w.history (.issued p bid (.batch b)))
    (barred : b.finale = none ∨
      ∃ id ∈ (Ticket.batch bid size waitable latch?).members w.history p, ¬w.Completed p id) :
    w.history.reverse.filter ((Ticket.batch bid size waitable latch?).ofFinale p) = [] := by
  have reachable : w.Reachable := run.reachable (.start cells)
  refine List.filter_eq_nil_iff.mpr fun x hx calls => ?_
  have hx := List.mem_reverse.mp hx
  rcases Bool.or_eq_true_iff.mp calls with calls | calls
  · obtain ⟨-, empty, finale⟩ :=
      reachable.finale_of_called issued (List.mem_filter.mpr ⟨hx, calls⟩)
    rcases barred with none | ⟨id, hid, -⟩
    · rw [none] at finale
      cases finale
    · exact reachable.not_mem_members honoured issued empty hid
  · cases latch? with
    | none => cases calls
    | some l =>
        change Entry.calls (.latch l) x = true at calls
        rcases barred with none | ⟨id, hid, incomplete⟩
        · have there := reachable.known.store.latches p _ l honoured.1 rfl
          have finale := reachable.finale honoured.1 rfl issued (List.getElem?_eq_getElem there)
          rw [Issue.finale?, none] at finale
          cases finale with
          | absent _ _ _ untouched => exact untouched.ne_idle hx calls rfl
        · obtain ⟨newer, older, history⟩ := List.append_of_mem hx
          obtain ⟨u, v, index, t, old, tail, e, note, back, noted, rfl, -⟩ :=
            run.of_history history
          have completed := noted.completed_of_finale honoured rfl calls id hid
          exact incomplete (noted.ahead.completed noted.before completed)

/-- Where all members have been finished, the finale has been performed, to its end or up to the
first panic. -/
theorem Reachable.finale_performed (h : w.Reachable)
    (honoured : (Ticket.batch bid size waitable (some l)).Honoured w.history p)
    (issued : Recorded w.history (.issued p bid (.batch b))) {job : Job}
    (finale : b.finale = some job)
    (finished : ∀ id ∈ (Ticket.batch bid size waitable (some l)).members w.history p,
      w.Finished p id) :
    ∃ r, Renders ((Issue.batch b).finaleOrigin p bid l) job.programs r ∧
      r.entries = (w.calls ((Issue.batch b).finaleOrigin p bid l)).reverse := by
  have found := List.getElem?_eq_getElem (h.known.store.latches p _ l honoured.1 rfl)
  have zero := h.zero_of_finished honoured rfl found finished
  obtain ⟨spent, idle⟩ := (h.tallied.composed l _ found).of_zero zero
  have sound := (h.sound_iff honoured rfl found zero).2.mpr fun id hid =>
    h.completed_of_finished (finished id hid)
  have hfinale := h.finale honoured.1 rfl issued found
  rw [Issue.finale?, finale] at hfinale
  cases hfinale with
  | awaited _ kept => simp [spent] at kept
  | running _ _ _ finishing => simp [idle] at finishing
  | skipped _ _ _ _ _ _ lost => omega
  | finished _ who succeeded _ _ _ _ _ ended =>
      cases succeeded with
      | true => exact ⟨_, CompletedBy.renders ended, rfl⟩
      | false => exact ⟨_, SpoiltBy.renders ended, rfl⟩

/-- The finale is called by the step that submits a batch without members, and by a worker
otherwise. -/
theorem Run.finale_performer (run : (World.start cells).Run moments w)
    (honoured : (Ticket.batch bid size waitable (some l)).Honoured w.history p)
    (issued : Recorded w.history (.issued p bid (.batch b))) {x : Who × Entry}
    (mem : x ∈ w.calls ((Issue.batch b).finaleOrigin p bid l)) :
    if b.members = [] then (x.1, .issued p bid (.batch b)) ∈ w.history
    else ∃ i, x.1 = .worker p i := by
  have reachable : w.Reachable := run.reachable (.start cells)
  rw [Issue.finaleOrigin] at mem
  split at mem
  · rename_i empty
    rw [if_pos empty]
    exact (reachable.finale_of_called issued mem).1
  · rename_i some
    rw [if_neg some]
    obtain ⟨hx, calls⟩ := List.mem_filter.mp mem
    obtain ⟨q, i, item, hwho, hlatch, known, -⟩ :=
      run.host hx calls fun untold => untold p _ honoured.1 rfl
    obtain rfl := reachable.pool_of_told honoured.1 rfl known hlatch
    exact ⟨i, hwho⟩

theorem Run.finale_rendered (run : (World.start cells).Run moments w)
    (honoured : (Ticket.batch bid size waitable latch?).Honoured w.history p)
    (issued : Recorded w.history (.issued p bid (.batch b))) {job : Job}
    (finale : b.finale = some job)
    (finished : ∀ id ∈ (Ticket.batch bid size waitable latch?).members w.history p,
      w.Finished p id) :
    ∃ (r : Rendition) (l : Nat), latch? = some l ∧
      Renders ((Issue.batch b).finaleOrigin p bid l) job.programs r ∧
      r.entries = w.history.reverse.filter ((Ticket.batch bid size waitable latch?).ofFinale p) ∧
      if b.members = [] then (r.who, .issued p bid (.batch b)) ∈ w.history
      else ∃ i, r.who = .worker p i := by
  have reachable : w.Reachable := run.reachable (.start cells)
  obtain ⟨l, rfl⟩ : ∃ l, latch? = some l := by
    have fits := reachable.fits honoured.1 issued
    exact Option.isSome_iff_exists.mp (by simpa [finale] using fits.2.2)
  obtain ⟨r, renders, entries⟩ := reachable.finale_performed honoured issued finale finished
  refine ⟨r, l, rfl, renders, ?_, ?_⟩
  · rw [entries, run.filter_ofFinale honoured issued]
  · obtain ⟨entry, mem⟩ := renders.mem (by simp [Job.programs])
    rw [entries, List.mem_reverse] at mem
    exact run.finale_performer honoured issued mem

/-! ### The whole batch -/

/-- What has been called for the members comes before what has been called for the finale. -/
theorem Run.callsFor_eq (run : (World.start cells).Run moments w)
    (honoured : (Ticket.batch bid size waitable latch?).Honoured w.history p)
    (issued : Recorded w.history (.issued p bid (.batch b))) :
    w.callsFor p (.batch bid size waitable latch?) =
      w.history.reverse.filter ((Ticket.batch bid size waitable latch?).ofMember w.history p) ++
        w.history.reverse.filter ((Ticket.batch bid size waitable latch?).ofFinale p) := by
  have reachable : w.Reachable := run.reachable (.start cells)
  refine run.filter_or fun u v index t old tail e note noted calls newer history x hx => ?_
  rw [Ticket.ofMember, List.any_eq_false]
  intro id hid
  suffices past : u.Past (.item p id) by simpa using past.not_later noted.ahead history x hx
  rcases Bool.or_eq_true_iff.mp calls with calls | calls
  · have mem : (t.who, note) ∈ w.calls (.batch p bid) := List.mem_filter.mpr
      ⟨noted.later.history_subset noted.after
        (noted.took.mem_history.mpr (.inl ⟨rfl, noted.mem⟩)), calls⟩
    exact absurd hid
      (reachable.not_mem_members honoured issued (reachable.finale_of_called issued mem).2.1)
  · cases latch? with
    | none => cases calls
    | some l =>
        exact noted.before.past_of_completed (noted.completed_of_finale honoured rfl calls id hid)

/-- With one worker the members are called one after the other. -/
theorem Run.filter_ofMember (run : (World.start cells).Run moments w) {pool : Pool}
    (found : w.store.pools[p]? = some pool) (alone : pool.threads = 1) :
    w.history.reverse.filter ((Ticket.batch bid size waitable latch?).ofMember w.history p) =
      ((Ticket.batch bid size waitable latch?).members w.history p).flatMap fun id =>
        w.history.reverse.filter (Entry.calls (.item p id)) := by
  refine filter_any_eq_flatMap (f := fun id => Entry.calls (.item p id))
    fun id ids ⟨front, hsplit⟩ => ?_
  refine run.filter_or fun u v index t old tail e note noted calls newer history => ?_
  obtain ⟨k, mem, called⟩ := List.any_eq_true.mp calls
  obtain ⟨between, behind, rfl⟩ := List.append_of_mem mem
  have split : (WorkerPool.membersOf w.history p bid).map Prod.fst =
      (front ++ id :: between) ++ k :: behind := by
    rw [List.append_assoc]
    exact hsplit.symm
  have before : id ∈ front ++ id :: between := by simp
  obtain ⟨ahead, hahead, hid, hk⟩ := run.pushed_before split before
  exact (noted.past_of_alone found alone called hahead hid hk).not_later noted.ahead history

/-- What has become of the finale of `b`: it has been performed just if the members are `sound`, by
the step that submits the batch if there are no members, and by a worker otherwise. -/
structure Concluded (w : World α) (p : Nat) (b : Batch) (ticket : Ticket) (sound : Prop)
    (finale? : Option Rendition) : Prop where
  due : finale?.isSome = true ↔ b.finale.isSome = true ∧ sound
  calls : w.history.reverse.filter (ticket.ofFinale p) = (finale?.map (·.entries)).getD []
  performed : ∀ r job, finale? = some r → b.finale = some job →
    ∃ l, ticket.latch = some l ∧ Renders ((Issue.batch b).finaleOrigin p ticket.id l) job.programs r
  performer : ∀ r, finale? = some r →
    if b.members = [] then (r.who, .issued p ticket.id (.batch b)) ∈ w.history
    else ∃ i, r.who = .worker p i

theorem Run.concluded (run : (World.start cells).Run moments w)
    (honoured : (Ticket.batch bid size waitable latch?).Honoured w.history p)
    (issued : Recorded w.history (.issued p bid (.batch b))) {sound : Prop}
    (finished : sound → ∀ id ∈ (Ticket.batch bid size waitable latch?).members w.history p,
      w.Finished p id)
    (broken : ¬sound → ∃ id ∈ (Ticket.batch bid size waitable latch?).members w.history p,
      ¬w.Completed p id) :
    ∃ finale?, w.Concluded p b (.batch bid size waitable latch?) sound finale? := by
  by_cases hsound : sound
  · cases finale : b.finale with
    | none =>
        exact ⟨none, by simp [finale], run.finale_uncalled honoured issued (.inl finale), nofun,
          nofun⟩
    | some job =>
        obtain ⟨r, l, rfl, renders, entries, performer⟩ :=
          run.finale_rendered honoured issued finale (finished hsound)
        refine ⟨some r, by simp [finale, hsound], entries.symm, ?_, ?_⟩
        · rintro _ job' ⟨⟩ hjob
          obtain rfl := Option.some.inj (finale.symm.trans hjob)
          exact ⟨l, rfl, renders⟩
        · rintro _ ⟨⟩
          exact performer
  · have uncalled := run.finale_uncalled honoured issued (.inr (broken hsound))
    exact ⟨none, by simp [hsound], uncalled, nofun, nofun⟩

/-- How the submission of `b` to a pool has been carried out: `parts` are the renditions of its
members, in their order, and `finale?` is that of its finale, if it has been performed. -/
structure Enacted (w : World α) (p : Nat) (pool : Pool) (b : Batch) (ticket : Ticket)
    (parts : List Rendition) (finale? : Option Rendition) : Prop where
  jobs : (WorkerPool.membersOf w.history p ticket.id).map Prod.snd = b.members
  /-- Each member has been performed once, by one worker, up to its first panic. -/
  members : List.Forall₂ (fun member r => Renders (.item p member.1) member.2.programs r ∧
    ∃ i, r.who = .worker p i) (WorkerPool.membersOf w.history p ticket.id) parts
  finale : w.Concluded p b ticket (∀ r ∈ parts, r.fine = true) finale?
  /-- Nothing else has been called, and the finale after all the members. -/
  calls : ∃ body, Interleaves (parts.map (·.entries)) body ∧
    w.callsFor p ticket = body ++ (finale?.map (·.entries)).getD []
  alone : pool.threads = 1 →
    w.callsFor p ticket = parts.flatMap (·.entries) ++ (finale?.map (·.entries)).getD []
  /-- A step that performs the batch in place calls the same functions in the same order. -/
  inPlace : pool.threads = 1 → (∀ r ∈ parts, r.fine = true) →
    (∀ r, finale? = some r → r.fine = true) →
      ∀ (index : Nat) (moments : List (Moment α)), PerformedInPlace b index moments →
        moments.filterMap (Moment.ownCall? index) =
          (w.callsFor p ticket).filterMap (·.2.program?)

/-- The functions of a batch whose members and finale have been performed without a panic. -/
theorem Concluded.programs_eq {sound : Prop} {finale? : Option Rendition} {ticket : Ticket}
    (concluded : w.Concluded p b ticket sound finale?) (hsound : sound)
    (fine : ∀ r, finale? = some r → r.fine = true) :
    ((finale?.map (·.entries)).getD []).filterMap (·.2.program?) =
      (b.finale.map Job.programs).getD [] := by
  have due := concluded.due
  cases finale? with
  | none =>
      cases finale : b.finale with
      | none => rfl
      | some job => simp [finale, hsound] at due
  | some r =>
      cases finale : b.finale with
      | none => simp [finale] at due
      | some job =>
          obtain ⟨l, -, renders⟩ := concluded.performed r job rfl finale
          exact renders.programs (fine r rfl)

/-- The renditions of the members of `b`, and what they say of them. -/
structure Rendered (w : World α) (p : Nat) (b : Batch) (ticket : Ticket) (parts : List Rendition) :
    Prop where
  members : List.Forall₂ (fun member r => Renders (.item p member.1) member.2.programs r ∧
    ∃ i, r.who = .worker p i) (WorkerPool.membersOf w.history p ticket.id) parts
  entries : parts.map (·.entries) = (ticket.members w.history p).map fun id =>
    w.history.reverse.filter (Entry.calls (.item p id))
  finished : (∀ r ∈ parts, r.fine = true) → ∀ id ∈ ticket.members w.history p, w.Finished p id
  broken : (¬∀ r ∈ parts, r.fine = true) → ∃ id ∈ ticket.members w.history p, ¬w.Completed p id
  programs : (∀ r ∈ parts, r.fine = true) →
    parts.map (fun r => r.entries.filterMap (·.2.program?)) = b.members.map Job.programs

theorem Reachable.rendered_members (h : w.Reachable)
    (honoured : (Ticket.batch bid size waitable latch?).Honoured w.history p)
    (issued : Recorded w.history (.issued p bid (.batch b)))
    (processed : ∀ id ∈ (Ticket.batch bid size waitable latch?).members w.history p,
      w.Processed p id) :
    ∃ parts, w.Rendered p b (.batch bid size waitable latch?) parts := by
  have rendered : ∀ member, ∃ r : Rendition, member ∈ WorkerPool.membersOf w.history p bid →
      Renders (.item p member.1) member.2.programs r ∧ (∃ i, r.who = .worker p i) ∧
        r.entries = w.history.reverse.filter (Entry.calls (.item p member.1)) ∧
        (r.fine = true → w.Finished p member.1) ∧ (r.fine = false → ¬w.Completed p member.1) := by
    intro member
    by_cases hmember : member ∈ WorkerPool.membersOf w.history p bid
    · obtain ⟨⟨who, entry⟩, hmem, hentry⟩ := List.mem_filterMap.mp (List.mem_reverse.mp hmember)
      obtain rfl := Entry.member?_eq_some.mp hentry
      obtain ⟨r, renders⟩ := h.rendered ⟨who, hmem⟩
        (processed member.1 (List.mem_map.mpr ⟨member, hmember, rfl⟩))
      rw [reverse_calls] at renders
      exact ⟨r, fun _ => renders⟩
    · exact ⟨⟨.step 0, true, []⟩, fun mem => absurd mem hmember⟩
  choose rendition hrendition using rendered
  refine ⟨(WorkerPool.membersOf w.history p bid).map rendition, ?_, ?_, ?_, ?_, ?_⟩
  · exact List.forall₂_map_right_iff.mpr (List.forall₂_same.mpr fun member hmember =>
      ⟨(hrendition member hmember).1, (hrendition member hmember).2.1⟩)
  · rw [Ticket.members, List.map_map, List.map_map]
    exact List.map_congr_left fun member hmember => (hrendition member hmember).2.2.1
  · intro fine id hid
    obtain ⟨member, hmember, rfl⟩ := List.mem_map.mp hid
    exact (hrendition member hmember).2.2.2.1 (fine _ (List.mem_map.mpr ⟨member, hmember, rfl⟩))
  · intro unsound
    push Not at unsound
    obtain ⟨r, hr, broken⟩ := unsound
    obtain ⟨member, hmember, rfl⟩ := List.mem_map.mp hr
    exact ⟨member.1, List.mem_map.mpr ⟨member, hmember, rfl⟩,
      (hrendition member hmember).2.2.2.2 (by simpa using broken)⟩
  · intro fine
    rw [← h.members_eq honoured issued, List.map_map, List.map_map]
    exact List.map_congr_left fun member hmember => (hrendition member hmember).1.programs
      (fine _ (List.mem_map.mpr ⟨member, hmember, rfl⟩))

/-- Dispatching a batch agrees with performing it: once all members of a batch that was accepted have
been processed, what has been called for it is an interleaving of its members, each up to its first
panic, and then the finale if nothing has panicked; and with one worker there is no interleaving. -/
theorem Run.dispatch_agrees (run : (World.start cells).Run moments w) {pool : Pool}
    (found : w.store.pools[p]? = some pool)
    (honoured : (Ticket.batch bid size waitable latch?).Honoured w.history p)
    (issued : Recorded w.history (.issued p bid (.batch b)))
    (processed : ∀ id ∈ (Ticket.batch bid size waitable latch?).members w.history p,
      w.Processed p id) :
    ∃ parts finale?, w.Enacted p pool b (.batch bid size waitable latch?) parts finale? := by
  have reachable : w.Reachable := run.reachable (.start cells)
  obtain ⟨parts, rendered⟩ := reachable.rendered_members honoured issued processed
  obtain ⟨finale?, concluded⟩ :=
    run.concluded honoured issued rendered.finished rendered.broken
  have calls := run.callsFor_eq honoured issued
  rw [concluded.calls] at calls
  have alone : pool.threads = 1 → w.callsFor p (.batch bid size waitable latch?) =
      parts.flatMap (·.entries) ++ (finale?.map (·.entries)).getD [] := fun alone => by
    rw [calls, run.filter_ofMember found alone, List.flatMap_def, List.flatMap_def,
      rendered.entries]
  refine ⟨parts, finale?, reachable.members_eq honoured issued, rendered.members, concluded,
    ⟨_, ?_, calls⟩, alone, fun single fine fine' index moments performed => ?_⟩
  · rw [rendered.entries]
    exact reachable.interleaves_ofMember p (.batch bid size waitable latch?)
  · calc moments.filterMap (Moment.ownCall? index)
        = b.members.flatMap Job.programs ++ (b.finale.map Job.programs).getD [] := performed.calls
      _ = (parts.flatMap (·.entries)).filterMap (·.2.program?) ++
            ((finale?.map (·.entries)).getD []).filterMap (·.2.program?) := by
          rw [concluded.programs_eq fine fine', List.filterMap_flatMap, List.flatMap_def,
            List.flatMap_def, rendered.programs fine]
      _ = (w.callsFor p _).filterMap (·.2.program?) := by
          rw [alone single, List.filterMap_append]

end Batches

/-- A pool with one worker, and a batch with two members and a finale that is larger than its ring. -/
def inTurn : List (Command Unit) :=
  [.newPool "p" (.given { capacity := 1, threads := some 1, name := "p" }),
    .newBatch "b" 2 true,
    .onBatch "b" (.add (.link [.say "one"] true)),
    .onBatch "b" (.add (.link [.say "two"] true)),
    .onBatch "b" (.setFinale (.link [.say "done"] true) false),
    .onPool "p" (.submitBatch "b" (some "t"))]

theorem dispatch_agrees_of_inTurn :
    ∃ pool b parts finale?, (follow 60 inTurn (.start [])).store.pools[0]? = some pool ∧
      pool.threads = 1 ∧ b.programs = [[.say "one"], [.say "two"], [.say "done"]] ∧
      (follow 60 inTurn (.start [])).Enacted 0 pool b (.batch 1 2 true (some 1)) parts finale? ∧
      (follow 60 inTurn (.start [])).callsFor 0 (.batch 1 2 true (some 1)) = [
        (.worker 0 0, .called (.item 0 2) 0 [.say "one"]),
        (.worker 0 0, .returned (.item 0 2) 0),
        (.worker 0 0, .called (.item 0 3) 0 [.say "two"]),
        (.worker 0 0, .returned (.item 0 3) 0),
        (.worker 0 0, .called (.latch 1) 0 [.say "done"]),
        (.worker 0 0, .returned (.latch 1) 0)] := by
  have run := run_following 60 inTurn (.start [])
  have there : (follow 60 inTurn (.start [])).store.pools[0]?.map (·.threads) = some 1 := by decide
  obtain ⟨pool, found, threads⟩ := Option.map_eq_some_iff.mp there
  obtain ⟨p, honoured⟩ := (run.reachable (.start [])).assured.kept (.batch 1 2 true (some 1))
    ⟨"t", by decide⟩
  obtain rfl : p = 0 := by
    have := (run.reachable (.start [])).known.store.pools p _ honoured.1
    have pools : (follow 60 inTurn (.start [])).store.pools.length = 1 := by decide
    omega
  have issued : Recorded (follow 60 inTurn (.start [])).history (.issued 0 1 _) :=
    ⟨.step 5, List.mem_of_getElem? (i := 23) rfl⟩
  have members : (Ticket.batch 1 2 true (some 1)).members
      (follow 60 inTurn (.start [])).history 0 = [2, 3] := by decide
  obtain ⟨parts, finale?, enacted⟩ := run.dispatch_agrees found honoured issued fun id hid => by
    rw [members] at hid
    simp only [List.mem_cons, List.not_mem_nil, or_false] at hid
    rcases hid with rfl | rfl
    · exact .inl ⟨0, List.mem_of_getElem? (i := 11) rfl⟩
    · exact .inl ⟨0, List.mem_of_getElem? (i := 0) rfl⟩
  exact ⟨pool, _, parts, finale?, found, threads, rfl, enacted, rfl⟩

end World

end WorkerPool
