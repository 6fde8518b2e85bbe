import WorkerPool.Proofs.Rejected
import WorkerPool.Proofs.Verdict

/-! What a pool spends its ids on. Every id that a pool gives out is the next one, so they are all the
numbers from one up to the last, each of them once. What is submitted gets an id of its own, and this
is all that is spent on a single job. A batch gets one more for each member that its submission comes
to, so its own id is the first of those spent on it; the members have theirs in the order in which
they stand in the batch, and the one that is refused is the last that gets one. -/

namespace WorkerPool

variable {α : Type}

/-- What the pool at `p` has given an id to, with the id. -/
def Entry.issued? (p : Nat) : Entry → Option (Nat × Issue)
  | .issued q id issue => if q = p then some (id, issue) else none
  | _ => none

/-- The id of what was submitted when the id `id` was given out. A member is part of its batch. -/
def Issue.account (id : Nat) : Issue → Nat
  | .member bid _ => bid
  | _ => id

/-- Whether an id was given to what was submitted as a whole. -/
def Issue.opens : Issue → Bool
  | .member .. => false
  | _ => true

theorem Entry.issued?_eq_some {p id : Nat} {issue : Issue} {entry : Entry} :
    entry.issued? p = some (id, issue) ↔ entry = .issued p id issue := by
  cases entry with
  | issued q i given => by_cases hq : q = p <;> simp [issued?, hq]
  | _ => simp [issued?]

theorem Entry.issue?_eq_bind (p n : Nat) (entry : Entry) :
    entry.issue? p n =
      (entry.issued? p).bind fun (id, issue) => if id = n then some issue else none := by
  cases entry with
  | issued q i given => by_cases hq : q = p <;> simp [issue?, issued?, hq]
  | _ => rfl

/-- The member of the batch `n` that was given the id. -/
def Issue.part? (n : Nat) : Nat × Issue → Option (Nat × Job)
  | (id, .member bid part) => if bid = n then some (id, part) else none
  | _ => none

theorem Entry.member?_eq_bind (p n : Nat) (entry : Entry) :
    entry.member? p n = (entry.issued? p).bind (Issue.part? n) := by
  cases entry with
  | issued q i given =>
      cases given <;> by_cases hq : q = p <;> simp [member?, issued?, Issue.part?, hq]
  | _ => rfl

theorem Entry.Plain.issued? {note : Entry} (h : note.Plain) (p : Nat) : note.issued? p = none := by
  cases note with
  | issued => exact h.elim
  | _ => rfl

namespace Store

/-- The id that the pool at `p` gives out next, once there is one. -/
def upcoming (s : Store α) (p : Nat) : Nat :=
  (s.pools[p]?.map (·.nextId)).getD 1

theorem upcoming_of_pools {s s' : Store α} (h : s'.pools = s.pools) (p : Nat) :
    s'.upcoming p = s.upcoming p := by
  rw [upcoming, h, upcoming]

theorem upcoming_eq {s : Store α} {p : Nat} {pool : Pool} (found : s.pools[p]? = some pool) :
    s.upcoming p = pool.nextId := by
  rw [upcoming, found]
  rfl

theorem upcoming_set {s s' : Store α} {place : Nat} {pool pool' : Pool}
    (found : s.pools[place]? = some pool) (h : s'.pools = s.pools.set place pool') (p : Nat) :
    s'.upcoming p = if p = place then pool'.nextId else s.upcoming p := by
  have hpools : s'.pools = (s.setPool place pool').pools := h
  rw [upcoming_of_pools hpools, upcoming, getElem?_setPool found]
  split
  · rfl
  · rfl

end Store

section Deeds

variable {around : Around} {s : Store α} {who : Who} {old : List (Op α)} {e : Effect α}

/-- What a turn gives out of the ids of the pool at `p`: none, or the next one. -/
inductive Gives (s : Store α) (e : Effect α) (p : Nat) : Prop
  | nothing (notes : e.notes.filterMap (Entry.issued? p) = [])
      (same : e.store.upcoming p = s.upcoming p)
  | next (pool : Pool) (issue : Issue) (found : s.pools[p]? = some pool)
      (notes : e.notes.filterMap (Entry.issued? p) = [(pool.nextId, issue)])
      (up : e.store.upcoming p = s.upcoming p + 1)

theorem Gives.of_pools {p : Nat} (pools : e.store.pools = s.pools)
    (plain : ∀ note ∈ e.notes, note.issued? p = none) : Gives s e p :=
  .nothing (List.filterMap_eq_nil_iff.mpr plain) (Store.upcoming_of_pools pools p)

theorem Gives.of_set {p place : Nat} {pool pool' : Pool} (found : s.pools[place]? = some pool)
    (pools : e.store.pools = s.pools.set place pool') (same : pool'.nextId = pool.nextId)
    (plain : ∀ note ∈ e.notes, note.issued? p = none) : Gives s e p := by
  refine .nothing (List.filterMap_eq_nil_iff.mpr plain) ?_
  rw [Store.upcoming_set found pools]
  split
  · rename_i hp
    rw [same, hp, Store.upcoming_eq found]
  · rfl

theorem Gives.of_issued {p place : Nat} {pool : Pool} {issue : Issue} {notes : List Entry}
    (found : s.pools[place]? = some pool)
    (pools : e.store.pools = s.pools.set place { pool with nextId := pool.nextId + 1 })
    (told : e.notes = .issued place pool.nextId issue :: notes)
    (plain : ∀ note ∈ notes, note.issued? p = none) : Gives s e p := by
  have hrest : notes.filterMap (Entry.issued? p) = [] := List.filterMap_eq_nil_iff.mpr plain
  by_cases hp : place = p
  · subst hp
    refine .next pool issue found ?_ ?_
    · rw [told, List.filterMap_cons_some (Entry.issued?_eq_some.mpr rfl), hrest]
    · rw [Store.upcoming_set found pools, if_pos rfl, Store.upcoming_eq found]
  · refine .nothing ?_ ?_
    · have hnone : Entry.issued? p (.issued place pool.nextId issue) = none := if_neg hp
      rw [told, List.filterMap_cons_none hnone, hrest]
    · rw [Store.upcoming_set found pools, if_neg (Ne.symm hp)]

/-- A turn gives out the next id of a pool or none. -/
theorem Deed.gives {op : Op α} (deed : Deed around s who op e) (p : Nat) : Gives s e p := by
  cases deed with
  | commanded command eases leaves plain =>
      exact .of_pools eases.pools fun note h => (plain note h).issued? p
  | acted origin position action rest later eases leaves plain =>
      exact .of_pools eases.pools fun note h => (plain note h).issued? p
  | accepted sub pool found through hands plain =>
      exact .of_pools rfl fun note h => (plain note h).issued? p
  | refused sub pool found refuses plain =>
      exact .of_pools rfl fun note h => (plain note h).issued? p
  | handed ticket name same => exact .of_pools same.1 (by simp)
  | poolMade command name settings capacity threads =>
      refine .nothing (by simp [Entry.issued?]) ?_
      rcases Nat.lt_trichotomy p s.pools.length with hlt | rfl | hgt
      · simp only [Store.upcoming, List.getElem?_append_left hlt]
      · simp [Store.upcoming]
      · rw [Store.upcoming, Store.upcoming,
          List.getElem?_eq_none (by simpa using Nat.succ_le_of_lt hgt),
          List.getElem?_eq_none (Nat.le_of_lt hgt)]
  | jobAdded submits place pool job found | freeJobAdded submits place pool job found =>
      exact .of_issued found rfl rfl (by simp [Entry.issued?])
  | batchAdded command place pool batch ticket found
  | freeBatchAdded command place pool batch ticket found =>
      exact .of_issued found rfl rfl (by simp [Entry.issued?])
  | emptyBatchAdded command place pool batch job ticket found =>
      exact .of_issued found rfl rfl (by simp)
  | memberAdded sub pool job rest found => exact .of_issued found rfl rfl (by simp)
  | left place pool found | enlisted sub pool item found | poolTerminated place pool found =>
      exact .of_set found rfl rfl (by simp)
  | pushed sub pool item stage found =>
      exact .of_set found rfl rfl (by simp [Entry.issued?])
  | taken place index pool stage item ring found =>
      exact .of_set found rfl rfl (by simp [Entry.issued?])
  | drained place pool ring found => exact .of_set found rfl rfl (by simp [Entry.issued?])
  | jobStarted place index pool item found =>
      exact .of_set found rfl rfl (by simp [Entry.issued?])
  | jobFinished place index pool item succeeded found =>
      exact .of_set found rfl rfl (by cases succeeded <;> simp [Entry.issued?])
  | abandoned place pool items found =>
      exact .of_pools rfl (by cases items <;> simp [Entry.issued?])
  | countSkipped | countStarted | counted | poolReady | workStarted | refusing | released
  | batchSettled | codeCalled | codeReturned | lastReleased | joinedAll | jobBroke
  | workerStopped => exact .of_pools rfl (by simp [Entry.issued?])
  | _ => exact .of_pools rfl (by simp)

theorem Act.gives (act : Act around s who old e) (p : Nat) : Gives s e p := by
  cases act with
  | deed deed quiet => exact deed.gives p
  | broke payload loose lands uncaught =>
      refine .of_pools rfl fun note hnote => ?_
      rcases lands.of_mem_notes hnote with ⟨origin, position, rfl⟩ | rfl <;> rfl

end Deeds

namespace World

variable {w v : World α} {index : Nat} {t : Thread α} {old tail : List (Op α)} {e : Effect α}

/-- What the pool at `p` has given ids to, in the order in which it gave them out. -/
def ledger (w : World α) (p : Nat) : List (Nat × Issue) :=
  (w.history.filterMap fun (_, entry) => entry.issued? p).reverse

/-- The ids that the pool at `p` has given out, in this order. -/
def given (w : World α) (p : Nat) : List Nat :=
  (w.ledger p).map Prod.fst

/-- The ids that the pool at `p` has given out for what was submitted under the id `n`. -/
def spent (w : World α) (p n : Nat) : List Nat :=
  ((w.ledger p).filter fun (id, issue) => issue.account id == n).map Prod.fst

theorem mem_ledger {p id : Nat} {issue : Issue} :
    (id, issue) ∈ w.ledger p ↔ Recorded w.history (.issued p id issue) :=
  mem_noted fun _ => Entry.issued?_eq_some

theorem mem_given {p id : Nat} :
    id ∈ w.given p ↔ ∃ issue, Recorded w.history (.issued p id issue) := by
  constructor
  · intro h
    obtain ⟨⟨id, issue⟩, hmem, rfl⟩ := List.mem_map.mp h
    exact ⟨issue, mem_ledger.mp hmem⟩
  · rintro ⟨issue, recorded⟩
    exact List.mem_map.mpr ⟨(id, issue), mem_ledger.mpr recorded, rfl⟩

theorem Took.ledger (took : w.Took v index t old tail e) (p : Nat) :
    v.ledger p = w.ledger p ++ e.notes.filterMap (Entry.issued? p) :=
  took.noted fun (_, entry) => entry.issued? p

/-! ### One after the other -/

theorem Reachable.given_upcoming (h : w.Reachable) (p : Nat) :
    1 ≤ w.store.upcoming p ∧ w.given p = List.range' 1 (w.store.upcoming p - 1) := by
  refine h.induct
    (P := fun w => 1 ≤ w.store.upcoming p ∧ w.given p = List.range' 1 (w.store.upcoming p - 1))
    (fun cells => ⟨Nat.le_refl 1, rfl⟩) (fun w command _ ih => ih) ?_
  intro w v index t old tail e reachable took ⟨positive, given⟩
  rw [World.given, took.ledger, List.map_append, ← World.given, given, took.store]
  cases took.act.gives p with
  | nothing notes same =>
      rw [notes, same]
      exact ⟨positive, List.append_nil _⟩
  | next pool issue found notes up =>
      have hnext : pool.nextId = 1 + (w.store.upcoming p - 1) := by
        rw [Store.upcoming_eq found] at positive ⊢
        omega
      have hmore : w.store.upcoming p + 1 - 1 = w.store.upcoming p - 1 + 1 := by omega
      rw [notes, up, List.map_singleton, hnext, hmore, List.range'_1_concat]
      exact ⟨Nat.le_add_left 1 _, rfl⟩

/-- What is spent on a submission is its own id, and then those of its members. -/
theorem Reachable.spent_eq (h : w.Reachable) (p n : Nat) :
    w.spent p n = ((w.issues p n).filter Issue.opens).map (fun _ => n) ++
      (membersOf w.history p n).map Prod.fst := by
  refine h.induct (P := fun w => w.spent p n = ((w.issues p n).filter Issue.opens).map (fun _ => n) ++
    (membersOf w.history p n).map Prod.fst) (fun cells => rfl) (fun w command _ ih => ih) ?_
  intro w v index t old tail e reachable took ih
  have hissues : v.issues p n = ((e.notes.filterMap (Entry.issued? p)).filterMap fun (id, issue) =>
      if id = n then some issue else none).reverse ++ w.issues p n := by
    rw [took.issues, List.filterMap_filterMap]
    simp only [← Entry.issue?_eq_bind]
  have hmembers : WorkerPool.membersOf v.history p n = WorkerPool.membersOf w.history p n ++
      (e.notes.filterMap (Entry.issued? p)).filterMap (Issue.part? n) := by
    rw [took.membersOf, List.filterMap_filterMap]
    simp only [← Entry.member?_eq_bind]
  rw [World.spent, took.ledger, List.filter_append, List.map_append, ← World.spent, ih, hissues,
    hmembers]
  cases took.act.gives p with
  | nothing notes same => simp [notes]
  | next pool issue found notes up =>
      rw [notes]
      cases issue with
      | member bid job =>
          by_cases hb : bid = n <;> by_cases hn : pool.nextId = n <;>
            simp [Issue.account, Issue.opens, Issue.part?, hb, hn]
      | job | batch =>
          -- what is given its id now has no members yet
          by_cases hn : pool.nextId = n
          · have ahead := hn ▸ ahead_nextId found
            rw [(reachable.issues p n).2 ahead, (reachable.enrolled.ahead p n ahead).2]
            simp [List.filter_cons, List.filterMap_cons, Issue.account, Issue.opens, Issue.part?, hn]
          · simp [Issue.account, Issue.part?, hn]

section Accounts

variable {p n : Nat}

/-- An id is given once. -/
theorem Reachable.issues_eq (h : w.Reachable) {issue : Issue}
    (recorded : Recorded w.history (.issued p n issue)) : w.issues p n = [issue] := by
  have given : issue ∈ w.issues p n := mem_issues.mpr recorded
  obtain ⟨only, hissues⟩ := List.length_eq_one_iff.mp
    (Nat.le_antisymm (h.issues p n).1 (List.length_pos_of_mem given))
  rw [hissues, List.mem_singleton] at given
  rw [hissues, given]

theorem Reachable.spent_of_batch (h : w.Reachable) {batch : Batch}
    (issued : Recorded w.history (.issued p n (.batch batch))) :
    w.spent p n = n :: (membersOf w.history p n).map Prod.fst := by
  rw [h.spent_eq, h.issues_eq issued]
  rfl

end Accounts

end World

/-! ### The member that is refused -/

/-- The member of a batch that an operation is about to submit is the last that was given an id. -/
def Op.Newest (h : List (Who × Entry)) : Op α → Prop
  | .submit sub phase => ∀ item, phase.item? = some item → ∀ bid size waitable latch,
      sub.ticket = .batch bid size waitable latch →
        (membersOf h sub.pool bid).getLast? = some (item.id, item.job)
  | _ => True

theorem Op.Newest.wake {h : List (Who × Entry)} {op : Op α} (newest : op.Newest h) :
    op.wake.Newest h := by
  cases op with
  | submit sub phase =>
      cases phase with
      | send call => cases call <;> exact newest
      | _ => exact newest
  | work p i phase => cases phase <;> exact trivial
  | _ => exact newest

/-- A submission that goes on with an item goes on with the members that it has. -/
theorem Op.Newest.goes {h h' : List (Who × Entry)} {sub : Submission}
    {phase phase' : SubmissionPhase} (newest : (Op.submit sub phase : Op α).Newest h)
    (same : membersOf h' sub.pool sub.ticket.id = membersOf h sub.pool sub.ticket.id)
    (kept : ∀ item, phase'.item? = some item → phase.item? = some item) :
    (Op.submit sub phase' : Op α).Newest h' := by
  intro item hitem bid size waitable latch hticket
  rw [hticket] at same
  rw [show membersOf h' sub.pool bid = membersOf h sub.pool bid from same]
  exact newest item (kept item hitem) bid size waitable latch hticket

theorem Op.Newest.of_not_serves {h : List (Who × Entry)} {op : Op α} (idle : ¬op.Serves) :
    op.Newest h := by
  cases op with
  | submit sub phase =>
      cases phase with
      | refused => exact fun item hitem => nomatch hitem
      | _ => exact absurd trivial idle
  | _ => trivial

namespace World

variable {w v : World α} {index : Nat} {t : Thread α} {old tail : List (Op α)} {e : Effect α}

theorem Took.newest_self (took : w.Took v index t old tail e)
    (h : ∀ t ∈ w.threads, ∀ op ∈ t.ops, op.Newest w.history) : ∀ op ∈ e.ops, op.Newest v.history := by
  intro op' hop'
  by_cases serves : op'.Serves
  swap
  · exact .of_not_serves serves
  have ht := took.mem_threads
  cases took.act with
  | broke payload loose lands uncaught =>
      rcases lands.of_serves hop' serves with ⟨p, i, item, rfl, -⟩ | ⟨p, batch, bid, asker, rfl, -⟩
      · trivial
      · trivial
  | @deed op _ deed quiet =>
      have hop : op ∈ t.ops := took.due_mem
      have newest := h t ht op hop
      have same : ∀ p bid, (∀ sub, op ≠ .submit sub .next) →
          WorkerPool.membersOf v.history p bid = WorkerPool.membersOf w.history p bid := by
        intro p bid apart
        rcases deed.members p bid with hnone | ⟨sub, pool, job, rest, rfl, -⟩
        · rw [took.membersOf, hnone, List.append_nil]
        · exact absurd rfl (apart sub)
      cases deed.follows hop' serves with
      | jobAdded => exact fun item hitem bid size waitable latch hticket => nomatch hticket
      | batchAdded | finaleThrough | pushed | sent => exact fun item hitem => nomatch hitem
      | memberAdded sub pool job rest found ahead issued =>
          rintro item ⟨⟩ bid size waitable latch hticket
          rw [took.membersOf, issued]
          simp [Entry.member?, show sub.ticket = _ from hticket, Ticket.id]
      | enlisted sub item | offered sub item =>
          exact newest.goes (same _ _ (by simp)) fun _ hitem => hitem
      | givenBack sub call item had =>
          exact newest.goes (same _ _ (by simp)) fun _ hitem => had.trans hitem
      | sendSlept sub item => exact newest.goes (same _ _ (by simp)) fun _ hitem => hitem
      | _ => trivial

theorem Reachable.newest (h : w.Reachable) : ∀ t ∈ w.threads, ∀ op ∈ t.ops, op.Newest w.history := by
  refine h.induct (P := fun w => ∀ t ∈ w.threads, ∀ op ∈ t.ops, op.Newest w.history)
    (fun cells t ht => nomatch ht) (fun w command _ ih => ?_) ?_
  · exact forall_ops_issue (P := fun _ op => op.Newest w.history) ih trivial
  intro w v index t old tail e reachable took ih
  refine took.forall_ops_beside (P := fun _ op => op.Newest v.history)
    (fun who op newest => newest.wake) (fun u hu op hop beside => ?_)
    (took.newest_self ih) fun _ _ _ _ => trivial
  by_cases serves : op.Serves
  swap
  · exact .of_not_serves serves
  cases op with
  | submit sub phase =>
      -- nobody else submits the same batch
      refine (ih u hu _ hop).goes (took.membersOf_of_load ?_) fun _ hitem => hitem
      have hone : Op.submits sub.pool sub.ticket.id (.submit sub phase : Op α) = 1 := by
        cases phase <;> first | exact serves.elim | exact if_pos ⟨rfl, rfl⟩
      have hboth := beside fun _ => Op.submits sub.pool sub.ticket.id
      have hsingle := reachable.enrolled.single sub.pool sub.ticket.id
      omega
  | _ => trivial

end World

/-! ### When a call returns -/

/-- The call that the thread makes returns in its next turn: everything that it has submitted is
accepted, or it is refused. -/
inductive Thread.Returns (t : Thread α) (sub : Submission) : Bool → Prop
  | accepted (rest : List (Op α)) (due : t.ops = .submit sub .next :: rest)
      (through : sub.rest = []) : Returns t sub true
  | refused (rest : List (Op α)) (due : t.ops = .submit sub .refused :: rest) :
      Returns t sub false

theorem Thread.Returns.mem_ops {t : Thread α} {sub : Submission} {ok : Bool}
    (returns : t.Returns sub ok) : ∃ phase, .submit sub phase ∈ t.ops := by
  cases returns with
  | accepted rest due => exact ⟨.next, due ▸ List.mem_cons_self⟩
  | refused rest due => exact ⟨.refused, due ▸ List.mem_cons_self⟩

namespace World

variable {w v : World α} {t : Thread α} {p : Nat} {batch : Batch}

/-- The ticket of a batch is one of its kind. -/
theorem Reachable.ticket_of_batch (h : w.Reachable) {ticket : Ticket}
    (recorded : Recorded w.history (.ticketed p ticket))
    (issued : Recorded w.history (.issued p ticket.id (.batch batch))) :
    ∃ size waitable latch, ticket = .batch ticket.id size waitable latch := by
  cases ticket with
  | job id latch => exact (h.fits recorded issued).elim
  | batch bid size waitable latch => exact ⟨size, waitable, latch, rfl⟩

/-- As long as a batch has the same members, nothing more has been spent on it. -/
theorem Later.spent_eq (later : w.Later v) (h : w.Reachable) {ticket : Ticket}
    (recorded : Recorded w.history (.ticketed p ticket))
    (issued : Recorded w.history (.issued p ticket.id (.batch batch)))
    (members : ticket.members v.history p = ticket.members w.history p) :
    v.spent p ticket.id = w.spent p ticket.id := by
  obtain ⟨size, waitable, latch, hticket⟩ := h.ticket_of_batch recorded issued
  rw [hticket] at members
  rw [(h.later later).spent_of_batch (issued.mono (later.history_subset h)),
    h.spent_of_batch issued]
  exact congrArg _ members

end World

end WorkerPool
