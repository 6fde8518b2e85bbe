import WorkerPool.Proofs.Tickets

/-! How far a submission has come. What a ticket stands for is submitted by one submission, which
goes through the members of a batch one by one: those that it has behind it have been given ids, in
their order, and have been pushed into the ring. So once the last one is through, everything has
been accepted, and it stays so. A ticket that somebody holds is one of an accepted submission. -/

namespace WorkerPool

variable {α : Type}

/-- The member that the entry gives an id to, if it is one of the batch `bid` of the pool `p`. -/
def Entry.member? (p bid : Nat) : Entry → Option (Nat × Job)
  | .issued q id (.member b job) => if q = p ∧ b = bid then some (id, job) else none
  | _ => none

/-- The members of a batch that have been given ids, in order. -/
def membersOf (h : List (Who × Entry)) (p bid : Nat) : List (Nat × Job) :=
  (h.filterMap fun (_, entry) => entry.member? p bid).reverse

/-- The item with this id has been accepted by the pool. -/
def Pushed (h : List (Who × Entry)) (p id : Nat) : Prop :=
  ∃ item : Item, item.id = id ∧ Recorded h (.pushed p item)

/-- All that the ticket stands for has been accepted by the pool. -/
def Accepted (h : List (Who × Entry)) (p : Nat) : Ticket → Prop
  | .job id _ => Pushed h p id
  | .batch bid .. => ∃ batch, Recorded h (.issued p bid (.batch batch)) ∧
    (membersOf h p bid).map Prod.snd = batch.members ∧
      ∀ member ∈ membersOf h p bid, Pushed h p member.1

theorem Pushed.mono {h h' : List (Who × Entry)} (sub : h ⊆ h') {p id : Nat}
    (pushed : Pushed h p id) :
    Pushed h' p id := by
  obtain ⟨item, hid, recorded⟩ := pushed
  exact ⟨item, hid, recorded.mono sub⟩

/-- What a submission to the pool has behind it, given where it stands: a single job has been pushed
unless the submission has it in its hands; of a batch the members that are still to come are
missing, and all others have been pushed, but for the one in hand. -/
def Submission.Progress (h : List (Who × Entry)) (sub : Submission) (phase : SubmissionPhase) :
    Prop :=
  match sub.ticket with
  | .job id _ => phase.item? = none → Pushed h sub.pool id
  | .batch bid .. => ∃ batch, Recorded h (.issued sub.pool bid (.batch batch)) ∧
    (membersOf h sub.pool bid).map Prod.snd ++ sub.rest = batch.members ∧
      ∀ member ∈ membersOf h sub.pool bid,
        Pushed h sub.pool member.1 ∨ ∃ item, phase.item? = some item ∧ item.id = member.1

namespace Op

/-- Whether an operation submits what has the id `id` in the pool `p`. -/
def submits (p id : Nat) : Op α → Nat
  | .submit _ .refused => 0
  | .submit sub _ => if sub.pool = p ∧ sub.ticket.id = id then 1 else 0
  | .construct (.submission q _ bid _) _ => if q = p ∧ bid = id then 1 else 0
  | _ => 0

/-- How far a submission has come, or one that has not begun because a finale is performed first. -/
def Progress (h : List (Who × Entry)) : Op α → Prop
  | .submit _ .refused => True
  | .submit sub phase => sub.Progress h phase
  | .construct (.submission p _ bid _) _ => membersOf h p bid = []
  | _ => True

theorem submits_wake (p id : Nat) (op : Op α) : op.wake.submits p id = op.submits p id := by
  cases op with
  | submit sub phase => cases phase <;> rfl
  | latch k call waiter => cases call <;> rfl
  | work q i phase => cases phase <;> rfl
  | _ => rfl

theorem Progress.wake {h : List (Who × Entry)} {op : Op α} (progress : op.Progress h) :
    op.wake.Progress h := by
  cases op with
  | submit sub phase =>
      cases phase with
      | send call => cases call <;> exact progress
      | _ => exact progress
  | work q i phase => cases phase <;> exact trivial
  | _ => exact progress

theorem Plain.submits {op : Op α} (h : op.Plain) (p id : Nat) : op.submits p id = 0 := by
  unfold Op.submits
  split
  all_goals first | exact h.elim | rfl

theorem Free.submits {s : Store α} {op : Op α} (h : op.Free s) (p id : Nat) :
    op.submits p id = 0 := by
  rcases h with h | ⟨l, failed, rfl, -⟩
  · exact h.submits p id
  · rfl

theorem Settles.submits {op : Op α} (h : op.Settles) (p id : Nat) : op.submits p id = 0 := by
  cases h <;> rfl

theorem Submits.submits {op : Op α} {made : List (Op α)} {asker : Asker}
    (submits : op.Submits made asker) (p id : Nat) :
    op.submits p id = 0 ∧ (made.map (Op.submits p id)).sum = 0 := by
  cases submits <;> exact ⟨rfl, rfl⟩

theorem Lands.submits {payload : Payload} {old new : List (Op α)} {notes : List Entry}
    (lands : Op.Lands payload old new notes) (p id : Nat) :
    (new.map (Op.submits p id)).sum = (old.map (Op.submits p id)).sum := by
  cases lands <;> simp [Op.submits]

end Op

/-- A submission goes on with the same members as long as it gets rid of no item that has not been
pushed. -/
theorem Submission.Progress.goes {h h' : List (Who × Entry)} (hsub : h ⊆ h') {sub : Submission}
    {phase phase' : SubmissionPhase} (progress : sub.Progress h phase)
    (same : membersOf h' sub.pool sub.ticket.id = membersOf h sub.pool sub.ticket.id)
    (kept : ∀ item, phase.item? = some item →
      phase'.item? = some item ∨ Pushed h' sub.pool item.id)
    (alone : phase'.item? = none → phase.item? = none ∨
      ∀ id latch, sub.ticket = .job id latch → Pushed h' sub.pool id) :
    sub.Progress h' phase' := by
  unfold Progress at progress ⊢
  split
  · rename_i id latch hticket
    rw [hticket] at progress
    intro hnone
    rcases alone hnone with hnone | pushed
    · exact (progress hnone).mono hsub
    · exact pushed id latch hticket
  · rename_i bid size waitable latch hticket
    rw [hticket] at progress same
    obtain ⟨batch, issued, hmembers, hpushed⟩ := progress
    rw [show membersOf h' sub.pool bid = membersOf h sub.pool bid from same]
    refine ⟨batch, issued.mono hsub, hmembers, fun member hmember => ?_⟩
    rcases hpushed member hmember with pushed | ⟨item, hitem, hid⟩
    · exact .inl (pushed.mono hsub)
    · rcases kept item hitem with hitem | pushed
      · exact .inr ⟨item, hitem, hid⟩
      · exact .inl (hid ▸ pushed)

theorem Op.Progress.mono {h h' : List (Who × Entry)} (hsub : h ⊆ h') {op : Op α}
    (progress : op.Progress h)
    (same : ∀ p id, op.submits p id = 1 → membersOf h' p id = membersOf h p id) :
    op.Progress h' := by
  cases op with
  | submit sub phase =>
      have goes : sub.Progress h phase →
          membersOf h' sub.pool sub.ticket.id = membersOf h sub.pool sub.ticket.id →
          sub.Progress h' phase :=
        fun progress same => progress.goes hsub same (fun item hitem => .inl hitem) .inl
      cases phase with
      | refused => trivial
      | _ => exact goes progress (same _ _ (if_pos ⟨rfl, rfl⟩))
  | construct construction succeeded =>
      cases construction with
      | latch => trivial
      | submission p batch bid asker =>
          exact (same p bid (if_pos ⟨rfl, rfl⟩)).trans progress
  | _ => trivial

theorem Op.Progress.of_not_serves {h : List (Who × Entry)} {op : Op α} (idle : ¬op.Serves) :
    op.Progress h := by
  cases op with
  | submit sub phase =>
      cases phase with
      | refused => trivial
      | _ => exact absurd trivial idle
  | construct construction succeeded =>
      cases construction with
      | latch => trivial
      | submission => exact absurd trivial idle
  | _ => trivial

section Deeds

variable {around : Around} {s : Store α} {who : Who} {old : List (Op α)} {e : Effect α}

/-- A turn goes on with a submission, or begins one with the id that comes up. -/
theorem Deed.submits {op : Op α} (deed : Deed around s who op e) (p id : Nat) :
    (e.ops.map (Op.submits p id)).sum ≤ op.submits p id ∨
      ∃ pool pool', s.pools[p]? = some pool ∧ pool.nextId = id ∧
        e.store.pools[p]? = some pool' ∧ pool'.nextId = id + 1 ∧ op.submits p id = 0 ∧
        (e.ops.map (Op.submits p id)).sum ≤ 1 := by
  have hbegun : ∀ {place : Nat} {pool : Pool}, s.pools[place]? = some pool →
      e.store.pools = s.pools.set place { pool with nextId := pool.nextId + 1 } →
      op.submits p id = 0 →
      (e.ops.map (Op.submits p id)).sum = (if place = p ∧ pool.nextId = id then 1 else 0) →
      (e.ops.map (Op.submits p id)).sum ≤ op.submits p id ∨
        ∃ pool pool', s.pools[p]? = some pool ∧ pool.nextId = id ∧
          e.store.pools[p]? = some pool' ∧ pool'.nextId = id + 1 ∧ op.submits p id = 0 ∧
          (e.ops.map (Op.submits p id)).sum ≤ 1 := by
    intro place pool found hpools hop hops
    rw [hops]
    by_cases hit : place = p ∧ pool.nextId = id
    · obtain ⟨rfl, rfl⟩ := hit
      refine .inr ⟨pool, { pool with nextId := pool.nextId + 1 }, found, rfl, ?_, rfl, hop, by simp⟩
      rw [hpools, List.getElem?_set_self (List.getElem?_eq_some_iff.mp found).1]
    · simp [hit]
  cases deed with
  | commanded command eases leaves plain =>
      exact .inl (Nat.le_of_eq (sum_map_eq_zero fun op hop => (leaves.free op hop).submits p id))
  | acted origin position action rest later eases leaves plain =>
      refine .inl (Nat.le_of_eq ?_)
      rw [List.map_append, List.sum_append,
        sum_map_eq_zero fun op hop => (leaves.free op hop).submits p id]
      rfl
  | jobAdded submits place pool job found | freeJobAdded submits place pool job found =>
      obtain ⟨hop, hmade⟩ := submits.submits p id
      refine hbegun found (by rfl) hop ?_
      rw [List.map_append, List.sum_append, hmade]
      rfl
  | batchAdded command place pool batch ticket found
  | freeBatchAdded command place pool batch ticket found =>
      exact hbegun found (by rfl) rfl (by rfl)
  | emptyBatchAdded command place pool batch job ticket found finale empty =>
      refine hbegun found (by rfl) rfl ?_
      simp [Op.submits, Op.perform]
  | monitorTurned place call left | channelTurned place call left =>
      refine .inl (Nat.le_of_eq ?_)
      rcases left with rfl | ⟨call, rfl⟩ <;> rfl
  | counted | continued | left =>
      refine .inl (Nat.le_of_eq ?_)
      dsimp only
      split <;> rfl
  | poolReady place l stage pool q name succeeded found awake verdict present =>
      refine .inl (Nat.le_of_eq ?_)
      cases s.names.pools.find? name <;> rfl
  | accepted sub pool found through hands plain =>
      have hops := sum_map_eq_zero fun op hop => (hands.plain op hop).submits p id
      exact .inl (hops ▸ Nat.zero_le _)
  | refused sub pool found refuses plain =>
      exact .inl (Nat.le_of_eq (sum_map_eq_zero fun op hop => (refuses.plain op hop).submits p id))
  | refusing sub pool item found =>
      have hops := sum_map_eq_zero (f := Op.submits p id)
        (l := Op.discard sub.pool item ++ (sub.afterRefusal : List (Op α))) fun op hop =>
          ((List.mem_append.mp hop).elim (Op.discard_settles sub.pool item op)
            (sub.afterRefusal_settles op)).submits p id
      exact .inl (hops ▸ Nat.zero_le _)
  | jobRan place index pool item found | jobBroke place index pool item payload found =>
      refine .inl (Nat.le_of_eq ?_)
      rw [List.map_append, List.sum_append,
        sum_map_eq_zero fun op hop => (Op.complete_settles item.latch _ op hop).submits p id]
      rfl
  | abandoned place pool items found =>
      refine .inl (Nat.le_of_eq ?_)
      rw [List.map_append, List.sum_append,
        sum_map_eq_zero fun op hop => (Op.flatMap_discard_settles place items op hop).submits p id]
      rfl
  | _ => exact .inl (Nat.le_of_eq rfl)

/-- A turn gives an id to a member of a batch only if it is one of its submission. -/
theorem Deed.members {op : Op α} (deed : Deed around s who op e) (p bid : Nat) :
    e.notes.filterMap (Entry.member? p bid) = [] ∨
      ∃ (sub : Submission) (pool : Pool) (job : Job) (rest : List Job),
        op = .submit sub .next ∧ sub.rest = job :: rest ∧ sub.pool = p ∧ sub.ticket.id = bid ∧
        e.ops = [.submit { sub with rest }
          (.enlist { id := pool.nextId, job, latch := sub.ticket.latch })] ∧
        e.notes.filterMap (Entry.member? p bid) = [(pool.nextId, job)] := by
  rcases hmembers : e.notes.filterMap (Entry.member? p bid) with _ | ⟨member, members⟩
  · exact .inl rfl
  · have hmem : member ∈ e.notes.filterMap (Entry.member? p bid) := by simp [hmembers]
    obtain ⟨note, hnote, hmember⟩ := List.mem_filterMap.mp hmem
    rw [← hmembers]
    rcases deed.writes hnote with plain | writes
    · unfold Entry.member? at hmember
      split at hmember
      · exact plain.elim
      · cases hmember
    · cases writes with
      | issuedMember sub pool job rest found ahead =>
          cases deed with
          | accepted sub pool found through => rw [through] at ahead; cases ahead
          | memberAdded sub pool job rest found ahead =>
              by_cases hit : sub.pool = p ∧ sub.ticket.id = bid
              · exact .inr ⟨sub, pool, job, rest, rfl, ahead, hit.1, hit.2, rfl,
                  by simp [Entry.member?, hit]⟩
              · simp [Entry.member?, hit] at hmem
          | jobAdded submits | freeJobAdded submits => cases submits
      | _ => cases hmember

theorem Act.members (act : Act around s who old e) (p bid : Nat) :
    e.notes.filterMap (Entry.member? p bid) = [] ∨
      ∃ (sub : Submission) (pool : Pool) (job : Job) (rest : List Job),
        old = [.submit sub .next] ∧ sub.rest = job :: rest ∧ sub.pool = p ∧ sub.ticket.id = bid ∧
        e.ops = [.submit { sub with rest }
          (.enlist { id := pool.nextId, job, latch := sub.ticket.latch })] ∧
        e.notes.filterMap (Entry.member? p bid) = [(pool.nextId, job)] := by
  cases act with
  | deed deed quiet =>
      refine (deed.members p bid).imp_right ?_
      rintro ⟨sub, pool, job, rest, rfl, h⟩
      exact ⟨sub, pool, job, rest, rfl, h⟩
  | broke payload loose lands uncaught =>
      refine .inl (List.filterMap_eq_nil_iff.mpr fun note hnote => ?_)
      rcases lands.of_mem_notes hnote with ⟨_, _, rfl⟩ | rfl <;> rfl

end Deeds

namespace World

variable {w v : World α} {index : Nat} {t : Thread α} {old tail : List (Op α)} {e : Effect α}

/-- Every id is submitted by one operation at most, and by none before it comes up; all submissions
are as far as they say. -/
structure Enrolled (w : World α) : Prop where
  single : ∀ p id, w.load (fun _ => Op.submits p id) ≤ 1
  ahead : ∀ p id, w.Ahead p id →
    w.load (fun _ => Op.submits p id) = 0 ∧ membersOf w.history p id = []
  progress : ∀ t ∈ w.threads, ∀ op ∈ t.ops, op.Progress w.history

theorem Took.membersOf (took : w.Took v index t old tail e) (p bid : Nat) :
    membersOf v.history p bid =
      membersOf w.history p bid ++ e.notes.filterMap (Entry.member? p bid) :=
  took.noted fun (_, entry) => entry.member? p bid

/-- The members of a batch stay the same for whoever does not submit it. -/
theorem Took.membersOf_of_load (took : w.Took v index t old tail e) {p bid : Nat}
    (idle : (old.map (Op.submits p bid)).sum = 0) :
    WorkerPool.membersOf v.history p bid = WorkerPool.membersOf w.history p bid := by
  rw [took.membersOf]
  rcases took.act.members p bid with hnone | ⟨sub, pool, job, rest, rfl, -, rfl, rfl, -⟩
  · rw [hnone, List.append_nil]
  · simp [Op.submits] at idle

theorem Took.enrolled_single (took : w.Took v index t old tail e) (h : w.Enrolled) (p id : Nat) :
    v.load (fun _ => Op.submits p id) ≤ 1 ∧
      (v.Ahead p id → v.load (fun _ => Op.submits p id) = 0) := by
  obtain ⟨r, hbefore, hafter⟩ := took.load (fun _ => Op.submits p id) fun _ op =>
      op.submits_wake p id
  have hbirths : (e.births.map fun u => (u.ops.map (Op.submits p id)).sum).sum = 0 := by
    refine sum_map_eq_zero fun u hu => ?_
    obtain ⟨q, i, name, rfl, -⟩ := took.birth hu
    rfl
  rw [hbirths, Nat.add_zero] at hafter
  have hsingle := h.single p id
  have hahead := fun ahead => (h.ahead p id ahead).1
  rw [hbefore] at hsingle hahead
  rw [hafter]
  have hmore : (e.ops.map (Op.submits p id)).sum ≤ (old.map (Op.submits p id)).sum ∨
      ∃ pool pool', w.store.pools[p]? = some pool ∧ pool.nextId = id ∧
        e.store.pools[p]? = some pool' ∧ pool'.nextId = id + 1 ∧
        (e.ops.map (Op.submits p id)).sum ≤ 1 := by
    cases took.act with
    | deed deed quiet =>
        rw [List.map_singleton, List.sum_singleton]
        refine (deed.submits p id).imp_right ?_
        rintro ⟨pool, pool', found, hid, found', hid', -, hops⟩
        exact ⟨pool, pool', found, hid, found', hid', hops⟩
    | broke payload loose lands uncaught =>
        refine .inl ?_
        rw [lands.submits, List.map_append, List.sum_append]
        exact Nat.le_add_left _ _
  rcases hmore with hless | ⟨pool, pool', found, hid, found', hid', hops⟩
  · refine ⟨by omega, fun ahead => ?_⟩
    have := hahead (took.ahead ahead)
    omega
  · have hnone := hahead (hid ▸ ahead_nextId found)
    refine ⟨by omega, fun ahead => ?_⟩
    have := ahead pool' (took.store ▸ found')
    omega

/-- What a turn leaves of a submission is as far as it says. -/
theorem Took.enrolled_self (reachable : w.Reachable) (took : w.Took v index t old tail e)
    (h : w.Enrolled) : ∀ op ∈ e.ops, op.Progress v.history := by
  intro op' hop'
  have hsub := took.history_subset
  have ht := took.mem_threads
  have stack := took.leads reachable.orderly
  by_cases serves : op'.Serves
  swap
  · exact .of_not_serves serves
  have hfresh : ∀ {p : Nat} {pool : Pool}, w.store.pools[p]? = some pool →
      WorkerPool.membersOf w.history p pool.nextId = [] := fun found =>
    (h.ahead _ _ (ahead_nextId found)).2
  cases took.act with
  | @broke payload above _ _ _ loose lands uncaught =>
      rcases lands.of_serves hop' serves with ⟨p, i, item, rfl, -⟩ |
          ⟨p, batch, bid, asker, rfl, hop⟩
      · trivial
      · have hop := List.mem_append_right above hop
        have progress := h.progress t ht _ (took.mem_ops hop)
        show WorkerPool.membersOf v.history p bid = []
        rcases took.act.members p bid with hnone | ⟨sub, pool, job, rest, hsingle, -⟩
        · rw [took.membersOf, hnone, List.append_nil]
          exact progress
        · rw [hsingle] at hop
          cases List.mem_singleton.mp hop
  | @deed op _ deed quiet =>
      have progress := h.progress t ht op took.due_mem
      have hsame : ∀ p bid, (∀ sub, op ≠ .submit sub .next) →
          WorkerPool.membersOf v.history p bid = WorkerPool.membersOf w.history p bid := by
        intro p bid apart
        rcases deed.members p bid with hnone | ⟨sub, pool, job, rest, rfl, -⟩
        · rw [took.membersOf, hnone, List.append_nil]
        · exact absurd rfl (apart sub)
      have hnote : ∀ note ∈ e.notes, Recorded v.history note :=
        fun note hnote => took.recorded.mpr (.inl hnote)
      have fits := fun sub phase (heq : op = .submit sub phase) =>
        (show Op.Before t.who (.submit sub phase) ([] ++ tail) from heq ▸ stack.1.1).fits
      cases deed.follows hop' serves with
      | jobAdded submits p pool job latch found told => exact fun hnone => nomatch hnone
      | batchAdded command p pool batch asker latch found issued alone =>
          refine ⟨batch, hnote _ issued, ?_, ?_⟩
          · rw [hsame p pool.nextId (by simp), hfresh found]
            rfl
          · rw [hsame p pool.nextId (by simp), hfresh found]
            simp
      | finaleBegun command p pool batch asker found empty untold =>
          exact (hsame p pool.nextId (by simp)).trans (hfresh found)
      | finaleThrough p batch bid asker succeeded latch =>
          have issued := reachable.known.ops t ht _ took.due_mem
          refine ⟨batch, Recorded.mono hsub issued, ?_, ?_⟩
          · rw [hsame p bid (by simp), show WorkerPool.membersOf w.history p bid = [] from progress]
            rfl
          · rw [hsame p bid (by simp), show WorkerPool.membersOf w.history p bid = [] from progress]
            simp
      | memberAdded sub pool job rest found ahead issued =>
          have alone := (fits sub .next rfl).alone
          cases hticket : sub.ticket with
          | job id latch => simp [(alone id latch hticket).1] at ahead
          | batch bid size waitable latch =>
              have progress : sub.Progress w.history .next := progress
              simp only [Submission.Progress, hticket] at progress
              obtain ⟨batch, begun, hmembers, hpushed⟩ := progress
              have hmore : WorkerPool.membersOf v.history sub.pool bid =
                  WorkerPool.membersOf w.history sub.pool bid ++ [(pool.nextId, job)] := by
                rw [took.membersOf, issued]
                simp [Entry.member?, hticket, Ticket.id]
              simp only [Op.Progress, Submission.Progress]
              rw [hmore]
              refine ⟨batch, begun.mono hsub, by simp [← hmembers, ahead], ?_⟩
              intro member hmember
              rcases List.mem_append.mp hmember with hmember | hmember
              · rcases hpushed member hmember with pushed | ⟨item, hitem, -⟩
                · exact .inl (pushed.mono hsub)
                · cases hitem
              · obtain rfl := List.mem_singleton.mp hmember
                exact .inr ⟨_, rfl, rfl⟩
      | enlisted sub item | offered sub item =>
          exact progress.goes hsub (hsame _ _ (by simp)) (fun _ h => .inl h) (fun h => nomatch h)
      | givenBack sub call item had =>
          exact progress.goes hsub (hsame _ _ (by simp)) (fun _ h => .inl (had.symm.trans h))
            fun h => nomatch h
      | pushed sub item stage told =>
          have pushed : Pushed v.history sub.pool item.id := ⟨item, rfl, hnote _ told⟩
          have alone := (fits sub _ rfl).alone
          refine progress.goes hsub (hsame _ _ (by simp)) ?_ fun _ => .inr ?_
          · rintro _ ⟨⟩
            exact .inr pushed
          · intro id latch hticket
            exact (alone id latch hticket).2 item rfl ▸ pushed
      | sendSlept sub item stage pool found up full same =>
          exact progress.goes hsub (hsame _ _ (by simp)) (fun _ h => .inl h) (fun h => nomatch h)
      | sent sub =>
          exact progress.goes hsub (hsame _ _ (by simp)) (fun _ h => .inl h) .inl
      | _ => trivial

theorem Took.enrolled (reachable : w.Reachable) (took : w.Took v index t old tail e)
    (h : w.Enrolled) : v.Enrolled := by
  have hsub := took.history_subset
  refine ⟨fun p id => (took.enrolled_single h p id).1, fun p id ahead => ?_, ?_⟩
  · have before := h.ahead p id (took.ahead ahead)
    obtain ⟨r, hload, -⟩ := took.load (fun _ => Op.submits p id) fun _ op => op.submits_wake p id
    refine ⟨(took.enrolled_single h p id).2 ahead, ?_⟩
    rw [took.membersOf_of_load (by omega)]
    exact before.2
  · refine took.forall_ops_beside (P := fun _ op => op.Progress v.history)
      (fun who op progress => progress.wake) ?_ (took.enrolled_self reachable h) ?_
    · -- an operation that the turn leaves alone submits something else than the one that takes it
      intro u hu op hop beside
      refine (h.progress u hu op hop).mono hsub fun p id hsubmits => ?_
      have hboth := beside fun _ => Op.submits p id
      have hsingle := h.single p id
      exact took.membersOf_of_load (by omega)
    · exact fun p i name hold => trivial

theorem Reachable.enrolled {w : World α} (h : w.Reachable) : w.Enrolled := by
  refine h.induct (P := Enrolled) (fun cells => ?_) (fun w command _ ih => ?_)
    fun w v index t old tail e reachable took ih => took.enrolled reachable ih
  · exact ⟨fun p id => Nat.zero_le 1, fun p id _ => ⟨rfl, rfl⟩, by simp [World.start]⟩
  · refine ⟨fun p id => ?_, fun p id ahead => ?_, ?_⟩
    · rw [load_issue]
      exact ih.single p id
    · rw [load_issue]
      exact ih.ahead p id ahead
    · exact forall_ops_issue (P := fun _ op => op.Progress w.history) ih.progress trivial

/-! ### Accepted tickets -/

/-- An id is given to one thing. -/
theorem Reachable.issue_eq (h : w.Reachable) {p id : Nat} {issue issue' : Issue}
    (recorded : Recorded w.history (.issued p id issue))
    (recorded' : Recorded w.history (.issued p id issue')) : issue = issue' := by
  have given : issue ∈ w.issues p id := mem_issues.mpr recorded
  have given' : issue' ∈ w.issues p id := mem_issues.mpr recorded'
  have hone := (h.issues p id).1
  cases hissues : w.issues p id with
  | nil => exact absurd (hissues ▸ given) List.not_mem_nil
  | cons only rest =>
      rw [hissues, List.length_cons] at hone
      obtain rfl := List.eq_nil_of_length_eq_zero (Nat.le_zero.mp (Nat.le_of_succ_le_succ hone))
      have hleft := List.mem_singleton.mp (hissues ▸ given)
      have hright := List.mem_singleton.mp (hissues ▸ given')
      rw [hleft, hright]

/-- A ticket is one for what its id was given to. -/
theorem Reachable.fits (h : w.Reachable) {p : Nat} {ticket : Ticket} {issue : Issue}
    (ticketed : Recorded w.history (.ticketed p ticket))
    (issued : Recorded w.history (.issued p ticket.id issue)) : issue.Fits ticket := by
  obtain ⟨who, mem⟩ := ticketed
  obtain ⟨-, -, issue', issued', fits⟩ := h.known.entries who _ mem
  obtain rfl := h.issue_eq issued' issued
  exact fits

/-- An item carries the job that its id was given to. -/
theorem Reachable.job_of_known (h : w.Reachable) {p id : Nat} {issue : Issue} {job : Job}
    (issued : Recorded w.history (.issued p id issue)) (single : issue.job? = some job)
    {item : Item} (named : item.id = id) (known : item.Known w.history p) : item.job = job := by
  obtain ⟨ticket, -, part⟩ := known
  subst named
  cases part with
  | job _ issued' | member _ _ _ _ issued' =>
      obtain rfl := h.issue_eq issued issued'
      exact Option.some.inj single

/-- What has been accepted stays so. -/
theorem Took.accepted (reachable : w.Reachable) (took : w.Took v index t old tail e) {p : Nat}
    {ticket : Ticket} (accepted : Accepted w.history p ticket) : Accepted v.history p ticket := by
  have hsub := took.history_subset
  cases ticket with
  | job id latch => exact Pushed.mono hsub accepted
  | batch bid size waitable latch =>
      obtain ⟨batch, issued, hmembers, hpushed⟩ := accepted
      have hsame : WorkerPool.membersOf v.history p bid = WorkerPool.membersOf w.history p bid := by
        rcases took.act.members p bid with hnone | ⟨sub, pool, job, rest, rfl, ahead, rfl, rfl, -⟩
        · rw [took.membersOf, hnone, List.append_nil]
        · -- the submission would have to be through already
          have ht := took.mem_threads
          have hop : .submit sub .next ∈ t.ops := took.due_mem
          have progress : sub.Progress w.history .next := reachable.enrolled.progress t ht _ hop
          obtain ⟨above, rest', -, before⟩ := (reachable.orderly.ordered t ht).before hop
          cases hticket : sub.ticket with
          | job id latch => simp [(before.fits.alone id latch hticket).1] at ahead
          | batch bid size waitable latch =>
              rw [hticket] at issued hmembers
              simp only [Submission.Progress, hticket] at progress
              obtain ⟨batch', issued', hmembers', -⟩ := progress
              cases reachable.issue_eq issued issued'
              rw [ahead, ← hmembers] at hmembers'
              simp [Ticket.id] at hmembers'
      refine ⟨batch, issued.mono hsub, hsame ▸ hmembers, fun member hmember => ?_⟩
      exact (hpushed member (hsame ▸ hmember)).mono hsub

end World

/-- The ticket is one of the pool `p`, and all that it stands for has been accepted. -/
def Ticket.Honoured (h : List (Who × Entry)) (p : Nat) (ticket : Ticket) : Prop :=
  Recorded h (.ticketed p ticket) ∧ Accepted h p ticket

/-- The tickets that an operation holds are those of accepted submissions. -/
def Op.Assured (h : List (Who × Entry)) : Op α → Prop
  | .hand ticket _ => ∃ p, ticket.Honoured h p
  | .latch l (.wait _) (.ticket id) =>
    ∃ (p : Nat) (ticket : Ticket), ticket.Honoured h p ∧ ticket.awaited = .ok l ∧ ticket.id = id
  | _ => True

theorem Op.Assured.wake {h : List (Who × Entry)} {op : Op α} (assured : op.Assured h) :
    op.wake.Assured h := by
  cases op with
  | latch l call waiter =>
      cases call with
      | wait stage => cases waiter <;> exact assured
      | _ => exact assured
  | submit sub phase => cases phase <;> trivial
  | work p i phase => cases phase <;> trivial
  | _ => exact assured

theorem Op.Assured.imp {h h' : List (Who × Entry)}
    (honoured : ∀ p ticket, Ticket.Honoured h p ticket → Ticket.Honoured h' p ticket) {op : Op α}
    (assured : op.Assured h) : op.Assured h' := by
  unfold Op.Assured at assured ⊢
  split
  · exact assured.imp fun p hp => honoured p _ hp
  · obtain ⟨p, ticket, hp, hl, hid⟩ := assured
    exact ⟨p, ticket, honoured p ticket hp, hl, hid⟩
  · trivial

theorem Op.Settles.assured {op : Op α} (settles : op.Settles) (h : List (Who × Entry)) :
    op.Assured h := by
  cases settles <;> exact trivial

theorem Submission.Progress.accepted {h : List (Who × Entry)} {sub : Submission}
    (progress : sub.Progress h .next) (through : sub.rest = []) :
        Accepted h sub.pool sub.ticket := by
  unfold Progress at progress
  cases hticket : sub.ticket with
  | job id latch =>
      simp only [hticket] at progress
      exact progress rfl
  | batch bid size waitable latch =>
      simp only [hticket] at progress
      obtain ⟨batch, issued, hmembers, hpushed⟩ := progress
      rw [through, List.append_nil] at hmembers
      refine ⟨batch, issued, hmembers, fun member hmember => ?_⟩
      rcases hpushed member hmember with pushed | ⟨item, hitem, -⟩
      · exact pushed
      · cases hitem

theorem Command.Leaves.assured {s : Store α} {ops : List (Op α)} (leaves : Command.Leaves s ops)
    {h : List (Who × Entry)} (kept : ∀ ticket, s.Keeps ticket → ∃ p, ticket.Honoured h p) :
    ∀ op ∈ ops, op.Assured h := by
  cases leaves with
  | ticket ticket place hticket awaited =>
      obtain ⟨p, honoured⟩ := kept ticket hticket
      simp only [List.mem_singleton, forall_eq]
      exact ⟨p, ticket, honoured, awaited, rfl⟩
  | ticketVia ticket place pool hticket awaited named =>
      obtain ⟨p, honoured⟩ := kept ticket hticket
      simp only [List.mem_cons, List.not_mem_nil, or_false, forall_eq_or_imp, forall_eq]
      exact ⟨⟨p, ticket, honoured, awaited, rfl⟩, trivial⟩
  | _ => simp [Op.Assured, Op.perform]

/-- A ticket changes hands only once its submission has been accepted. -/
theorem Deed.assured {around : Around} {s : Store α} {who : Who} {e : Effect α} {op : Op α}
    (deed : Deed around s who op e) {h : List (Who × Entry)}
    (kept : ∀ ticket, s.Keeps ticket → ∃ p, ticket.Honoured h p)
    (honoured : ∀ sub, op = .submit sub .next → sub.rest = [] → sub.ticket.Honoured h sub.pool)
    (assured : op.Assured h) : ∀ op' ∈ e.ops, op'.Assured h := by
  cases deed with
  | commanded command eases leaves plain => exact leaves.assured kept
  | acted origin position action rest later eases leaves plain =>
      cases leaves <;> simp [Op.Assured, Op.perform]
  | jobAdded submits | freeJobAdded submits => cases submits <;> simp [Op.Assured]
  | monitorTurned place call left | channelTurned place call left =>
      rcases left with rfl | ⟨call, rfl⟩ <;> simp [Op.Assured]
  | counted | continued | left =>
      dsimp only
      split <;> simp [Op.Assured]
  | waitSlept place l stage waiter found awake up held =>
      simp only [List.mem_singleton, forall_eq]
      cases waiter <;> exact assured
  | poolReady place l stage pool q name succeeded found awake verdict present =>
      cases s.names.pools.find? name <;> simp [Op.Assured]
  | accepted sub pool found through hands plain =>
      have honoured := honoured sub rfl through
      cases hands with
      | early | late =>
          simp only [List.mem_cons, List.not_mem_nil, or_false, forall_eq_or_imp, forall_eq]
          first | exact ⟨⟨sub.pool, honoured⟩, trivial⟩ | exact ⟨trivial, sub.pool, honoured⟩
      | function => simp [Op.Assured]
  | refused sub pool found refuses plain => cases refuses <;> simp [Op.Assured]
  | refusing sub pool item found =>
      intro op' hop
      rcases List.mem_append.mp hop with hop | hop
      · exact (Op.discard_settles _ _ _ hop).assured h
      · exact (sub.afterRefusal_settles _ hop).assured h
  | jobRan place index pool item found | jobBroke place index pool item payload found =>
      intro op' hop
      rcases List.mem_append.mp hop with hop | hop
      · exact (Op.complete_settles _ _ _ hop).assured h
      · obtain rfl := List.mem_singleton.mp hop
        trivial
  | abandoned place pool items found =>
      intro op' hop
      rcases List.mem_append.mp hop with hop | hop
      · exact (Op.flatMap_discard_settles _ _ _ hop).assured h
      · obtain rfl := List.mem_singleton.mp hop
        trivial
  | _ => simp [Op.Assured, Op.perform]

namespace World

variable {w v : World α} {index : Nat} {t : Thread α} {old tail : List (Op α)} {e : Effect α}

/-- Whoever holds a ticket or keeps it under a name got it for an accepted submission. -/
structure Assured (w : World α) : Prop where
  kept : ∀ ticket, w.store.Keeps ticket → ∃ p, ticket.Honoured w.history p
  ops : ∀ t ∈ w.threads, ∀ op ∈ t.ops, op.Assured w.history

theorem Took.honoured (reachable : w.Reachable) (took : w.Took v index t old tail e) {p : Nat}
    {ticket : Ticket} (honoured : ticket.Honoured w.history p) : ticket.Honoured v.history p :=
  ⟨honoured.1.mono took.history_subset, took.accepted reachable honoured.2⟩

theorem Took.assured (reachable : w.Reachable) (took : w.Took v index t old tail e)
    (h : w.Assured) : v.Assured := by
  have hmono : ∀ (p : Nat) (ticket : Ticket), ticket.Honoured w.history p →
      ticket.Honoured v.history p := fun p ticket => took.honoured reachable
  have ht := took.mem_threads
  have hold : ∀ op ∈ old, op ∈ t.ops :=
    fun op hop => took.mem_ops hop
  have kept : ∀ ticket, w.store.Keeps ticket → ∃ p, ticket.Honoured v.history p :=
    fun ticket hticket => (h.kept ticket hticket).imp fun p => hmono p ticket
  constructor
  · intro ticket hticket
    rw [took.store] at hticket
    cases took.act with
    | broke payload loose lands uncaught => exact kept ticket hticket
    | deed deed quiet =>
        rcases deed.keeps hticket with hticket | ⟨name, rfl⟩
        · exact kept ticket hticket
        · obtain ⟨p, honoured⟩ := h.ops t ht _ (hold _ (List.mem_singleton_self _))
          exact ⟨p, hmono p ticket honoured⟩
  · refine took.forall_ops (P := fun _ op => op.Assured v.history) (fun who op assured => assured.wake)
      (fun u hu op hop => (h.ops u hu op hop).imp hmono) ?_ fun _ _ _ _ => trivial
    cases took.act with
    | @deed op _ deed quiet =>
        have hop := hold op (List.mem_singleton_self op)
        refine deed.assured kept ?_ ((h.ops t ht op hop).imp hmono)
        rintro sub rfl through
        have progress : sub.Progress w.history .next := reachable.enrolled.progress t ht _ hop
        have known := reachable.known.ops t ht _ hop
        exact hmono _ _ ⟨known.1, progress.accepted through⟩
    | broke payload loose lands uncaught =>
        cases lands <;> simp [Op.Assured]

theorem Reachable.assured {w : World α} (h : w.Reachable) : w.Assured := by
  refine h.induct (P := Assured) (fun cells => ?_) (fun w command _ ih => ?_)
    fun w v index t old tail e reachable took ih => took.assured reachable ih
  · exact ⟨fun ticket hticket => by simp [World.start, Store.Keeps, Table.find?] at hticket,
      by simp [World.start]⟩
  · exact ⟨ih.kept, forall_ops_issue (P := fun _ op => op.Assured w.history) ih.ops trivial⟩

end World

end WorkerPool
