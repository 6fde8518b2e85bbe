import WorkerPool.Proofs.Idle

/-! The members of a submission. What an id was given to has one ticket, as long as there is
anything in it to be performed, so the items that report to the latch of a ticket are the members
that were given ids on its account, and nothing else. A submission of which an item was refused is
over: no further member gets an id. -/

namespace WorkerPool

variable {α : Type}

namespace Ticket

/-- How many members there are in what the ticket stands for; a single job is its own member. -/
def size : Ticket → Nat
  | .job .. => 1
  | .batch _ size _ _ => size

/-- The ids that have been given to members so far, in order. -/
def members (h : List (Who × Entry)) (p : Nat) : Ticket → List Nat
  | .job id _ => [id]
  | .batch bid .. => (membersOf h p bid).map Prod.fst

end Ticket

theorem Entry.member?_eq_some {p bid id : Nat} {job : Job} {entry : Entry} :
    entry.member? p bid = some (id, job) ↔ entry = .issued p id (.member bid job) := by
  constructor
  · intro h
    unfold Entry.member? at h
    split at h
    · rename_i q i b given
      by_cases hit : q = p ∧ b = bid
      · rw [if_pos hit] at h
        cases h
        rw [hit.1, hit.2]
      · rw [if_neg hit] at h
        cases h
    · cases h
  · rintro rfl
    simp [Entry.member?]

theorem mem_membersOf_pair {h : List (Who × Entry)} {p bid id : Nat} {job : Job} :
    (id, job) ∈ membersOf h p bid ↔ Recorded h (.issued p id (.member bid job)) := by
  constructor
  · intro hmem
    obtain ⟨⟨who, entry⟩, hentry, heq⟩ := List.mem_filterMap.mp (List.mem_reverse.mp hmem)
    exact ⟨who, Entry.member?_eq_some.mp heq ▸ hentry⟩
  · rintro ⟨who, hentry⟩
    exact List.mem_reverse.mpr
      (List.mem_filterMap.mpr ⟨_, hentry, Entry.member?_eq_some.mpr rfl⟩)

theorem mem_membersOf {h : List (Who × Entry)} {p bid id : Nat} :
    id ∈ (membersOf h p bid).map Prod.fst ↔
      ∃ job, Recorded h (.issued p id (.member bid job)) := by
  rw [List.mem_map]
  constructor
  · rintro ⟨⟨id', job⟩, hmem, rfl⟩
    exact ⟨job, mem_membersOf_pair.mp hmem⟩
  · rintro ⟨job, issued⟩
    exact ⟨(id, job), mem_membersOf_pair.mpr issued, rfl⟩

theorem Item.Part.mem_members {h : List (Who × Entry)} {p : Nat} {ticket : Ticket} {item : Item}
    (part : item.Part h p ticket) : item.id ∈ ticket.members h p := by
  cases part with
  | job _ issued => exact List.mem_singleton_self _
  | member bid size waitable _ issued => exact mem_membersOf.mpr ⟨_, issued⟩

/-- A member has its id from an issue of this id. -/
theorem count_membersOf_le (h : List (Who × Entry)) (p bid id : Nat) :
    ((membersOf h p bid).map Prod.fst).count id ≤
      (h.filterMap fun (_, entry) => entry.issue? p id).length := by
  unfold membersOf
  rw [List.map_reverse, List.count_reverse]
  induction h with
  | nil => simp
  | cons entry h ih =>
      have hle : (h.filterMap fun (_, entry) => entry.issue? p id).length ≤
          ((entry :: h).filterMap fun (_, entry) => entry.issue? p id).length := by
        cases hissue : entry.2.issue? p id with
        | none => rw [List.filterMap_cons_none (by exact hissue)]
        | some => rw [List.filterMap_cons_some (by exact hissue)]; exact Nat.le_succ _
      cases hmember : entry.2.member? p bid with
      | none =>
          rw [List.filterMap_cons_none (by exact hmember)]
          exact Nat.le_trans ih hle
      | some member =>
          rw [List.filterMap_cons_some (by exact hmember), List.map_cons, List.count_cons]
          by_cases hid : member.1 = id
          · have hissue : entry.2.issue? p id = some (.member bid member.2) := by
              rw [Entry.member?_eq_some.mp hmember]
              exact if_pos ⟨rfl, hid⟩
            rw [List.filterMap_cons_some (by exact hissue), List.length_cons, hid, beq_self_eq_true,
              if_pos rfl]
            exact Nat.succ_le_succ ih
          · rw [if_neg (by simpa using hid), Nat.add_zero]
            exact Nat.le_trans ih hle

namespace World

variable {w v : World α} {index : Nat} {t : Thread α} {old tail : List (Op α)} {e : Effect α}

/-- What an id was given to that has members was given one ticket. -/
theorem Reachable.ticket_of_id (h : w.Reachable) {p : Nat} {ticket other : Ticket}
    (recorded : Recorded w.history (.ticketed p ticket))
    (recorded' : Recorded w.history (.ticketed p other)) (same : ticket.id = other.id)
    (some : 0 < ticket.size) : ticket = other := by
  -- a ticket that is made out now is the first one for its id, or stands for nothing
  have hnew : ∀ {w v : World α} {index : Nat} {t : Thread α} {old tail : List (Op α)}
      {e : Effect α}, w.Reachable → w.Took v index t old tail e → ∀ {ticket other : Ticket},
        .ticketed p ticket ∈ e.notes → Recorded w.history (.ticketed p other) →
          ticket.id = other.id → ticket.size = 0 ∧ other.size = 0 := by
    rintro w v index t old tail e reachable took ticket other hnote ⟨who, hmem⟩ same
    obtain ⟨-, -, issue, issued, fits⟩ := reachable.known.entries who _ hmem
    have htold : ∀ {issue : Issue}, .issued p ticket.id issue ∈ e.notes → False := by
      intro issue' hissue
      have hnil := took.issues_eq_nil (reachable.issues p ticket.id).2 hissue
      have given : issue ∈ w.issues p ticket.id := same ▸ mem_issues.mpr issued
      rw [hnil] at given
      cases given
    obtain ⟨op, rfl, writes, deed⟩ := took.act.written hnote not_false nofun
    cases writes with
    | ticketedJob submits _ pool job latch found told => exact (htold told).elim
    | ticketedBatch command _ pool batch latch found told => exact (htold told).elim
    | ticketedEmpty _ batch id asker succeeded fresh =>
        have ht := took.mem_threads
        have hop : .construct (.submission p batch id asker) succeeded ∈ t.ops := took.due_mem
        obtain ⟨above, rest, -, before⟩ := (reachable.orderly.ordered t ht).before hop
        have hzero : batch.size = 0 := by rw [Batch.size, before.finale.1, List.length_nil]
        have hissued : Recorded w.history (.issued p id (.batch batch)) :=
          reachable.known.ops t ht _ hop
        obtain rfl : id = other.id := same
        obtain rfl := reachable.issue_eq hissued issued
        cases other with
        | job => exact fits.elim
        | batch bid size waitable latch => exact ⟨hzero, fits.1.trans hzero⟩
  revert ticket other
  refine h.induct (P := fun w => ∀ {ticket other : Ticket},
    Recorded w.history (.ticketed p ticket) → Recorded w.history (.ticketed p other) →
      ticket.id = other.id → 0 < ticket.size → ticket = other)
    (fun cells => ?_) (fun w command _ ih => ih) ?_
  · rintro ticket other ⟨who, hmem⟩
    cases hmem
  · intro w v index t old tail e reachable took ih ticket other recorded recorded' same some
    rcases took.recorded.mp recorded with hnote | recorded
    · rcases took.recorded.mp recorded' with hnote' | recorded'
      · exact (took.act.tickets hnote hnote').2.1
      · have := (hnew reachable took hnote recorded' same).1
        omega
    · rcases took.recorded.mp recorded' with hnote' | recorded'
      · have := (hnew reachable took hnote' recorded same.symm).2
        omega
      · exact ih recorded recorded' same some

theorem Reachable.nodup_members (h : w.Reachable) (p : Nat) (ticket : Ticket) :
    (ticket.members w.history p).Nodup := by
  cases ticket with
  | job id latch => exact List.nodup_singleton id
  | batch bid size waitable latch =>
      exact List.nodup_iff_count_le_one.mpr fun id =>
        Nat.le_trans (count_membersOf_le w.history p bid id) (h.issues p id).1

section Tickets

variable {p l : Nat} {ticket : Ticket}

/-- The members of what a ticket stands for are the items with their ids. -/
theorem Reachable.part_iff (h : w.Reachable) (recorded : Recorded w.history (.ticketed p ticket))
    (some : 0 < ticket.size) {item : Item} (known : item.Known w.history p) :
    item.Part w.history p ticket ↔ item.id ∈ ticket.members w.history p := by
  constructor
  · exact fun part => part.mem_members
  · intro hmem
    obtain ⟨other, recorded', part⟩ := known
    have hsame : other.id = ticket.id → item.Part w.history p ticket := fun hid =>
      h.ticket_of_id recorded recorded' hid.symm some ▸ part
    cases ticket with
    | job id latch =>
        obtain rfl := List.mem_singleton.mp hmem
        cases part with
        | job _ issued => exact hsame rfl
        | member bid size waitable _ issued =>
            exact (h.fits recorded issued).elim
    | batch bid size waitable latch =>
        obtain ⟨job, issued'⟩ := mem_membersOf.mp hmem
        cases part with
        | job _ issued => cases h.issue_eq issued issued'
        | member bid' size' waitable' _ issued =>
            cases h.issue_eq issued issued'
            exact hsame rfl

/-- The items that report to the latch of a ticket are the members of what it stands for. -/
theorem Reachable.tells_iff (h : w.Reachable) (recorded : Recorded w.history (.ticketed p ticket))
    (hl : ticket.latch = some l) (some : 0 < ticket.size) {q : Nat} {item : Item}
    (known : item.Known w.history q) :
    item.latch = .some l ↔ q = p ∧ item.id ∈ ticket.members w.history p := by
  constructor
  · intro told
    obtain rfl := h.pool_of_told recorded hl known told
    refine ⟨rfl, (h.part_iff recorded some known).mp ?_⟩
    obtain ⟨other, recorded', part⟩ := known
    exact (h.ticket_eq recorded' recorded (part.latch ▸ told) hl).2 ▸ part
  · rintro ⟨rfl, hmem⟩
    exact ((h.part_iff recorded some known).mpr hmem).latch.trans hl

/-- A submission that goes on has given ids to the members that it has behind it or in hand. -/
theorem Reachable.size_eq (h : w.Reachable) (ht : t ∈ w.threads) {sub : Submission}
    {phase : SubmissionPhase} (hop : .submit sub phase ∈ t.ops) (goes : phase ≠ .refused) :
    (sub.ticket.members w.history sub.pool).length + sub.rest.length = sub.ticket.size := by
  obtain ⟨above, rest, -, before⟩ := (h.orderly.ordered t ht).before hop
  have progress : sub.Progress w.history phase := by
    have := h.enrolled.progress t ht _ hop
    cases phase <;> first | exact absurd rfl goes | exact this
  cases hticket : sub.ticket with
  | job id latch =>
      rw [(before.fits.alone id latch hticket).1]
      rfl
  | batch bid size waitable latch =>
      simp only [Submission.Progress, hticket] at progress
      obtain ⟨batch, issued, hmembers, -⟩ := progress
      have fits := h.fits (hticket ▸ (h.known.ops t ht _ hop).1) issued
      rw [Ticket.size, fits.1, Batch.size, ← hmembers]
      simp [Ticket.members]

/-- What an item is part of has one id. -/
theorem Reachable.part_id (h : w.Reachable) {other : Ticket} {item : Item}
    (part : item.Part w.history p ticket) (part' : item.Part w.history p other) :
    ticket.id = other.id := by
  cases part with
  | job _ issued =>
      cases part' with
      | job => rfl
      | member _ _ _ _ issued' => cases h.issue_eq issued issued'
  | member bid size waitable _ issued =>
      cases part' with
      | job _ issued' => cases h.issue_eq issued issued'
      | member bid' size' waitable' _ issued' =>
          cases h.issue_eq issued issued'
          rfl

theorem Took.over (reachable : w.Reachable) (took : w.Took v index t old tail e)
    (recorded : Recorded w.history (.ticketed p ticket))
    (done : w.load (fun _ => Op.submits p ticket.id) = 0) :
    v.load (fun _ => Op.submits p ticket.id) = 0 := by
  obtain ⟨r, hbefore, hafter⟩ := took.load_of_start (fun _ => Op.submits p ticket.id)
    (fun _ op => op.submits_wake p ticket.id) fun _ _ _ => rfl
  cases took.act with
  | deed deed quiet =>
      rw [List.map_singleton, List.sum_singleton] at hbefore
      rcases deed.submits p ticket.id with hless | ⟨pool, pool', found, hid, -⟩
      · omega
      · -- the next id has not been given out yet
        have ahead : w.Ahead p ticket.id := hid ▸ ahead_nextId found
        obtain ⟨who, hmem⟩ := recorded
        obtain ⟨-, -, issue, issued, -⟩ := reachable.known.entries who _ hmem
        have given : issue ∈ w.issues p ticket.id := mem_issues.mpr issued
        rw [(reachable.issues p ticket.id).2 ahead] at given
        cases given
  | broke payload loose lands uncaught =>
      rw [List.map_append, List.sum_append] at hbefore
      rw [lands.submits] at hafter
      omega

/-- A submission of which an item was refused is over. -/
theorem Reachable.over_of_refused (h : w.Reachable) {item : Item}
    (refused : Recorded w.history (.refused p item)) (part : item.Part w.history p ticket) :
    w.load (fun _ => Op.submits p ticket.id) = 0 := by
  suffices hall : w.Reachable → ∀ item : Item, Recorded w.history (.refused p item) →
      ∃ ticket, Recorded w.history (.ticketed p ticket) ∧ item.Part w.history p ticket ∧
        w.load (fun _ => Op.submits p ticket.id) = 0 by
    obtain ⟨other, -, part', done⟩ := hall h item refused
    rw [h.part_id part part']
    exact done
  refine h.induct (P := fun w => w.Reachable → ∀ item : Item, Recorded w.history (.refused p item) →
    ∃ ticket, Recorded w.history (.ticketed p ticket) ∧ item.Part w.history p ticket ∧
      w.load (fun _ => Op.submits p ticket.id) = 0) ?_ (fun w command reachable ih _ => ?_) ?_
  · rintro cells - item ⟨who, hmem⟩
    cases hmem
  · intro item refused
    obtain ⟨ticket, recorded, part, done⟩ := ih reachable item refused
    exact ⟨ticket, recorded, part, (load_issue _ w command).trans done⟩
  · intro w v index t old tail e reachable took ih _ item refused
    rcases took.recorded.mp refused with hnote | refused
    · obtain ⟨op, rfl, writes, deed⟩ := took.act.written hnote not_false nofun
      cases writes with
      | refused sub _ =>
          -- the submission that is refused is the only one with its id
          have ht := took.mem_threads
          have hop : .submit sub (.refuse item) ∈ t.ops := took.due_mem
          have known := reachable.known.ops t ht _ hop
          refine ⟨sub.ticket, known.1.mono took.history_subset,
            (known.2 item rfl).mono took.history_subset, ?_⟩
          obtain ⟨r, hbefore, hafter⟩ := took.load (fun _ => Op.submits sub.pool sub.ticket.id)
            fun _ op => op.submits_wake sub.pool sub.ticket.id
          have hone : Op.submits sub.pool sub.ticket.id (.submit sub (.refuse item) : Op α) = 1 :=
            if_pos ⟨rfl, rfl⟩
          have hsingle := reachable.enrolled.single sub.pool sub.ticket.id
          rw [List.map_singleton, List.sum_singleton, hone] at hbefore
          cases deed with
          | jobAdded submits | freeJobAdded submits => cases submits
          | refusing _ pool _ found =>
              have hsettled := sum_map_eq_zero (f := Op.submits sub.pool sub.ticket.id)
                (l := Op.discard sub.pool item ++ (sub.afterRefusal : List (Op α))) fun op hop =>
                  ((List.mem_append.mp hop).elim (Op.discard_settles sub.pool item op)
                    (sub.afterRefusal_settles op)).submits sub.pool sub.ticket.id
              rw [hsettled, List.map_nil, List.sum_nil] at hafter
              omega
    · obtain ⟨ticket, recorded, part, done⟩ := ih reachable item refused
      have hsub := took.history_subset
      exact ⟨ticket, recorded.mono hsub, part.mono hsub, took.over reachable recorded done⟩

/-- The members of what a ticket stands for stay the same once nobody submits it any more. -/
theorem Took.members (took : w.Took v index t old tail e)
    (done : w.load (fun _ => Op.submits p ticket.id) = 0) :
    ticket.members v.history p = ticket.members w.history p := by
  cases ticket with
  | job id latch => rfl
  | batch bid size waitable latch =>
      obtain ⟨r, hbefore, -⟩ := took.load (fun _ => Op.submits p bid) fun _ op =>
        op.submits_wake p bid
      have done : w.load (fun _ => Op.submits p bid) = 0 := done
      rw [Ticket.members, Ticket.members, took.membersOf_of_load (by omega)]

end Tickets

end World

end WorkerPool
