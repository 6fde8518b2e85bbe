import WorkerPool.Proofs.Settled

/-! Batches that are refused. The member that is not accepted and those behind it are counted as
failures, and a batch that has a latch waits on it for the members that were accepted before. The
latch is at zero when this wait is over, so no member is being performed any more when the asker is
told of the refusal; and as a failure has been counted, the finale has been dropped. A batch without
a latch has nothing to wait on, and is refused while the members before may still be performed. -/

namespace WorkerPool

variable {α : Type}

/-- An item of the submission has been refused, and with it the members behind it. -/
structure Submission.Rejected (h : List (Who × Entry)) (sub : Submission) : Prop where
  item : ∃ item : Item, Recorded h (.refused sub.pool item) ∧ item.Part h sub.pool sub.ticket
  size : (sub.ticket.members h sub.pool).length ≤ sub.ticket.size

/-- What is known of a submission that has been refused: the batch that has a latch has waited for
it when the asker is told. -/
def Op.Rejects (h : List (Who × Entry)) (s : Store α) : Op α → Prop
  | .submit sub .refused =>
    sub.Rejected h ∧ ∀ bid size waitable l, sub.ticket = .batch bid size waitable (some l) →
      ∃ latch, s.latches[l]? = some latch ∧ latch.value.remaining = 0
  | .latch _ (.wait _) (.refused sub) => sub.Rejected h
  | _ => True

/-- What waits for the members of a refused batch or is about to tell of the refusal. -/
inductive Op.IsRejection : Op α → Prop
  | refused (sub : Submission) : IsRejection (.submit sub .refused)
  | wait (l : Nat) (stage : Stage) (sub : Submission) :
      IsRejection (.latch l (.wait stage) (.refused sub))

theorem Op.Rejects.of_not {op : Op α} (other : ¬op.IsRejection) (h : List (Who × Entry))
    (s : Store α) : op.Rejects h s := by
  unfold Rejects
  split
  · exact absurd (.refused _) other
  · exact absurd (.wait _ _ _) other
  · trivial

theorem Op.Rejects.wake {h : List (Who × Entry)} {s : Store α} {op : Op α}
    (rejects : op.Rejects h s) :
    op.wake.Rejects h s := by
  cases op with
  | latch l call waiter => cases call <;> first | trivial | (cases waiter <;> trivial)
  | submit sub phase => cases phase <;> trivial
  | work p i phase => cases phase <;> trivial
  | _ => exact rejects

section Deeds

variable {around : Around} {s : Store α} {who : Who} {e : Effect α}

/-- A rejection comes from an item that was not accepted, or it is a wait that goes on or is over.
-/
inductive Op.Refuses (s : Store α) : Op α → Op α → Prop
  | bare (sub : Submission) (item : Item)
      (unlatched : ∀ bid size waitable l, sub.ticket ≠ .batch bid size waitable (some l)) :
      Refuses s (.submit sub (.refuse item)) (.submit sub .refused)
  | latched (sub : Submission) (item : Item) (l : Nat) :
      Refuses s (.submit sub (.refuse item)) (.latch l (.wait .arriving) (.refused sub))
  | slept (l : Nat) (stage : Stage) (sub : Submission) :
      Refuses s (.latch l (.wait stage) (.refused sub)) (.latch l (.wait .asleep) (.refused sub))
  | waited (l : Nat) (stage : Stage) (sub : Submission) (latch : Latch) (succeeded : Bool)
      (found : s.latches[l]? = some latch) (verdict : latch.Judges succeeded) :
      Refuses s (.latch l (.wait stage) (.refused sub)) (.submit sub .refused)

theorem Deed.refuses {op : Op α} (deed : Deed around s who op e) {op' : Op α} (h : op' ∈ e.ops)
    (rejection : op'.IsRejection) : op.Refuses s op' := by
  cases deed with
  | refusing sub pool item found =>
      rcases List.mem_append.mp h with h | h
      · cases rejection <;> simp [Op.discard, Op.complete] at h
      · unfold Submission.afterRefusal at h
        split at h
        · rcases List.mem_append.mp h with h | h
          · cases rejection <;> simp at h
          · obtain rfl := List.mem_singleton.mp h
            exact .latched sub item _
        · rename_i unlatched
          obtain rfl := List.mem_singleton.mp h
          exact .bare sub item unlatched
  | refusedWaited l latch stage sub succeeded found awake verdict =>
      obtain rfl := List.mem_singleton.mp h
      exact .waited l stage sub latch succeeded found verdict
  | waitSlept l latch stage waiter found awake up held =>
      obtain rfl := List.mem_singleton.mp h
      cases rejection
      exact .slept l stage _
  | commanded command eases leaves plain =>
      cases leaves <;> cases rejection <;> simp [Op.perform] at h
  | acted origin position action rest later eases leaves plain =>
      cases leaves <;> cases rejection <;> simp [Op.perform] at h
  | jobAdded submits | freeJobAdded submits => cases submits <;> cases rejection <;> simp at h
  | accepted sub pool found through hands plain => cases hands <;> cases rejection <;> simp at h
  | refused sub pool found refuses plain => cases refuses <;> cases rejection <;> simp at h
  | monitorTurned place call left | channelTurned place call left =>
      rcases left with rfl | ⟨call, rfl⟩ <;> cases rejection <;> simp at h
  | counted | continued | left =>
      dsimp only at h
      split at h <;> cases rejection <;> simp at h
  | abandoned place pool items found =>
      cases rejection <;> simp [Op.discard, Op.complete] at h
  | jobRan | jobBroke => cases rejection <;> simp [Op.complete] at h
  | poolReady => cases rejection <;> simp at h
  | _ => cases rejection <;> simp [Op.perform] at h

theorem Op.Lands.not_rejection {payload : Payload} {old new : List (Op α)} {notes : List Entry}
    (lands : Op.Lands payload old new notes) : ∀ op ∈ new, ¬op.IsRejection := by
  intro op hop rejection
  cases lands <;> cases rejection <;> simp at hop

end Deeds

namespace World

variable {w v : World α} {index : Nat} {t : Thread α} {old tail : List (Op α)} {e : Effect α}

theorem Took.rejected (reachable : w.Reachable) (took : w.Took v index t old tail e)
    {sub : Submission} (rejected : sub.Rejected w.history) : sub.Rejected v.history := by
  obtain ⟨⟨item, refused, part⟩, size⟩ := rejected
  refine ⟨⟨item, refused.mono took.history_subset, part.mono took.history_subset⟩, ?_⟩
  rw [took.members (reachable.over_of_refused refused part)]
  exact size

theorem Took.zero (took : w.Took v index t old tail e) {l : Nat}
    (zero : ∃ latch, w.store.latches[l]? = some latch ∧ latch.value.remaining = 0) :
    ∃ latch, v.store.latches[l]? = some latch ∧ latch.value.remaining = 0 := by
  obtain ⟨latch, found, zero⟩ := zero
  obtain ⟨latch', found', grows⟩ := took.act.latches.grows found
  exact ⟨latch', took.store ▸ found', Nat.le_zero.mp (zero ▸ grows.remaining)⟩

theorem Took.rejects_self (reachable : w.Reachable) (took : w.Took v index t old tail e)
    (h : ∀ t ∈ w.threads, ∀ op ∈ t.ops, op.Rejects w.history w.store) :
    ∀ op ∈ e.ops, op.Rejects v.history v.store := by
  intro op hop
  by_cases other : ¬op.IsRejection
  · exact .of_not other _ _
  rw [not_not] at other
  have ht := took.mem_threads
  cases took.act with
  | broke payload loose lands uncaught => exact absurd other (lands.not_rejection op hop)
  | @deed op' _ deed quiet =>
      have hop' : op' ∈ t.ops := took.due_mem
      have self := h t ht op' hop'
      have begun : ∀ sub item, op' = .submit sub (.refuse item) → sub.Rejected v.history := by
        rintro sub item rfl
        have part := (reachable.known.ops t ht _ hop').2 item rfl
        have size := reachable.size_eq ht hop' nofun
        cases deed with
        | jobAdded submits | freeJobAdded submits => cases submits
        | refusing _ pool _ found =>
            have hmembers : sub.ticket.members v.history sub.pool =
                sub.ticket.members w.history sub.pool := by
              cases sub.ticket with
              | job => rfl
              | batch =>
                  rw [Ticket.members, Ticket.members, took.membersOf]
                  simp [Entry.member?]
            refine ⟨⟨item, took.recorded.mpr (.inl List.mem_cons_self),
              part.mono took.history_subset⟩, ?_⟩
            rw [hmembers]
            omega
      cases deed.refuses hop other with
      | bare sub item unlatched =>
          exact ⟨begun sub item rfl, fun bid size waitable l hticket =>
            absurd hticket (unlatched bid size waitable l)⟩
      | latched sub item l => exact begun sub item rfl
      | slept l stage sub => exact took.rejected reachable self
      | waited l stage sub latch succeeded found verdict =>
          refine ⟨took.rejected reachable self, fun bid size waitable k hticket => ?_⟩
          obtain ⟨above, rest, -, before⟩ := (reachable.orderly.ordered t ht).before hop'
          have told : sub.ticket.latch = some l := by
            cases before with
            | waitRefused _ _ _ told fits after => exact told
          obtain rfl : l = k := by simpa [hticket, Ticket.latch] using told.symm
          have recorded : Recorded w.history (.ticketed sub.pool sub.ticket) :=
            (reachable.known.ops t ht _ hop').2
          have up := (reachable.tallied.tallied _ _ _ _ recorded told found).up
          rcases verdict with ⟨zero, -⟩ | ⟨down, -⟩
          · exact took.zero ⟨latch, found, zero⟩
          · rw [up] at down
            cases down

/-- Whatever tells of a refusal tells of one that was, and not before its time. -/
theorem Reachable.rejects (h : w.Reachable) :
    ∀ t ∈ w.threads, ∀ op ∈ t.ops, op.Rejects w.history w.store := by
  refine h.induct (P := fun w => ∀ t ∈ w.threads, ∀ op ∈ t.ops, op.Rejects w.history w.store)
    (fun cells t ht => nomatch ht) (fun w command _ ih => ?_)
    fun w v index t old tail e reachable took ih => ?_
  · exact forall_ops_issue (P := fun _ op => op.Rejects w.history w.store) ih trivial
  · refine took.forall_ops (P := fun _ op => op.Rejects v.history v.store)
      (fun _ op rejects => rejects.wake) (fun u hu op hop => ?_) (took.rejects_self reachable ih)
      fun _ _ _ _ => trivial
    have before := ih u hu op hop
    unfold Op.Rejects at before ⊢
    split at before
    · exact ⟨took.rejected reachable before.1, fun bid size waitable l hticket =>
        took.zero (before.2 bid size waitable l hticket)⟩
    · exact took.rejected reachable before
    · trivial

theorem Later.rejected (later : w.Later v) (h : w.Reachable) {sub : Submission}
    (rejected : sub.Rejected w.history) : sub.Rejected v.history :=
  later.keeps h (P := fun v => sub.Rejected v.history) rejected (fun _ _ _ rejected => rejected)
    fun _ _ _ _ _ _ _ hu _ took rejected => took.rejected hu rejected

/-- Once the latch of a refused batch is at zero, all its members have come to their ends, and its
finale has been dropped. -/
theorem Reachable.rest_of_rejected (h : w.Reachable) {sub : Submission}
    {bid size l : Nat} {waitable : Bool} (rejected : sub.Rejected w.history)
    (recorded : Recorded w.history (.ticketed sub.pool sub.ticket))
    (hticket : sub.ticket = .batch bid size waitable (some l)) {latch : Latch}
    (found : w.store.latches[l]? = some latch) (zero : latch.value.remaining = 0) :
    (∀ id ∈ sub.ticket.members w.history sub.pool,
      w.Completed sub.pool id ∨ w.Lost sub.pool id) ∧ w.Untouched (.latch l) := by
  obtain ⟨⟨item, refused, part⟩, hsize⟩ := rejected
  have hl : sub.ticket.latch = some l := by rw [hticket, Ticket.latch]
  have hmem : item.id ∈ sub.ticket.members w.history sub.pool := part.mem_members
  have whole : (sub.ticket.members w.history sub.pool).length + w.skipped sub.pool sub.ticket =
      sub.ticket.size := by
    rw [World.skipped, if_pos ⟨item, refused, hmem⟩]
    omega
  obtain ⟨ended, failures⟩ := h.ended_of_zero recorded hl found zero whole
  have counted : 0 < w.counts l true :=
    failures.mpr (.inr ⟨item.id, hmem, .inr ⟨item, rfl, .inr refused⟩⟩)
  refine ⟨ended, ?_⟩
  obtain ⟨who, hrecorded⟩ := recorded
  obtain ⟨-, -, issue, issued, -⟩ := h.known.entries who _ hrecorded
  obtain ⟨spent, idle⟩ := (h.tallied.composed l latch found).of_zero zero
  have finale := h.finale ⟨who, hrecorded⟩ hl issued found
  generalize issue.finale? = finale? at finale
  cases finale with
  | absent _ _ _ untouched => exact untouched
  | awaited _ kept => simp [spent] at kept
  | skipped _ _ mine _ _ _ _ untouched => exact mine ▸ untouched
  | running _ _ _ finishing => simp [idle] at finishing
  | finished _ _ _ _ _ _ _ sound => omega

/-- A batch that somebody may wait for or that has a finale leaves nothing behind when it is
refused. When the asker is told, each of its members has been performed to its end or has been
dropped; nobody performs one of them any more, and nobody ever will, no further member is ever sent,
and the finale has not been begun and never will be. -/
theorem Reachable.rejected_rests (h : w.Reachable) {rest : List (Op α)} {sub : Submission}
    {batch : Batch} (got : w.threads[index]? = some t) (ops : t.ops = .submit sub .refused :: rest)
    (issued : Recorded w.history (.issued sub.pool sub.ticket.id (.batch batch)))
    (counted : batch.waitable = true ∨ batch.finale.isSome = true) {pick : Nat}
    (turn : w.turn index pick = some v) :
    (∃ t', v.threads[index]? = some t' ∧ t'.ops = (sub.refuse w.store).ops ++ rest) ∧
      ∃ l, sub.ticket.latch = some l ∧ ∀ u, v.Later u →
        sub.ticket.members u.history sub.pool = sub.ticket.members w.history sub.pool ∧
        (∀ id ∈ sub.ticket.members w.history sub.pool,
          (u.Completed sub.pool id ∨ u.Lost sub.pool id) ∧ u.parts (.item sub.pool id) = 0 ∧
            u.calls (.item sub.pool id) = w.calls (.item sub.pool id)) ∧
        u.Untouched (.latch l) := by
  have ht := List.mem_of_getElem? got
  have hop : .submit sub .refused ∈ t.ops := ops ▸ List.mem_cons_self
  have recorded := (h.known.ops t ht _ hop).1
  obtain ⟨bid, size, waitable, l, hticket⟩ :
      ∃ bid size waitable l, sub.ticket = .batch bid size waitable (some l) := by
    have fits := h.fits recorded issued
    cases hticket : sub.ticket with
    | job id latch =>
        rw [hticket] at fits
        exact fits.elim
    | batch bid size waitable latch =>
        rw [hticket] at fits
        obtain ⟨l, rfl⟩ := Option.isSome_iff_exists.mp
          (fits.2.2.trans (by rw [Bool.or_eq_true]; exact counted.symm))
        exact ⟨bid, size, waitable, l, rfl⟩
  obtain ⟨rejected, waited⟩ := h.rejects t ht _ hop
  obtain ⟨latch, found, zero⟩ := waited bid size waitable l hticket
  refine ⟨?_, l, by rw [hticket, Ticket.latch], ?_⟩
  · obtain ⟨e, heffect, rfl⟩ := apply_of_turn got ops turn
    obtain ⟨pool, -, heffect⟩ := Option.bind_eq_some_iff.mp heffect
    obtain rfl : sub.refuse w.store = e := Option.some.inj heffect
    have hlt := (List.getElem?_eq_some_iff.mp got).1
    cases hasker : sub.asker <;>
      simp [apply, continued, Submission.refuse, hasker, rouse, hlt]
  · intro u later
    have later : w.Later u := .head (.turn index pick turn) later
    obtain ⟨latch', found', grows⟩ := later.latch h found
    have zero' : latch'.value.remaining = 0 := Nat.le_zero.mp (zero ▸ grows.remaining)
    obtain ⟨item, refused, part⟩ := rejected.item
    have members := later.members h recorded (h.over_of_refused refused part)
    have before := h.rest_of_rejected rejected recorded hticket found zero
    obtain ⟨ended, untouched⟩ := (h.later later).rest_of_rejected (later.rejected h rejected)
      (recorded.mono (later.history_subset h)) hticket found' zero'
    refine ⟨members, fun id hid => ⟨ended id (members ▸ hid), ?_⟩, untouched⟩
    rcases before.1 id hid with completed | lost
    · exact h.past_of_completed completed u later
    · exact h.past_of_lost lost u later

/-- The gate that holds up the first member of a batch is opened after the third one was refused;
the submission has just found that it need not wait any longer. -/
def releasedBatch : World Unit :=
  (cutBatch.issue (.openGate "g")).settle 12 9

theorem rejected_rests_of_releasedBatch :
    ∃ (t : Thread Unit) (sub : Submission) (v : World Unit),
      releasedBatch.threads[7]? = some t ∧ t.ops = [.submit sub .refused] ∧
      releasedBatch.turn 7 0 = some v ∧
      sub.ticket.members releasedBatch.history 0 = [2, 3, 4] ∧
      ∀ u, v.Later u → u.Untouched (.latch 1) ∧ ∀ id ∈ [2, 3, 4], u.parts (.item 0 id) = 0 := by
  have reachable : releasedBatch.Reachable :=
    reachable_settle (.next (reachable_follow 40 _ (.start [])) (.issue _ _)) 12 9
  obtain ⟨v, turn⟩ := Option.isSome_iff_exists.mp
    (show (releasedBatch.turn 7 0).isSome = true from rfl)
  have issued : (releasedBatch.history.map (·.2))[22]? = some (.issued 0 1 (.batch _)) := rfl
  obtain ⟨⟨who, entry⟩, hmem, rfl⟩ := List.mem_map.mp (List.mem_of_getElem? issued)
  obtain ⟨-, l, hl, rests⟩ := reachable.rejected_rests rfl rfl ⟨who, hmem⟩ (.inl rfl) turn
  obtain rfl : 1 = l := Option.some.inj hl
  refine ⟨_, _, v, rfl, rfl, turn, rfl, fun u later => ?_⟩
  obtain ⟨-, ended, untouched⟩ := rests u later
  exact ⟨untouched, fun id hid => (ended id hid).2.1⟩

/-- A pool is shut down while its only worker is held up by the first member of a batch that nobody
may wait for; the second one is in the ring, and the third one is being sent. -/
def freeBatch : World Unit :=
  follow 40 [
    .newPool "p" (.given { capacity := 1, threads := some 1, name := "p" }),
    .newBatch "b" 3 false,
    .onBatch "b" (.add (.link [.passGate "g"] true)),
    .onBatch "b" (.add (.link [] true)),
    .onBatch "b" (.add (.link [] true)),
    .onPool "p" (.submitBatch "b" none),
    .onPool "p" .shutDown] (.start [])

/-- The asker has been told that its batch was refused while a function of the first member is still
being performed. -/
theorem freeBatch_refused_early :
    (∃ t ∈ freeBatch.threads, t.who = .step 5 ∧ t.ended = true ∧
      t.answer = some (.error .poolTerminated)) ∧
    2 ∈ (Ticket.batch 1 3 false none).members freeBatch.history 0 ∧
    .code (.worker 0 0) 1 true [] ∈ freeBatch.parts (.item 0 2) := by
  refine ⟨⟨_, List.mem_of_getElem? (i := 6) rfl, rfl, rfl, rfl⟩, ?_, ?_⟩
  · decide
  · refine mem_load.mpr ⟨_, List.mem_of_getElem? (i := 1) rfl, _, List.mem_cons_self, ?_⟩
    exact List.mem_singleton_self _

end World

end WorkerPool
