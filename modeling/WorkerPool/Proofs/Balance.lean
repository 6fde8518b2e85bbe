import WorkerPool.Proofs.Members

/-! How counts and ends balance. On the latch of a ticket one count is made for each member of the
submission, and no other. A worker that has performed a member makes it, with what the performance
came to, whoever discards or refuses a member counts a failure for it, and so does a refused
submission for each member behind the refused one. The laws hold at every moment, for counts that
have been made together with those that somebody is about to make: the successes are as many as the
members that were performed to their end, and the failures as many as those that came to no good
end. So the latch expects as many completions as there are members that nobody has counted yet. -/

namespace WorkerPool

variable {α : Type}

/-! ### The counts of a turn -/

namespace Op

/-- How many counts of a kind on the latch `l` an operation is going to make for members whose end
is known. -/
def owes (l : Nat) (failed : Bool) : Op α → Nat
  | .latch k (.count verdict) _ => if k = l ∧ verdict = failed then 1 else 0
  | .shutDown _ (.call (.announce (.drained items))) =>
    if failed then items.countP (Item.tells l) else 0
  | _ => 0

/-- How many items with ids in `ids` an operation has seen performed and not told of yet. -/
def ended (p : Nat) (ids : List Nat) (failed : Bool) : Op α → Nat
  | .work q _ (.finish item true) => if failed = false ∧ q = p then ids.count item.id else 0
  | _ => 0

/-- How many members behind it are given up with an item that is refused. -/
def skips (l : Nat) (failed : Bool) : Op α → Nat
  | .submit sub (.refuse _) =>
    if failed ∧ sub.ticket.latch = some l then sub.rest.length else 0
  | _ => 0

theorem owes_wake (l : Nat) (failed : Bool) (op : Op α) :
    op.wake.owes l failed = op.owes l failed := by
  cases op with
  | latch k call waiter => cases call <;> rfl
  | work q i phase => cases phase <;> rfl
  | submit sub phase => cases phase <;> rfl
  | _ => rfl

theorem ended_wake (p : Nat) (ids : List Nat) (failed : Bool) (op : Op α) :
    op.wake.ended p ids failed = op.ended p ids failed := by
  cases op with
  | work q i phase => cases phase <;> rfl
  | submit sub phase => cases phase <;> rfl
  | _ => rfl

theorem owes_le_stakes (l : Nat) (failed : Bool) (op : Op α) : op.owes l failed ≤ op.stakes l := by
  cases op with
  | latch k call waiter =>
      cases call with
      | count verdict =>
          simp only [owes, stakes]
          split
          · rename_i h
            rw [if_pos h.1]
          · exact Nat.zero_le _
      | _ => exact Nat.zero_le _
  | shutDown q phase =>
      cases phase with
      | call call =>
          cases call with
          | announce reply =>
              cases reply with
              | drained items =>
                  simp only [owes, stakes]
                  split
                  · exact Nat.le_refl _
                  · exact Nat.zero_le _
              | _ => exact Nat.zero_le _
          | _ => exact Nat.zero_le _
      | _ => exact Nat.zero_le _
  | _ => exact Nat.zero_le _

theorem Plain.owes {op : Op α} (h : op.Plain) (l : Nat) (failed : Bool) : op.owes l failed = 0 :=
  Nat.le_zero.mp (h.stakes l ▸ op.owes_le_stakes l failed)

theorem Free.owes {s : Store α} {op : Op α} (h : op.Free s) {l : Nat} (nameless : ¬s.NamesLatch l)
    (failed : Bool) : op.owes l failed = 0 :=
  Nat.le_zero.mp (h.stakes nameless ▸ op.owes_le_stakes l failed)

theorem ended_of_not_serves {op : Op α} (h : ¬op.Serves) (p : Nat) (ids : List Nat)
    (failed : Bool) : op.ended p ids failed = 0 := by
  cases op with
  | work => exact absurd trivial h
  | _ => rfl

theorem Settles.ended {op : Op α} (h : op.Settles) (p : Nat) (ids : List Nat) (failed : Bool) :
    op.ended p ids failed = 0 :=
  ended_of_not_serves h.not_serves p ids failed

theorem Plain.ended {op : Op α} (h : op.Plain) (p : Nat) (ids : List Nat) (failed : Bool) :
    op.ended p ids failed = 0 := by
  cases op with
  | work => exact h.elim
  | _ => rfl

theorem Free.ended {s : Store α} {op : Op α} (h : op.Free s) (p : Nat) (ids : List Nat)
    (failed : Bool) : op.ended p ids failed = 0 := by
  rcases h with h | ⟨l, verdict, rfl, -⟩
  · exact h.ended p ids failed
  · rfl

theorem Submits.owes {op : Op α} {made : List (Op α)} {asker : Asker}
    (submits : op.Submits made asker) (l : Nat) (failed : Bool) (p : Nat) (ids : List Nat) :
    (op.owes l failed = 0 ∧ op.ended p ids failed = 0 ∧ op.skips l failed = 0) ∧
      (made.map (Op.owes l failed)).sum = 0 ∧ (made.map (Op.ended p ids failed)).sum = 0 := by
  cases submits with
  | command => exact ⟨⟨rfl, rfl, rfl⟩, rfl, rfl⟩
  | action => exact ⟨⟨rfl, rfl, rfl⟩, rfl, rfl⟩

theorem sum_complete_owes (item : Item) (verdict : Bool) (l : Nat) (failed : Bool) :
    ((complete item.latch verdict : List (Op α)).map (owes l failed)).sum =
      if item.tells l ∧ verdict = failed then 1 else 0 := by
  unfold complete
  cases hlatch : item.latch with
  | none => simp [Item.tells, hlatch]
  | some k => simp [owes, Item.tells, hlatch]

theorem sum_discard_owes (p : Nat) (item : Item) (l : Nat) (failed : Bool) :
    ((discard p item : List (Op α)).map (owes l failed)).sum =
      if item.tells l ∧ failed = true then 1 else 0 := by
  rw [discard, List.map_append, List.sum_append, sum_complete_owes]
  cases failed <;> simp [owes]

theorem sum_flatMap_discard_owes (p : Nat) (items : List Item) (l : Nat) (failed : Bool) :
    ((items.flatMap (discard p) : List (Op α)).map (owes l failed)).sum =
      if failed then items.countP (Item.tells l) else 0 := by
  induction items with
  | nil => simp
  | cons item items ih =>
      rw [List.flatMap_cons, List.map_append, List.sum_append, ih, sum_discard_owes,
        List.countP_cons]
      cases failed
      · simp
      · simp [Nat.add_comm]

theorem sum_ended_of_settles {ops : List (Op α)} (h : ∀ op ∈ ops, op.Settles) (p : Nat)
    (ids : List Nat) (failed : Bool) : (ops.map (ended p ids failed)).sum = 0 :=
  sum_map_eq_zero fun op hop => (h op hop).ended p ids failed

end Op

/-- A refused submission counts a failure for each member behind the refused one. -/
theorem Submission.sum_afterRefusal_owes {sub : Submission} {phase : SubmissionPhase}
    (fits : sub.Fits phase) (l : Nat) (failed : Bool) :
    ((sub.afterRefusal : List (Op α)).map (Op.owes l failed)).sum =
      if failed ∧ sub.ticket.latch = some l then sub.rest.length else 0 := by
  have halone := fits.alone
  rw [afterRefusal]
  split
  · rename_i bid size waitable k hticket
    rw [List.map_append, List.sum_append, List.map_map,
      show Op.owes l failed ∘ (fun _ => .latch k (.count true) .nobody : Job → Op α) =
        fun _ => if failed ∧ sub.ticket.latch = some l then 1 else 0 from
        funext fun _ => by simp [Op.owes, hticket, Ticket.latch, eq_comm, and_comm]]
    rw [List.map_const', List.sum_replicate]
    split <;> simp [Op.owes]
  · rename_i hticket
    have : (failed = true ∧ sub.ticket.latch = some l) → sub.rest.length = 0 := by
      rintro ⟨-, hlatch⟩
      cases hkind : sub.ticket with
      | job id latch => rw [(halone id latch hkind).1, List.length_nil]
      | batch bid size waitable latch =>
          rw [hkind] at hlatch
          exact absurd (hkind.trans (by rw [show latch = some l from hlatch]))
              (hticket bid size waitable l)
    split
    · rename_i h
      rw [this h]
      rfl
    · rfl

/-- Whether the entry is a count of a kind on the latch `l`. -/
def Entry.counts (l : Nat) (failed : Bool) : Entry → Nat
  | .counted k verdict => if k = l ∧ verdict = failed then 1 else 0
  | _ => 0

/-- Whether the entry tells that an item with an id in `ids` has come to its end, well or not. -/
def Entry.ended (p : Nat) (ids : List Nat) (failed : Bool) : Who × Entry → Nat
  | (.worker q _, .line (.jobFinished id)) => if failed = false ∧ q = p then ids.count id else 0
  | (.worker q _, .line (.jobPanicked id _)) => if failed = true ∧ q = p then ids.count id else 0
  | (_, .refused q item) | (_, .discarded q item) =>
    if failed = true ∧ q = p then ids.count item.id else 0
  | _ => 0

theorem Entry.Plain.ended {note : Entry} (h : note.Plain) (l p : Nat) (ids : List Nat)
    (failed : Bool) (who : Who) :
    note.counts l failed = 0 ∧ Entry.ended p ids failed (who, note) = 0 := by
  cases note with
  | event => exact ⟨rfl, by cases who <;> rfl⟩
  | line written => cases written <;> first | exact h.elim | exact ⟨rfl, by cases who <;> rfl⟩
  | _ => exact h.elim

/-- The items of a history that report to the latch `l` are those of the pool at `p` with ids in
`ids`. -/
def Enlisted (h : List (Who × Entry)) (l p : Nat) (ids : List Nat) : Prop :=
  ∀ q (item : Item), item.Known h q →
    (if item.tells l then 1 else 0) = if q = p then ids.count item.id else 0

theorem Enlisted.mono {h h' : List (Who × Entry)} (sub : h ⊆ h') {l p : Nat} {ids : List Nat}
    (enlisted : Enlisted h' l p ids) : Enlisted h l p ids :=
  fun q item known => enlisted q item (known.mono sub)

theorem sum_ended_discarded {l place p : Nat} {ids : List Nat} (failed : Bool) (who : Who)
    {items : List Item} (told : ∀ item ∈ items, (if item.tells l then 1 else 0) =
      if place = p then ids.count item.id else 0) :
    (if failed then items.countP (Item.tells l) else 0) =
      ((items.map (Entry.discarded place)).map fun note =>
        Entry.ended p ids failed (who, note)).sum := by
  induction items with
  | nil => simp
  | cons item items ih =>
      rw [List.map_cons, List.map_cons, List.sum_cons, ← ih fun item' hitem' =>
        told item' (List.mem_cons_of_mem _ hitem'), List.countP_cons, told item List.mem_cons_self]
      cases failed <;> cases who <;> simp [Entry.ended, Nat.add_comm]

section Deeds

variable {around : Around} {s : Store α} {who : Who} {old : List (Op α)} {e : Effect α}

/-- A turn in which a member comes to its end leaves one count behind for it, and a count that is
made is recorded. -/
theorem Deed.balance {op : Op α} (deed : Deed around s who op e) {rest : List (Op α)}
    (before : op.Before who rest) {h : List (Who × Entry)} (known : op.Known h s)
    (store : s.Known h) {l p : Nat} {ids : List Nat} (enlisted : Enlisted h l p ids)
    (guards : op.Guards s l)
    (effective : ∀ verdict waiter, op = .latch l (.count verdict) waiter →
      ∃ latch, s.latches[l]? = some latch ∧ latch.counts = true) (failed : Bool) :
    (e.ops.map (Op.owes l failed)).sum + (e.notes.map (Entry.counts l failed)).sum +
        op.ended p ids failed =
      op.owes l failed + (e.ops.map (Op.ended p ids failed)).sum +
        (e.notes.map fun note => Entry.ended p ids failed (who, note)).sum + op.skips l failed := by
  have hplain : ∀ {notes : List Entry}, (∀ note ∈ notes, note.Plain) →
      (notes.map (Entry.counts l failed)).sum = 0 ∧
        (notes.map fun note => Entry.ended p ids failed (who, note)).sum = 0 := fun plain =>
    ⟨sum_map_eq_zero fun note hnote => ((plain note hnote).ended l p ids failed who).1,
      sum_map_eq_zero fun note hnote => ((plain note hnote).ended l p ids failed who).2⟩
  have hcount : ∀ {k : Nat} {verdict : Bool} {latch : Latch}, op = .latch k (.count verdict) .nobody →
      s.latches[k]? = some latch → latch.counts = false → k ≠ l := by
    rintro k verdict latch hop found idle rfl
    obtain ⟨latch', found', counts⟩ := effective verdict .nobody hop
    rw [found, Option.some.injEq] at found'
    rw [found', counts] at idle
    cases idle
  cases deed with
  | commanded command eases leaves plain =>
      rw [sum_map_eq_zero fun op hop => (leaves.free op hop).owes guards.nameless failed,
        sum_map_eq_zero fun op hop => (leaves.free op hop).ended p ids failed,
        (hplain plain).1, (hplain plain).2]
      rfl
  | acted origin position action program later eases leaves plain =>
      rw [List.map_append, List.map_append, List.sum_append, List.sum_append,
        sum_map_eq_zero fun op hop => (leaves.free op hop).owes guards.nameless failed,
        sum_map_eq_zero fun op hop => (leaves.free op hop).ended p ids failed,
        (hplain plain).1, (hplain plain).2]
      rfl
  | jobAdded submits place pool job found | freeJobAdded submits place pool job found =>
      obtain ⟨⟨howes, hended, hskips⟩, hmade, hmade'⟩ := submits.owes l failed p ids
      rw [List.map_append, List.map_append, List.sum_append, List.sum_append, hmade, hmade', howes,
        hended, hskips]
      cases who <;> rfl
  | monitorTurned place call left | channelTurned place call left =>
      rcases left with rfl | ⟨call, rfl⟩ <;> rfl
  | countIgnored k latch verdict found idle =>
      have hk := hcount rfl found idle
      simp [Op.owes, Op.ended, Op.skips, hk]
  | countSkipped k | countStarted k =>
      cases who <;> simp [Op.owes, Op.ended, Op.skips, Op.perform, Entry.counts, Entry.ended]
  | counted k latch verdict found counts plain =>
      have howes : ((if latch.value.remaining = 1 then [.latch k .announce .nobody] else [] :
          List (Op α)).map (Op.owes l failed)).sum = 0 := by
        split <;> rfl
      have hended : ((if latch.value.remaining = 1 then [.latch k .announce .nobody] else [] :
          List (Op α)).map (Op.ended p ids failed)).sum = 0 := by
        split <;> rfl
      rw [howes, hended]
      cases who <;> simp [Op.owes, Op.ended, Op.skips, Entry.counts, Entry.ended]
  | continued =>
      dsimp only
      split <;> rfl
  | poolReady place m stage pool q name succeeded found awake verdict present =>
      cases s.names.pools.find? name <;> cases who <;> rfl
  | left place pool found =>
      dsimp only
      split <;> rfl
  | accepted sub pool found through hands plain =>
      rw [sum_map_eq_zero fun op hop => (hands.plain op hop).owes l failed,
        sum_map_eq_zero fun op hop => (hands.plain op hop).ended p ids failed,
        (hplain plain).1, (hplain plain).2]
      rfl
  | refused sub pool found refuses plain =>
      rw [sum_map_eq_zero fun op hop => (refuses.plain op hop).owes l failed,
        sum_map_eq_zero fun op hop => (refuses.plain op hop).ended p ids failed,
        (hplain plain).1, (hplain plain).2]
      rfl
  | givenBack sub pool item call found down sends =>
      rcases sends with rfl | ⟨stage, -, rfl⟩ <;> rfl
  | refusing sub pool item found =>
      have told := enlisted sub.pool item ⟨sub.ticket, known.1, known.2 item rfl⟩
      have hended : ((Op.discard sub.pool item ++ sub.afterRefusal : List (Op α)).map
          (Op.ended p ids failed)).sum = 0 := by
        rw [List.map_append, List.sum_append,
          Op.sum_ended_of_settles (Op.discard_settles sub.pool item),
          Op.sum_ended_of_settles sub.afterRefusal_settles]
      rw [hended, List.map_append, List.sum_append, Op.sum_discard_owes,
        sub.sum_afterRefusal_owes before.fits]
      simp only [List.map_cons, List.map_nil, List.sum_cons, List.sum_nil, Entry.counts,
        Op.ended, Op.owes, Op.skips]
      cases failed
      · cases who <;> simp [Entry.ended]
      · cases who <;> simpa [Entry.ended] using told
  | workStarted place index pool found =>
      have hne := guards.unstarted place pool found
      cases who <;> simp [Op.owes, Op.ended, Op.skips, Entry.counts, Entry.ended, hne]
  | jobRan place index pool item found =>
      obtain rfl := before.self
      have told := enlisted place item (known.2 item (List.mem_singleton_self _))
      rw [List.map_append, List.map_append, List.sum_append, List.sum_append,
        Op.sum_complete_owes, Op.sum_ended_of_settles (Op.complete_settles item.latch false)]
      cases failed
      · simpa [Op.owes, Op.ended, Op.skips] using told
      · simp [Op.owes, Op.ended, Op.skips]
  | jobBroke place index pool item payload found =>
      obtain rfl := before.self
      have told := enlisted place item (known.2 item (List.mem_singleton_self _))
      rw [List.map_append, List.map_append, List.sum_append, List.sum_append,
        Op.sum_complete_owes, Op.sum_ended_of_settles (Op.complete_settles item.latch true)]
      cases failed
      · simp [Op.owes, Op.ended, Op.skips, Entry.counts, Entry.ended]
      · simpa [Op.owes, Op.ended, Op.skips, Entry.counts, Entry.ended] using told
  | jobFinished place index pool item succeeded found =>
      obtain rfl := before.self
      cases succeeded <;> simp [Op.owes, Op.ended, Op.skips, Entry.counts, Entry.ended]
  | drained place pool ring found valid empty capacity =>
      have told : ∀ item ∈ pool.intake.value.toList, (if item.tells l then 1 else 0) =
          if place = p then ids.count item.id else 0 := fun item hitem =>
        enlisted place item (store.ring place item (by rwa [Store.ring_eq found]))
      have hcounts : ((pool.intake.value.toList.map (Entry.discarded place)).map
          (Entry.counts l failed)).sum = 0 := by
        rw [List.map_map]
        exact sum_map_eq_zero fun item _ => rfl
      rw [hcounts, ← sum_ended_discarded failed who told]
      simp [Op.owes, Op.ended, Op.skips]
  | abandoned place pool items found =>
      rw [List.map_append, List.map_append, List.sum_append, List.sum_append,
        Op.sum_flatMap_discard_owes, Op.sum_ended_of_settles (Op.flatMap_discard_settles place items)]
      cases items <;> cases who <;> simp [Op.owes, Op.ended, Op.skips, Entry.counts, Entry.ended]
  | _ => first | rfl | (cases who <;> rfl)

/-- What a panic passes and where it comes to rest has no counts to make. -/
theorem Op.Lands.balance {payload : Payload} {old new above : List (Op α)} {notes : List Entry}
    (lands : Op.Lands payload old new notes) (loose : ∀ op ∈ above, op.Loose) (l p : Nat)
    (ids : List Nat) (failed : Bool) :
    (new.map (Op.owes l failed)).sum = 0 ∧ (new.map (Op.ended p ids failed)).sum = 0 ∧
      (((above ++ old).map (Op.owes l failed)).sum = 0 ∧
        ((above ++ old).map (Op.ended p ids failed)).sum = 0 ∧
          ((above ++ old).map (Op.skips l failed)).sum = 0) := by
  have habove : (above.map (Op.owes l failed)).sum = 0 ∧
      (above.map (Op.ended p ids failed)).sum = 0 ∧ (above.map (Op.skips l failed)).sum = 0 := by
    refine ⟨sum_map_eq_zero fun op hop => (loose op hop).plain.owes l failed,
      sum_map_eq_zero fun op hop => (loose op hop).plain.ended p ids failed,
      sum_map_eq_zero fun op hop => ?_⟩
    have := loose op hop
    cases op <;> first | rfl | exact this.elim
  rw [List.map_append, List.map_append, List.map_append, List.sum_append, List.sum_append,
    List.sum_append, habove.1, habove.2.1, habove.2.2]
  cases lands <;> exact ⟨rfl, rfl, rfl, rfl, rfl⟩

theorem Act.balance (act : Act around s who old e) {rest : List (Op α)}
    (leads : Op.Leads who old rest) {h : List (Who × Entry)} (known : ∀ op ∈ old, op.Known h s)
    (store : s.Known h) {l p : Nat} {ids : List Nat} (enlisted : Enlisted h l p ids)
    (guards : ∀ op ∈ old, op.Guards s l)
    (effective : ∀ verdict waiter, old = [.latch l (.count verdict) waiter] →
      ∃ latch, s.latches[l]? = some latch ∧ latch.counts = true) (failed : Bool) :
    (e.ops.map (Op.owes l failed)).sum + (e.notes.map (Entry.counts l failed)).sum +
        (old.map (Op.ended p ids failed)).sum =
      (old.map (Op.owes l failed)).sum + (e.ops.map (Op.ended p ids failed)).sum +
        (e.notes.map fun note => Entry.ended p ids failed (who, note)).sum +
          (old.map (Op.skips l failed)).sum := by
  cases act with
  | deed deed quiet =>
      simpa using deed.balance leads.1 (known _ List.mem_cons_self) store enlisted
        (guards _ List.mem_cons_self) (fun verdict waiter h => effective verdict waiter (by rw [h]))
        failed
  | broke payload loose lands uncaught =>
      obtain ⟨hnew, hnew', hold, hold', hskips⟩ := lands.balance loose l p ids failed
      rw [hnew, hnew', hold, hold', hskips, sum_map_eq_zero fun note hnote => ?_,
        sum_map_eq_zero fun note hnote => ?_]
      · rcases lands.of_mem_notes hnote with ⟨origin, position, rfl⟩ | rfl <;> cases who <;> rfl
      · rcases lands.of_mem_notes hnote with ⟨origin, position, rfl⟩ | rfl <;> rfl

end Deeds

namespace World

variable {w v : World α} {index : Nat} {t : Thread α} {old tail : List (Op α)} {e : Effect α}

/-- How many counts of a kind have been made on the latch `l`. -/
def counts (w : World α) (l : Nat) (failed : Bool) : Nat :=
  (w.history.map fun (_, entry) => entry.counts l failed).sum

/-- How many counts of a kind are due on the latch `l` for members whose end is known. -/
def owed (w : World α) (l : Nat) (failed : Bool) : Nat :=
  w.load fun _ => Op.owes l failed

/-- How many of the items with these ids have come to their end, well or not. -/
def ended (w : World α) (p : Nat) (ids : List Nat) (failed : Bool) : Nat :=
  w.load (fun _ => Op.ended p ids failed) + (w.history.map (Entry.ended p ids failed)).sum

open Classical in
/-- How many members of what the ticket stands for are given up because one before them was refused.
-/
noncomputable def skipped (w : World α) (p : Nat) (ticket : Ticket) : Nat :=
  if ∃ item : Item, Recorded w.history (.refused p item) ∧ item.id ∈ ticket.members w.history p then
    ticket.size - (ticket.members w.history p).length
  else 0

/-! ### Counts reach a latch that is there -/

theorem Reachable.counted_lt (h : w.Reachable) {l : Nat} {failed : Bool}
    (recorded : Recorded w.history (.counted l failed)) : l < w.store.latches.length := by
  revert l failed
  refine h.induct (P := fun w => ∀ {l : Nat} {failed : Bool},
    Recorded w.history (.counted l failed) → l < w.store.latches.length) (fun cells => ?_)
    (fun w command _ ih => ih) ?_
  · rintro l failed ⟨who, hmem⟩
    cases hmem
  · intro w v index t old tail e reachable took ih l failed recorded
    rw [took.store]
    refine Nat.lt_of_lt_of_le ?_ took.act.latches.length_le
    rcases took.recorded.mp recorded with hnote | recorded
    · obtain ⟨op, rfl, writes, deed⟩ := took.act.written hnote not_false nofun
      cases writes with
      | counted =>
          have hop : .latch l (.count failed) .nobody ∈ t.ops := took.due_mem
          exact (reachable.known.ops t took.mem_threads _ hop).1
    · exact ih recorded

theorem Reachable.counts_absent (h : w.Reachable) {l : Nat} (absent : w.store.latches.length ≤ l)
    (failed : Bool) : w.counts l failed = 0 ∧ w.owed l failed = 0 := by
  constructor
  · refine sum_map_eq_zero fun (who, entry) hmem => ?_
    cases entry with
    | counted k verdict =>
        refine if_neg ?_
        rintro ⟨rfl, -⟩
        exact absurd (h.counted_lt ⟨who, hmem⟩) (Nat.not_lt.mpr absent)
    | _ => rfl
  · refine load_eq_zero _ fun u hu op hop => Nat.le_zero.mp ?_
    exact ((h.known.ops u hu op hop).stakes h.known.store absent).1 ▸ op.owes_le_stakes l failed

/-- Nothing that reports to a latch has come to its end before the latch is there. -/
theorem Reachable.ended_absent (h : w.Reachable) {l p : Nat} {ids : List Nat}
    (enlisted : Enlisted w.history l p ids) (absent : w.store.latches.length ≤ l) (failed : Bool) :
    w.ended p ids failed = 0 := by
  have hitem : ∀ {item : Item}, item.Known w.history p → ids.count item.id = 0 := by
    intro item known
    have told := enlisted p item known
    rw [if_pos rfl, if_neg] at told
    · exact told.symm
    · intro htold
      have := h.known.store.latch_lt known l (by simpa [Item.tells] using htold)
      omega
  have htaken : ∀ {q : Nat} {who : Who} {item : Item}, (who, .taken q item) ∈ w.history →
      item.Known w.history q := fun hmem => (h.known.entries _ _ hmem).2
  have hzero : w.load (fun _ => Op.ended p ids failed) = 0 := by
    refine load_eq_zero _ fun u hu op hop => ?_
    have known := h.known.ops u hu op hop
    unfold Op.ended
    split
    · rename_i q i item
      split
      · rename_i hit
        exact hitem (hit.2 ▸ known.2 item (List.mem_singleton_self _))
      · rfl
    · rfl
  rw [World.ended, hzero, Nat.zero_add]
  refine sum_map_eq_zero fun x hmem => ?_
  obtain ⟨who, entry⟩ := x
  unfold Entry.ended
  split
  · rename_i q i id heq
    cases heq
    obtain ⟨p', i', item, hwho, rfl, htook, -⟩ := h.truthful.finished _ _ hmem
    cases hwho
    split
    · rename_i hit
      exact hitem (hit.2 ▸ htaken htook)
    · rfl
  · rename_i q i id payload heq
    cases heq
    obtain ⟨p', i', item, hwho, rfl, htook, -⟩ := h.truthful.panicked _ _ _ hmem
    cases hwho
    split
    · rename_i hit
      exact hitem (hit.2 ▸ htaken htook)
    · rfl
  · rename_i q item heq
    cases heq
    split
    · rename_i hit
      exact hitem (hit.2 ▸ (h.known.entries _ _ hmem).2)
    · rfl
  · rename_i q item heq
    cases heq
    split
    · rename_i hit
      exact hitem (hit.2 ▸ (h.known.entries _ _ hmem).2)
    · rfl
  · rfl

/-! ### The balance -/

theorem Took.balance (reachable : w.Reachable) (took : w.Took v index t old tail e) {l p : Nat}
    {ids : List Nat} (enlisted : Enlisted w.history l p ids)
    (guards : ∀ op ∈ old, op.Guards w.store l)
    (effective : ∀ verdict waiter, old = [.latch l (.count verdict) waiter] →
      ∃ latch, w.store.latches[l]? = some latch ∧ latch.counts = true) (failed : Bool) :
    v.counts l failed + v.owed l failed + w.ended p ids failed =
      w.counts l failed + w.owed l failed + v.ended p ids failed +
        (old.map (Op.skips l failed)).sum := by
  have known := reachable.known
  have stack := took.leads reachable.orderly
  have hold : ∀ op ∈ old, op.Known w.history w.store := fun op hop =>
    known.ops t took.mem_threads op (took.mem_ops hop)
  have hact := took.act.balance stack.1 hold known.store enlisted guards effective failed
  obtain ⟨a, howes, howes'⟩ := took.load_of_start (fun _ => Op.owes l failed)
    (fun _ op => op.owes_wake l failed) fun _ _ _ => rfl
  obtain ⟨b, hended, hended'⟩ := took.load_of_start (fun _ => Op.ended p ids failed)
    (fun _ op => op.ended_wake p ids failed) fun _ _ _ => rfl
  have hcounts : v.counts l failed =
      (e.notes.map (Entry.counts l failed)).sum + w.counts l failed := by
    simp [World.counts, took.history, List.sum_reverse, Function.comp_def]
  have hends : (v.history.map (Entry.ended p ids failed)).sum =
      (e.notes.map fun note => Entry.ended p ids failed (t.who, note)).sum +
        (w.history.map (Entry.ended p ids failed)).sum := by
    simp [took.history, List.sum_reverse, Function.comp_def]
  rw [World.owed, World.owed, World.ended, World.ended, hcounts, hends, howes, howes', hended, hended']
  omega

section Tickets

variable {p l : Nat} {ticket : Ticket}

/-- A count on the latch of a ticket has an effect. -/
theorem Reachable.count_effective (h : w.Reachable)
    (recorded : Recorded w.history (.ticketed p ticket)) (hl : ticket.latch = some l)
    (ht : t ∈ w.threads) {verdict : Bool} {waiter : Waiter}
    (hop : .latch l (.count verdict) waiter ∈ t.ops) :
    ∃ latch, w.store.latches[l]? = some latch ∧ latch.counts = true := by
  have there := h.known.store.latches p ticket l recorded hl
  have found : w.store.latches[l]? = some w.store.latches[l] := List.getElem?_eq_getElem there
  obtain ⟨r, hload⟩ := load_of_mem (fun _ => Op.stakes l) ht hop
  have hstaked : 0 < w.stakes l := by
    rw [World.stakes, hload]
    simp only [Op.stakes, if_true]
    omega
  exact ⟨_, found, (h.tallied.composed l _ found).counts
    (h.tallied.tallied p ticket l _ recorded hl found) hstaked⟩

theorem Reachable.enlisted (h : w.Reachable) (recorded : Recorded w.history (.ticketed p ticket))
    (hl : ticket.latch = some l) (some : 0 < ticket.size) :
    Enlisted w.history l p (ticket.members w.history p) := by
  intro q item known
  have hiff := h.tells_iff recorded hl some known
  have hone : ∀ id, (ticket.members w.history p).count id =
      if id ∈ ticket.members w.history p then 1 else 0 := fun id => by
    split
    · rename_i hmem
      exact List.count_eq_one_of_mem (h.nodup_members p ticket) hmem
    · rename_i hmem
      exact List.count_eq_zero_of_not_mem hmem
  have htells : item.tells l = true ↔ q = p ∧ item.id ∈ ticket.members w.history p := by
    rw [← hiff]
    simp [Item.tells]
  rw [hone]
  by_cases hq : q = p <;> simp [htells, hq]

/-- An item that has been refused after a turn was known before it. -/
theorem Took.known_of_refused (reachable : w.Reachable) (took : w.Took v index t old tail e)
    {item : Item} (refused : Recorded v.history (.refused p item)) :
    item.Known w.history p ∧ (Recorded w.history (.refused p item) ∨
      ∃ sub, old = [.submit sub (.refuse item)] ∧ sub.pool = p ∧ sub.ticket.latch = item.latch) := by
  rcases took.recorded.mp refused with hnote | refused
  · obtain ⟨op, rfl, writes, deed⟩ := took.act.written hnote not_false nofun
    cases writes with
    | refused sub _ =>
        have hop : .submit sub (.refuse item) ∈ t.ops := took.due_mem
        have known := reachable.known.ops t took.mem_threads _ hop
        have part := known.2 item rfl
        exact ⟨⟨sub.ticket, known.1, part⟩, .inr ⟨sub, rfl, rfl, part.latch.symm⟩⟩
  · obtain ⟨who, hmem⟩ := refused
    exact ⟨(reachable.known.entries who _ hmem).2, .inl ⟨who, hmem⟩⟩

/-- Once a member has been refused, nothing more is submitted on its ticket. -/
theorem Reachable.over_of_member (h : w.Reachable)
    (recorded : Recorded w.history (.ticketed p ticket)) (some : 0 < ticket.size) {item : Item}
    (refused : Recorded w.history (.refused p item)) (hid : item.id ∈ ticket.members w.history p) :
    w.load (fun _ => Op.submits p ticket.id) = 0 := by
  obtain ⟨who, hmem⟩ := refused
  have known := (h.known.entries who _ hmem).2
  exact h.over_of_refused ⟨who, hmem⟩ ((h.part_iff recorded some known).mpr hid)

/-- The refusal of a member gives up those behind it, and no refusal has done so before. -/
theorem Took.skipped_of_refuse (reachable : w.Reachable) {sub : Submission} {item : Item}
    (took : w.Took v index t [.submit sub (.refuse item)] tail e) (some : 0 < sub.ticket.size) :
    w.skipped sub.pool sub.ticket = 0 ∧ v.skipped sub.pool sub.ticket = sub.rest.length := by
  have ht := took.mem_threads
  have hop : .submit sub (.refuse item) ∈ t.ops := took.due_mem
  obtain ⟨recorded, part⟩ := reachable.known.ops t ht _ hop
  constructor
  · refine if_neg ?_
    rintro ⟨other, refused, hid⟩
    obtain ⟨r, hload⟩ := load_of_mem (fun _ => Op.submits sub.pool sub.ticket.id) ht hop
    rw [reachable.over_of_member recorded some refused hid] at hload
    simp only [Op.submits, and_self, if_true] at hload
    omega
  · have hmembers : sub.ticket.members v.history sub.pool =
        sub.ticket.members w.history sub.pool := by
      cases hticket : sub.ticket with
      | job id latch => rfl
      | batch bid size waitable latch =>
          rcases took.act.members sub.pool bid with hnone | ⟨_, _, _, _, hold, _⟩
          · rw [Ticket.members, Ticket.members, took.membersOf, hnone, List.append_nil]
          · simp at hold
    have hsize := reachable.size_eq ht hop SubmissionPhase.noConfusion
    rw [World.skipped, if_pos, hmembers]
    · omega
    · refine ⟨item, took.recorded.mpr (.inl ?_), ?_⟩
      · cases took.act.deed_of_not_loose id with
        | jobAdded submits | freeJobAdded submits => cases submits
        | refusing => exact List.mem_cons_self
      · have part := part item rfl
        rw [hmembers]
        exact (reachable.part_iff recorded some ⟨sub.ticket, recorded, part⟩).mp part

/-- A turn that refuses no member of a ticket gives up none. -/
theorem Took.skipped_of_calm (reachable : w.Reachable) (reachable' : v.Reachable)
    (took : w.Took v index t old tail e) (recorded : Recorded w.history (.ticketed p ticket))
    (hl : ticket.latch = some l) (some : 0 < ticket.size)
    (calm : ∀ sub item, old = [.submit sub (.refuse item)] → sub.ticket.latch ≠ .some l) :
    v.skipped p ticket = w.skipped p ticket := by
  have hsub := took.history_subset
  have hmembers : ∀ {item : Item}, Recorded w.history (.refused p item) →
      item.id ∈ ticket.members w.history p →
        ticket.members v.history p = ticket.members w.history p := fun refused hid =>
    took.members (reachable.over_of_member recorded some refused hid)
  have hiff : (∃ item : Item, Recorded v.history (.refused p item) ∧
        item.id ∈ ticket.members v.history p) ↔
      ∃ item : Item, Recorded w.history (.refused p item) ∧
        item.id ∈ ticket.members w.history p := by
    constructor
    · rintro ⟨item, refused, hid⟩
      obtain ⟨known, hrefused⟩ := took.known_of_refused reachable refused
      have hlatch := (reachable'.tells_iff (recorded.mono hsub) hl some (known.mono hsub)).mpr
        ⟨rfl, hid⟩
      rcases hrefused with refused | ⟨sub, hold, -, htold⟩
      · exact ⟨item, refused, ((reachable.tells_iff recorded hl some known).mp hlatch).2⟩
      · exact absurd (htold.trans hlatch) (calm sub item hold)
    · rintro ⟨item, refused, hid⟩
      exact ⟨item, refused.mono hsub, (hmembers refused hid).symm ▸ hid⟩
  rw [World.skipped, World.skipped]
  by_cases hrefused : ∃ item : Item, Recorded w.history (.refused p item) ∧
      item.id ∈ ticket.members w.history p
  · obtain ⟨item, refused, hid⟩ := id hrefused
    rw [if_pos hrefused, if_pos (hiff.mpr hrefused), hmembers refused hid]
  · rw [if_neg hrefused, if_neg (mt hiff.mp hrefused)]

theorem Took.skips_of_calm (took : w.Took v index t old tail e)
    (calm : ∀ sub item, old = [.submit sub (.refuse item)] → sub.ticket.latch ≠ .some l) :
    (old.map (Op.skips l true)).sum = 0 := by
  refine sum_map_eq_zero fun op hop => ?_
  cases took.act with
  | deed deed quiet =>
      obtain rfl := List.mem_singleton.mp hop
      unfold Op.skips
      split
      · rename_i sub item
        exact if_neg fun h => calm sub item rfl h.2
      · rfl
  | broke payload loose lands uncaught =>
      have hzero := (lands.balance loose l 0 [] true).2.2.2.2
      exact List.sum_eq_zero_iff_forall_eq_nat.mp hzero _ (List.mem_map_of_mem hop)

/-- Members are given up in the turn in which one before them is refused. -/
theorem Took.skipped (reachable : w.Reachable) (reachable' : v.Reachable)
    (took : w.Took v index t old tail e) (recorded : Recorded w.history (.ticketed p ticket))
    (hl : ticket.latch = some l) (some : 0 < ticket.size) :
    v.skipped p ticket = w.skipped p ticket + (old.map (Op.skips l true)).sum := by
  by_cases hrefusing : ∃ sub item, old = [.submit sub (.refuse item)] ∧ sub.ticket.latch = .some l
  · obtain ⟨sub, item, rfl, hlatch⟩ := hrefusing
    have known := reachable.known.ops t took.mem_threads _ took.due_mem
    obtain ⟨rfl, rfl⟩ := reachable.ticket_eq known.1 recorded hlatch hl
    obtain ⟨hbefore, hafter⟩ := took.skipped_of_refuse reachable some
    rw [hbefore, hafter]
    simp [Op.skips, hlatch]
  · have calm : ∀ sub item, old = [.submit sub (.refuse item)] → sub.ticket.latch ≠ .some l :=
      fun sub item hold hlatch => hrefusing ⟨sub, item, hold, hlatch⟩
    rw [took.skipped_of_calm reachable reachable' recorded hl some calm, took.skips_of_calm calm,
      Nat.add_zero]

/-- Nobody has counted yet on the latch of a ticket that is made out, and no member has come to an
end or was given up. -/
theorem Took.balance_new (reachable : w.Reachable) (reachable' : v.Reachable)
    (took : w.Took v index t old tail e) (told : .ticketed p ticket ∈ e.notes)
    (hl : ticket.latch = some l) (some : 0 < ticket.size) {ids : List Nat}
    (enlisted : Enlisted w.history l p ids) (failed : Bool) :
    v.counts l failed + v.owed l failed =
      v.ended p ids failed + if failed then v.skipped p ticket else 0 := by
  have recorded : Recorded v.history (.ticketed p ticket) := took.recorded.mpr (.inl told)
  have absent : w.store.latches.length ≤ l :=
    Nat.le_of_eq ((took.act.tickets told told).2.2 l hl).symm
  have hknown := fun op hop => reachable.known.ops t took.mem_threads op (took.mem_ops hop)
  have hfresh : ∀ {op : Op α}, op ∈ old → ∀ call waiter, op ≠ .latch l call waiter := by
    rintro op hop call waiter rfl
    have := (hknown _ hop).1
    omega
  have guards : ∀ op ∈ old, op.Guards w.store l := fun op hop =>
    ⟨fun named => absurd (reachable.known.store.latchNames l named) (Nat.not_lt.mpr absent),
      fun q pool found heq => by
        have := reachable.known.store.started q pool found
        omega,
      fun waiter => hfresh hop .terminate waiter⟩
  have hbalance := took.balance reachable enlisted guards (fun verdict waiter heq =>
    absurd rfl (hfresh (heq ▸ List.mem_singleton_self _) (.count verdict) waiter)) failed
  have hskips : (old.map (Op.skips l failed)).sum = 0 := by
    refine sum_map_eq_zero fun op hop => ?_
    have known := hknown op hop
    unfold Op.skips
    split
    · refine if_neg fun hlatch => ?_
      have := reachable.known.store.latches _ _ l known.1 hlatch.2
      omega
    · rfl
  have hskipped : v.skipped p ticket = 0 := by
    refine if_neg ?_
    rintro ⟨item, refused, hid⟩
    have known := (took.known_of_refused reachable refused).1
    have hlatch := (reachable'.tells_iff recorded hl some
      (known.mono took.history_subset)).mpr ⟨rfl, hid⟩
    have := reachable.known.store.latch_lt known l hlatch
    omega
  obtain ⟨hcounts, howed⟩ := reachable.counts_absent absent failed
  rw [hcounts, howed, reachable.ended_absent enlisted absent failed, hskips] at hbalance
  rw [hskipped, ite_self]
  omega

/-- The counts on the latch of a ticket, made and due, are those of the members that have come to
their end, well or not, and of those that were given up. -/
theorem Reachable.balance (h : w.Reachable) (recorded : Recorded w.history (.ticketed p ticket))
    (hl : ticket.latch = some l) (some : 0 < ticket.size) {ids : List Nat}
    (enlisted : Enlisted w.history l p ids) (failed : Bool) :
    w.counts l failed + w.owed l failed =
      w.ended p ids failed + if failed then w.skipped p ticket else 0 := by
  suffices hall : w.Reachable → Recorded w.history (.ticketed p ticket) →
      Enlisted w.history l p ids → w.counts l failed + w.owed l failed =
        w.ended p ids failed + if failed then w.skipped p ticket else 0 from
    hall h recorded enlisted
  clear recorded enlisted
  refine h.induct (P := fun w => w.Reachable → Recorded w.history (.ticketed p ticket) →
    Enlisted w.history l p ids → w.counts l failed + w.owed l failed =
      w.ended p ids failed + if failed then w.skipped p ticket else 0) ?_
    (fun w command reachable ih _ recorded enlisted => ?_)
    fun w v index t old tail e reachable took ih reachable' recorded enlisted => ?_
  · rintro cells - ⟨who, hmem⟩
    cases hmem
  · have howed : (w.issue command).owed l failed = w.owed l failed := load_issue _ w command
    have hended : (w.issue command).ended p ids failed = w.ended p ids failed := by
      rw [World.ended, load_issue]
      rfl
    rw [howed, hended]
    exact ih reachable recorded enlisted
  · have enlisted' := enlisted.mono took.history_subset
    rcases took.recorded.mp recorded with hnote | recorded'
    · exact took.balance_new reachable reachable' hnote hl some enlisted' failed
    · have ht := took.mem_threads
      have hbalance := took.balance reachable enlisted'
        (fun op hop => reachable.guards recorded' hl ht (took.mem_ops hop))
        (fun verdict waiter heq => reachable.count_effective recorded' hl ht
          (took.mem_ops (heq ▸ List.mem_singleton_self _))) failed
      have ih := ih reachable recorded' enlisted'
      have hskipped := took.skipped reachable reachable' recorded' hl some
      cases failed with
      | false =>
          have hskips : (old.map (Op.skips l false)).sum = 0 := by
            refine sum_map_eq_zero fun op hop => ?_
            unfold Op.skips
            split
            · exact if_neg fun h => Bool.false_ne_true h.1
            · rfl
          simp only [Bool.false_eq_true, if_false] at ih ⊢
          omega
      | true =>
          simp only [if_true] at ih ⊢
          omega

end Tickets

end World

end WorkerPool
