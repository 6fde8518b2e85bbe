import WorkerPool.Proofs.Finale
import WorkerPool.Proofs.Quiescence
import WorkerPool.Proofs.Stretch

/-! The end of a pool's service. From the turn that takes the pool down no item goes into its ring
and no worker takes one out. What still lies there is found by one drain, whichever of the shutdowns
makes it, and that shutdown counts every item that it has found as a failure and counts it out
before it is over. After that the ring is empty for good. Where no thread can take a turn any more,
nobody sleeps before the ring of such a pool, its workers have ended but for those that are inside a
function, and the backlog counts just these. -/

namespace WorkerPool

variable {α : Type}

namespace Entry

/-- The entry tells of an item that went into the ring of the pool at `p`, or to one of its workers.
-/
def moves (p : Nat) : Who × Entry → Bool
  | (_, .pushed q _) | (_, .taken q _) => q == p
  | _ => false

/-- The entry tells that a shutdown has discarded the item with the id `id` of the pool at `p`. -/
def discards? (p id : Nat) : Who × Entry → Bool
  | (_, .discarded q item) => q == p && item.id == id
  | _ => false

end Entry

/-- How often an item has been discarded that has come so far. -/
def Lot.discards : Lot → Nat
  | .discarded .. => 1
  | _ => 0

/-- What is discarded has been queued until then, so it is discarded once. -/
theorem Course.countP_discards {p id : Nat} {h : List (Who × Entry)} {lot : Lot}
    (course : Course p id h lot) : h.countP (Entry.discards? p id) = lot.discards := by
  induction course with
  | discarded who before ih =>
      rw [List.countP_cons, ih]
      simp [Entry.discards?, before.id_eq rfl, Lot.discards]
  | unknown => rfl
  | issued => rfl
  | performed before ih => exact ih
  | pushed before ih | refused before ih | taken index before ih | started before ih
  | finished before ih | panicked payload before ih =>
      rw [List.countP_cons, ih]
      rfl

namespace Op

/-- What is left to do of a shutdown that has found `items` in the ring. -/
inductive Abandons (h : List (Who × Entry)) (p : Nat) (items : List Item) : List (Op α) → Prop
  | found : Abandons h p items [.shutDown p (.call (.announce (.drained items)))]
  | clearing (left : List (Op α)) (clears : ∀ op ∈ left, op.Clears h p) :
      Abandons h p items (left ++ [.shutDown p .done])
  | done : Abandons h p items []

theorem Abandons.mono {h h' : List (Who × Entry)} (sub : h ⊆ h') {p : Nat} {items : List Item}
    {ops : List (Op α)} (abandons : Abandons h p items ops) : Abandons h' p items ops := by
  cases abandons with
  | found => exact .found
  | clearing left clears => exact .clearing left fun op hop => (clears op hop).mono sub
  | done => exact .done

theorem Clears.ofCall {h : List (Who × Entry)} {p : Nat} {op : Op α} (clears : op.Clears h p) :
    op.OfCall := by
  cases clears <;> trivial

/-- All that a shutdown has to do is part of its call, and it has not to wait for anybody. -/
theorem Abandons.head {h : List (Who × Entry)} {p : Nat} {items : List Item} {op : Op α}
    {ops : List (Op α)} (abandons : Abandons h p items (op :: ops)) :
    op.OfCall ∧ op.sleepsAt = none := by
  generalize hops : op :: ops = left at abandons
  cases abandons with
  | found =>
      cases hops
      exact ⟨trivial, rfl⟩
  | clearing left clears =>
      cases left with
      | nil =>
          cases hops
          exact ⟨trivial, rfl⟩
      | cons op' left =>
          cases hops
          have := clears op List.mem_cons_self
          exact ⟨this.ofCall, this.awake⟩
  | done => cases hops

theorem AfterShutdown.head {p : Nat} {op : Op α} {rest : List (Op α)}
    (after : AfterShutdown p (op :: rest)) : ¬op.OfCall ∧ op.sleepsAt = none := by
  cases after <;> exact ⟨id, rfl⟩

/-- In front of a worker that is about to take an item stands what reports for duty or counts out.
-/
theorem Before.of_receive {who : Who} {op : Op α} {p i : Nat} {call : Channel.Call Item}
    (before : op.Before who [.work p i (.receive call)]) :
    op.Urgent ∨ ∃ l job succeeded, op = .latch l (.running job succeeded) .nobody := by
  cases before with
  | count | latchAnnounce | leave | backlogAnnounce => exact .inl rfl
  | running l job succeeded after => exact .inr ⟨l, job, succeeded, rfl⟩
  | code _ _ _ _ after =>
      cases after with
      | caller back => cases back
  | terminate _ back => cases back
  | waitTicket _ _ _ _ after =>
      rcases after with hnil | ⟨_, hcons⟩
      · cases hnil
      · cases hcons
  | waitRefused _ _ _ _ _ after | submit _ _ _ _ after => cases after
  | shutDown _ _ _ after => cases after
  | join _ _ _ after | release _ after =>
      cases after with
      | resumes back => cases back
  | hand _ _ after | answer _ after =>
      rcases after with ⟨hnil, -⟩ | ⟨_, _, hcons⟩
      · cases hnil
      · cases hcons

end Op

section Deeds

variable {around : Around} {s : Store α} {who : Who} {old : List (Op α)} {e : Effect α}

/-- Items go into a ring and to workers only while the pool is up. -/
theorem Deed.up_of_moves {op : Op α} (deed : Deed around s who op e) {p : Nat} {note : Entry}
    (hnote : note ∈ e.notes) (moves : Entry.moves p (who, note) = true) : ¬s.IsDown p := by
  rintro ⟨pool, found, down⟩
  have hup : ∀ {q : Nat} {pool' : Pool}, s.pools[q]? = some pool' → pool'.isDown = false →
      q ≠ p := by
    rintro q pool' found' up rfl
    obtain rfl := Option.some.inj (found.symm.trans found')
    rw [down] at up
    cases up
  rcases deed.writes hnote with plain | writes
  · cases note <;> first | exact plain.elim | cases moves
  · cases writes with
    | pushed sub item stage =>
        cases deed with
        | jobAdded submits | freeJobAdded submits => cases submits
        | pushed _ pool' _ _ found' awake up => exact hup found' up (beq_iff_eq.mp moves)
        | givenBack | sendSlept => cases hnote
    | taken q i pool' stage item behind found' first =>
        cases deed with
        | jobAdded submits | freeJobAdded submits => cases submits
        | taken _ _ pool'' _ _ ring found'' awake up => exact hup found'' up (beq_iff_eq.mp moves)
        | receiveSlept => cases hnote
        | workerStopped => simp at hnote
    | _ => cases moves

theorem Act.up_of_moves (act : Act around s who old e) {p : Nat} {note : Entry}
    (hnote : note ∈ e.notes) (moves : Entry.moves p (who, note) = true) : ¬s.IsDown p := by
  cases act with
  | deed deed quiet => exact deed.up_of_moves hnote moves
  | broke payload loose lands uncaught =>
      rcases lands.of_mem_notes hnote with ⟨origin, position, rfl⟩ | rfl <;> cases moves

end Deeds

namespace World

variable {w v : World α} {index : Nat} {t : Thread α} {old tail : List (Op α)} {e : Effect α}
    {p : Nat}

/-- How often an item with the id `id` has been discarded by the shutdowns of the pool at `p`. -/
def discards (w : World α) (p id : Nat) : Nat :=
  w.history.countP (Entry.discards? p id)

/-- What was found in the ring by the drain of a shutdown that took the turns `turns` has come to
its end: the ring is empty, and every item has been discarded once and counted as a failure once. -/
structure Emptied (w : World α) (p : Nat) (items : List Item) (turns : List (World α × World α)) :
    Prop where
  empty : w.store.ring p = []
  once : ∀ item ∈ items, w.discards p item.id = 1
  counted : ∀ l, share (fun w => (w.counts l true : Int)) turns = items.countP (Item.tells l)
  failed : ∀ item ∈ items, ∀ l, item.latch = some l →
    ∃ latch, w.store.latches[l]? = some latch ∧ latch.value.failed = true

/-- The pool at `p` keeps nobody: nobody sleeps before its ring, its workers have ended but for
those that are inside a function, and the backlog counts these. -/
structure Released (w : World α) (p : Nat) : Prop where
  awake : ∀ t ∈ w.threads, t.sleepsAt ≠ some (.intake p)
  workers : ∀ t ∈ w.threads, ∀ i, t.who = .worker p i →
    t.ended = true ∨ t.ops.any Op.inside = true
  backlog : w.store.backlog p = w.insiders p

/-! ### From the termination on -/

theorem Took.ring_of_down (took : w.Took v index t old tail e) (down : w.store.IsDown p) :
    v.store.ring p = w.store.ring p ∨ v.store.ring p = [] := by
  obtain ⟨pool, found, hdown⟩ := down
  obtain ⟨pool', found', same | ⟨op, -, -, turn⟩⟩ := took.intake found
  · exact .inl (by rw [Store.ring_eq found', Store.ring_eq found, same])
  · rw [Store.ring_eq found', Store.ring_eq found]
    generalize pool'.intake = c at turn
    cases turn with
    | kept | terminated => exact .inl rfl
    | pushed _ _ _ _ _ up | taken _ _ _ _ _ up => cases up.symm.trans hdown
    | drained ring _ empty => exact .inr empty

/-- No item goes into the ring of a pool that is down, or from there to a worker. -/
theorem Later.shut (later : w.Later v) (h : w.Reachable) (down : w.store.IsDown p) :
    v.history.filter (Entry.moves p) = w.history.filter (Entry.moves p) ∧
      (v.store.ring p = w.store.ring p ∨ v.store.ring p = []) := by
  refine (later.keeps h (P := fun v => v.store.IsDown p ∧
    v.history.filter (Entry.moves p) = w.history.filter (Entry.moves p) ∧
      (v.store.ring p = w.store.ring p ∨ v.store.ring p = []))
    ⟨down, rfl, .inl rfl⟩ (fun _ _ _ ih => ih) ?_).2
  rintro u v index t old tail e - - took ⟨down, same, ring⟩
  refine ⟨took.isDown down, ?_, ?_⟩
  · rw [took.history, List.filter_append, same, List.filter_eq_nil_iff.mpr, List.nil_append]
    intro entry hentry moves
    obtain ⟨note, hnote, rfl⟩ := List.mem_map.mp (List.mem_reverse.mp hentry)
    exact took.act.up_of_moves hnote moves down
  · rcases took.ring_of_down down with hring | hring
    · rwa [hring]
    · exact .inr hring

theorem Reachable.discards_of_recorded (h : w.Reachable) {item : Item}
    (recorded : Recorded w.history (.discarded p item)) : w.discards p item.id = 1 := by
  obtain ⟨who, hmem⟩ := recorded
  obtain ⟨lot, course, -⟩ := h.course p item.id
  have hcount := course.countP_discards
  rw [course.eq_discarded (mem_course hmem (by simp [Entry.concerns])), World.course,
    List.countP_filter] at hcount
  refine (List.countP_congr fun entry _ => ?_).trans (hcount : _ = 1)
  obtain ⟨who, note⟩ := entry
  cases note <;> simp [Entry.discards?, Entry.concerns]

/-- A latch on which a failure was counted knows of it. -/
theorem Reachable.failed_of_counts (h : w.Reachable) {ticket : Ticket} {l : Nat}
    (recorded : Recorded w.history (.ticketed p ticket)) (hl : ticket.latch = some l)
    (counted : 0 < w.counts l true) :
    ∃ latch, w.store.latches[l]? = some latch ∧ latch.value.failed = true := by
  have found := List.getElem?_eq_getElem (h.known.store.latches p ticket l recorded hl)
  obtain ⟨who, hmem⟩ := recorded
  obtain ⟨-, -, issue, issued, -⟩ := h.known.entries who _ hmem
  refine ⟨_, found, ?_⟩
  have finale := h.finale ⟨who, hmem⟩ hl issued found
  generalize issue.finale? = finale? at finale
  cases finale with
  | absent _ _ verdict | awaited _ _ _ _ verdict => exact verdict.mpr counted
  | skipped _ _ _ _ _ verdict => exact verdict
  | running _ _ _ _ _ sound | finished _ _ _ _ _ _ _ sound => omega

/-! ### The shutdown that drains -/

/-- A turn of a shutdown that has found `items` takes them in hand or goes on with one of them. What
it counts as failures is no longer at stake. -/
theorem Took.abandons {op : Op α} {front : List (Op α)} (h : w.Reachable)
    (took : w.Took v index t [op] tail e) (deed : Deed (w.around index) w.store t.who op e)
    {items : List Item} (abandons : Op.Abandons w.history p items (op :: front)) :
    Op.Abandons v.history p items (e.ops ++ front) ∧ ∀ l,
      v.counts l true + ((e.ops ++ front).map (Op.stakes l)).sum =
        w.counts l true + ((op :: front).map (Op.stakes l)).sum := by
  generalize hfront : op :: front = left at abandons
  cases abandons with
  | found =>
      obtain ⟨rfl, rfl⟩ := List.cons.inj hfront
      have known := (h.known.ops t took.mem_threads _ took.due_mem).2
      have hcounts := took.counts
      cases deed with
      | jobAdded submits | freeJobAdded submits => cases submits
      | abandoned _ pool _ found =>
          refine ⟨?_, fun l => ?_⟩
          · rw [List.append_nil]
            refine .clearing _ fun op hop => ?_
            obtain ⟨item, hitem, hop⟩ := List.mem_flatMap.mp hop
            exact Op.clears_discard ((known item hitem).mono took.history_subset) op hop
          · have hnone : v.counts l true = w.counts l true := by
              rw [hcounts]
              dsimp only
              split <;> simp [Entry.counts]
            rw [hnone]
            simp [Op.sum_flatMap_discard_stakes, Op.stakes]
  | clearing left clears =>
      cases left with
      | nil =>
          obtain ⟨rfl, rfl⟩ := List.cons.inj hfront
          have hcounts := took.counts
          cases deed with
          | jobAdded submits | freeJobAdded submits => cases submits
          | shutDownOver _ pool found =>
              refine ⟨.done, fun l => ?_⟩
              rw [hcounts]
              simp [Op.stakes]
      | cons op' left =>
          have hcons : op :: front = op' :: (left ++ [.shutDown p .done]) := hfront
          obtain ⟨rfl, rfl⟩ := List.cons.inj hcons
          obtain ⟨goes, counts⟩ := took.clears h deed (clears op List.mem_cons_self)
          refine ⟨?_, fun l => ?_⟩
          · rw [← List.append_assoc]
            refine .clearing _ fun op' hop' => ?_
            rcases List.mem_append.mp hop' with hop' | hop'
            · exact goes op' hop'
            · exact (clears op' (List.mem_cons_of_mem op hop')).mono took.history_subset
          · have := counts l
            simp only [List.cons_append, List.map_append, List.sum_append, List.map_cons,
              List.sum_cons]
            omega
  | done => cases hfront

/-- A shutdown that has found `items` goes on to count all of them, and as many failures as there
are among them for each latch. -/
theorem During.abandons (during : w.During index turns v) (h : w.Reachable) {items : List Item}
    {rest : List (Op α)} (got : w.threads[index]? = some t)
    (ops : t.ops = .shutDown p (.call (.announce (.drained items))) :: rest) :
    ∃ t front, v.threads[index]? = some t ∧ t.ops = front ++ rest ∧
      Op.Abandons v.history p items front ∧ ∀ l,
        share (fun w => (w.counts l true : Int)) turns + ((front.map (Op.stakes l)).sum : Nat) =
          items.countP (Item.tells l) := by
  have after : Op.AfterShutdown p rest := by
    have stack := h.orderly.ordered t (List.mem_of_getElem? got)
    rw [ops] at stack
    have before := stack.1
    rw [List.append_nil] at before
    cases before with
    | shutDown _ _ _ after => exact after
  refine during.keeps h (P := fun front v turns => Op.Abandons v.history p items front ∧ ∀ l,
      share (fun w => (w.counts l true : Int)) turns + ((front.map (Op.stakes l)).sum : Nat) =
        items.countP (Item.tells l))
    (fun op more hrest => (hrest ▸ after).head.1) ?_
    ⟨t, _, got, ops, .found, fun l => by simp [Op.stakes]⟩ (fun _ _ _ _ _ hP => hP) ?_ ?_
  · rintro front u turns ⟨abandons, -⟩ op more hops
    cases front with
    | nil =>
        have hrest : rest = op :: more := hops
        rw [hrest] at after
        exact after.head.2
    | cons op' front =>
        obtain ⟨rfl, -⟩ := List.cons.inj hops
        exact abandons.head.2
  · rintro front u v turns i t old tail e s - - took - - - - ⟨abandons, counted⟩
    exact ⟨abandons.mono took.history_subset, counted⟩
  · rintro op front u v turns pick t e hu - - - - took deed ⟨abandons, counted⟩
    obtain ⟨goes, counts⟩ := took.abandons hu deed abandons
    refine ⟨goes, fun l => ?_⟩
    have := counts l
    have := counted l
    rw [share_cons]
    omega

/-- A shutdown that is about to drain the ring discards what it finds there, each item once, and has
counted all of it when it is over. -/
theorem Reachable.emptied (h : w.Reachable) {rest : List (Op α)} (got : w.threads[index]? = some t)
    (ops : t.ops = .shutDown p (.call .drain) :: rest) {pick : Nat}
    (turn : w.turn index pick = some v) {u : World α} (later : v.Later u) :
    (∃ turns s op front, v.During index turns u ∧ u.threads[index]? = some s ∧
        s.ops = op :: (front ++ rest) ∧ op.OfCall) ∨
      ∃ turns x s, v.During index turns x ∧ x.Later u ∧ x.threads[index]? = some s ∧ s.ops = rest ∧
        u.Emptied p (w.store.ring p) turns := by
  have ht := List.mem_of_getElem? got
  have hop : .shutDown p (.call .drain) ∈ t.ops := by simp [ops]
  obtain ⟨e, took, deed⟩ := took_of_turn_of_firm h.orderly got ops (Op.OfCall.firm trivial) turn
  have hv : v.Reachable := .next h (.turn index pick turn)
  have down : v.store.IsDown p := took.isDown (h.closed.closes t ht _ hop)
  have empty : v.store.ring p = [] :=
    took.store ▸ deed.ring_of_draining (by simp [Op.draining])
  obtain ⟨notes, s, gotv, opsv⟩ : e.notes = (w.store.ring p).map (.discarded p) ∧
      ∃ s, v.threads[index]? = some s ∧
        s.ops = .shutDown p (.call (.announce (.drained (w.store.ring p)))) :: rest := by
    have left := took.left
    cases deed with
    | jobAdded submits | freeJobAdded submits => cases submits
    | drained _ pool ring found valid _ capacity =>
        rw [Store.ring_eq found]
        refine ⟨rfl, left fun op more hops => ?_⟩
        cases hops
        rfl
  obtain ⟨turns, x, during, later', hend⟩ := later.during index
  obtain ⟨s, front, got', ops', abandons, counted⟩ := during.abandons hv gotv opsv
  cases front with
  | cons op front =>
      have mine := abandons.head.1
      rcases hend with rfl | done
      · exact .inl ⟨turns, s, op, front, during, got', ops', mine⟩
      · exact absurd mine (done s op _ got' ops')
  | nil =>
      have hx := hv.later during.later
      have counted : ∀ l, share (fun w => (w.counts l true : Int)) turns =
          (w.store.ring p).countP (Item.tells l) := fun l => by simpa using counted l
      refine .inr ⟨turns, x, s, during, later', got', ops', ?_, fun item hitem => ?_, counted,
        fun item hitem l told => ?_⟩
      · exact (later.shut hv down).2.elim (fun same => same.trans empty) id
      · have recorded : Recorded v.history (.discarded p item) :=
          took.recorded.mpr (.inl (notes ▸ List.mem_map_of_mem hitem))
        exact (hv.later later).discards_of_recorded (recorded.mono (later.history_subset hv))
      · obtain ⟨ticket, ticketed, part⟩ := h.known.store.ring p item hitem
        have grown : share (fun w => (w.counts l true : Int)) turns ≤ x.counts l true :=
          during.share_le hv (f := fun w => w.counts l true) (fun _ _ => rfl)
            fun _ _ _ _ _ _ _ took => by
              rw [took.counts]
              exact Nat.le_add_left _ _
        have positive : 0 < (w.store.ring p).countP (Item.tells l) :=
          List.countP_pos_iff.mpr ⟨item, hitem, by simp [Item.tells, told]⟩
        have := counted l
        obtain ⟨latch, found, failed⟩ := hx.failed_of_counts
          ((ticketed.mono took.history_subset).mono (during.later.history_subset hv))
          (part.latch ▸ told) (by omega)
        obtain ⟨latch', found', grows⟩ := later'.latch hx found
        exact ⟨latch', found', grows.failed failed⟩

/-! ### Where no thread can take a turn -/

theorem sum_map_eq_countP {β : Type} {f : β → Nat} {P : β → Bool} {l : List β}
    (h : ∀ x ∈ l, f x = if P x then 1 else 0) : (l.map f).sum = l.countP P := by
  induction l with
  | nil => rfl
  | cons x l ih =>
      rw [List.map_cons, List.sum_cons, List.countP_cons, h x List.mem_cons_self,
        ih fun y hy => h y (List.mem_cons_of_mem x hy), Nat.add_comm]

section Quiescent

variable (quiet : w.Quiescent) (h : w.Reachable) (down : w.store.IsDown p)

include quiet h

/-- A worker that is inside has the item to settle that it performs. -/
theorem Quiescent.due_of_inside (ht : t ∈ w.threads) {front : List (Op α)} {i : Nat}
    {phase : WorkerPhase} (ops : t.ops = front ++ [.work p i phase])
    (inside : t.ops.any Op.inside = true) : Op.dues p (.work p i phase : Op α) = 1 := by
  have stack := h.orderly.ordered t ht
  have hop : .work p i phase ∈ t.ops := by simp [ops]
  have calm := quiet.not_urgent h ht hop
  rw [Op.dues_work, if_pos rfl]
  cases phase with
  | start | begin => exact absurd trivial calm
  | running | finish => rfl
  | receive call =>
      rcases List.eq_nil_or_concat front with rfl | ⟨front, last, rfl⟩
      · simp [ops, Op.inside] at inside
      rw [List.concat_eq_append] at ops
      rw [ops, Op.leads_append, Op.leads_append] at stack
      have duty := h.dutiful.ops t ht
      rw [ops, Op.along_append, Op.along_append] at duty
      rcases stack.1.2.1.of_receive with urgent | ⟨l, job, succeeded, rfl⟩
      · exact absurd urgent (quiet.not_urgent h ht (by simp [ops]))
      · exact absurd rfl (Op.onDuty_running.mp duty.1.2.1 p i call)

include down

/-- Nobody sleeps before the ring of a pool that is down. -/
theorem Quiescent.awake_of_down (ht : t ∈ w.threads) : t.sleepsAt ≠ some (.intake p) := by
  intro sleeps
  obtain ⟨op, hhead, asleep⟩ := Option.bind_eq_some_iff.mp sleeps
  obtain ⟨rest, ops⟩ := List.head?_eq_some_iff.mp hhead
  have held := quiet.held h ht ops asleep
  obtain ⟨above, behind, -, before⟩ := (h.orderly.ordered t ht).before (ops ▸ List.mem_cons_self)
  have proper := before.proper
  have hup : ∀ {q : Nat} {pool : Pool}, q = p → w.store.pools[q]? = some pool →
      pool.isDown = false → False := by
    rintro q pool rfl found up
    obtain ⟨pool', found', hdown⟩ := down
    obtain rfl := Option.some.inj (found.symm.trans found')
    rw [hdown] at up
    cases up
  cases op with
  | submit sub phase =>
      cases phase with
      | send call =>
          cases call with
          | send item stage =>
              simp only [Op.sleepsAt, Option.ite_none_right_eq_some, Option.some.injEq,
                Bell.intake.injEq] at asleep
              obtain ⟨pool, found, up, -⟩ := held
              exact hup asleep.2 found up
          | receive stage => exact proper
          | _ => cases asleep
      | _ => cases asleep
  | work q i phase =>
      cases phase with
      | receive call =>
          cases call with
          | receive stage =>
              simp only [Op.sleepsAt, Option.ite_none_right_eq_some, Option.some.injEq,
                Bell.intake.injEq] at asleep
              obtain ⟨pool, found, up, -⟩ := held
              exact hup asleep.2 found up
          | send item stage => exact proper
          | _ => cases asleep
      | _ => cases asleep
  | monitor | channel | latch | backlog => simp [Op.sleepsAt] at asleep
  | _ => cases asleep

/-- Whoever has an item of a pool that is down to settle is a worker that performs it. -/
theorem Quiescent.performs_of_due (ht : t ∈ w.threads) {op : Op α} (hop : op ∈ t.ops)
    (due : op.dues p ≠ 0) : ∃ i phase, op = .work p i phase ∧ t.who = .worker p i := by
  have calm := quiet.not_urgent h ht hop
  cases op with
  | submit sub phase =>
      cases phase with
      | send call =>
          cases call with
          | send item stage =>
              obtain rfl : sub.pool = p := by
                by_contra apart
                exact due (if_neg apart)
              cases stage with
              | asleep =>
                  obtain ⟨rest, ops⟩ := (h.orderly.ordered t ht).asleep hop rfl
                  refine absurd ?_ (quiet.awake_of_down h down ht)
                  rw [Thread.sleepsAt, ops]
                  rfl
              | arriving | woken => exact absurd rfl calm
          | offer => exact absurd rfl calm
          | _ => exact absurd rfl due
      | _ => exact absurd trivial calm
  | work q i phase =>
      obtain rfl : q = p := by
        by_contra apart
        exact due ((Op.dues_work p q i phase).trans (if_neg apart))
      obtain ⟨above, rest, -, before⟩ := (h.orderly.ordered t ht).before hop
      exact ⟨i, phase, rfl, before.self⟩
  | shutDown q phase => exact absurd trivial calm
  | backlog q call =>
      cases call with
      | leave => exact absurd rfl calm
      | _ => exact absurd rfl due
  | _ => exact absurd rfl due

/-- Who is inside has one item to settle, and everybody else has none. -/
theorem Quiescent.dues_of_down (ht : t ∈ w.threads) : (t.ops.map (Op.dues p)).sum =
    if t.who.worksFor p && t.ops.any Op.inside then 1 else 0 := by
  have stack := h.orderly.ordered t ht
  rcases List.eq_nil_or_concat t.ops with ops | ⟨front, last, ops⟩
  · simp [ops]
  rw [List.concat_eq_append] at ops
  have hlast : last ∈ t.ops := by simp [ops]
  have hfront : (front.map (Op.dues p)).sum = 0 := by
    refine sum_map_eq_zero fun op hop => ?_
    by_contra due
    obtain ⟨i, phase, rfl, -⟩ := quiet.performs_of_due h down ht (by simp [ops, hop]) due
    rw [ops, Op.leads_append] at stack
    obtain ⟨above, rest, -, before⟩ := stack.1.before hop
    exact absurd before.alone (by simp)
  have hsum : (t.ops.map (Op.dues p)).sum = last.dues p := by
    simp [ops, hfront]
  rw [hsum]
  split
  · rename_i hinside
    obtain ⟨works, inside⟩ := Bool.and_eq_true_iff.mp hinside
    obtain ⟨i, hwho⟩ := Who.worksFor_iff.mp works
    rw [ops, Op.leads_append, hwho] at stack
    obtain ⟨phase, rfl⟩ := stack.2.1.last
    exact quiet.due_of_inside h ht ops inside
  · rename_i outside
    by_contra due
    obtain ⟨i, phase, rfl, who⟩ := quiet.performs_of_due h down ht hlast due
    rcases quiet.worker_cases h ht who with ⟨ended, -⟩ | ⟨-, up, -⟩ | inside
    · simp [ops] at ended
    · exact up down
    · exact outside (by simp [who, Who.worksFor, inside])

theorem Quiescent.released : w.Released p := by
  refine ⟨fun t ht => quiet.awake_of_down h down ht, fun t ht i who => ?_, ?_⟩
  · rcases quiet.worker_cases h ht who with ⟨ended, -⟩ | ⟨-, up, -⟩ | inside
    · exact .inl (List.isEmpty_iff.mpr ended)
    · exact absurd down up
    · exact .inr inside
  · rw [h.backlog_eq p, quiet.ring_of_down h down, List.length_nil, Nat.zero_add]
    exact sum_map_eq_countP fun t ht => quiet.dues_of_down h down ht

end Quiescent

/-- The shutdown of a pool is final and releases everybody. From the turn that takes the pool down
no item goes into its ring and none from there to a worker. A shutdown that drains the ring goes on
to settle what it has found there; when it is over, the ring is empty for good, and all that was
found has been discarded, each item once, and counted as failed once. And wherever no thread can
take a turn, nobody sleeps before the ring, and there are no workers left but those inside a
function, which the backlog counts. -/
theorem Reachable.shutdown_final (h : w.Reachable) (down : w.store.IsDown p) (later : w.Later v) :
    (v.history.filter (Entry.moves p) = w.history.filter (Entry.moves p) ∧
      (v.store.ring p = w.store.ring p ∨ v.store.ring p = [])) ∧
    (∀ index pick t rest x u, v.threads[index]? = some t →
      t.ops = .shutDown p (.call .drain) :: rest → v.turn index pick = some x → x.Later u →
      (∃ turns s op front, x.During index turns u ∧ u.threads[index]? = some s ∧
          s.ops = op :: (front ++ rest) ∧ op.OfCall) ∨
        ∃ turns y s, x.During index turns y ∧ y.Later u ∧ y.threads[index]? = some s ∧
          s.ops = rest ∧ u.Emptied p (v.store.ring p) turns) ∧
    (v.Quiescent → v.Released p) := by
  have hv := h.later later
  exact ⟨later.shut h down, fun index pick t rest x u got ops turn later' =>
    hv.emptied got ops turn later', fun quiet => quiet.released hv (later.isDown h down)⟩

/-- A shutdown is about to drain the ring of a pool. There lies an item that somebody may wait for,
and the only worker is inside a function that stands before a gate. -/
def closing : World Unit :=
  ((follow 40 [
    .newPool "p" (.given { capacity := 1, threads := some 1, name := "p" }),
    .onPool "p" (.submit (.link [.passGate "g"] false) none .holding),
    .onPool "p" (.submit (.link [] true) (some "t") .holding)] (.start [])).issue
      (.onPool "p" .shutDown)).settle 3 4

theorem shutdown_final_of_closing :
    closing.store.IsDown 0 ∧ (closing.store.ring 0).map (·.id) = [2] ∧
      (∃ turns, (closing.settle 6 4).Emptied 0 (closing.store.ring 0) turns) ∧
      (closing.settle 40 4).Quiescent ∧ (closing.settle 40 4).Released 0 ∧
      (closing.settle 40 4).insiders 0 = 1 := by
  have reachable : closing.Reachable :=
    reachable_settle (.next (reachable_follow 40 _ (.start [])) (.issue _ _)) 3 4
  have flag : closing.store.pools[0]?.map (·.isDown) = some true := by decide
  have down : closing.store.IsDown 0 := Option.map_eq_some_iff.mp flag
  have due : closing.threads[4]?.map (·.ops) = some (.shutDown 0 (.call .drain) ::
      [.answer (.ok .nothing), .release 0]) := rfl
  have last : (closing.settle 6 4).threads[4]?.map (·.ops) =
      some [.answer (.ok .nothing), .release 0] := rfl
  obtain ⟨t, got, ops⟩ := Option.map_eq_some_iff.mp due
  obtain ⟨t', got', ops'⟩ := Option.map_eq_some_iff.mp last
  have turn : closing.turn 4 0 = some (closing.settle 1 4) := rfl
  have later : (closing.settle 1 4).Later (closing.settle 6 4) :=
      later_settle (closing.settle 1 4) 5 4
  have quiet : (closing.settle 40 4).Quiescent := by decide
  refine ⟨down, by decide, ?_, quiet, ?_, by decide⟩
  · obtain ⟨-, drains, -⟩ := reachable.shutdown_final down .refl
    rcases drains 4 0 t _ _ _ got ops turn later with
      ⟨-, s, op, front, -, got'', hops, -⟩ | ⟨turns, y, s, -, -, -, -, emptied⟩
    · obtain rfl := Option.some.inj (got'.symm.trans got'')
      rw [ops'] at hops
      have := congrArg List.length hops
      simp at this
    · exact ⟨turns, emptied⟩
  · exact (reachable.shutdown_final down (later_settle closing 40 4)).2.2 quiet

end World

end WorkerPool
