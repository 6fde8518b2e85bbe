import WorkerPool.Proofs.Balance
import WorkerPool.Proofs.Fate
import WorkerPool.Proofs.Later

/-! The completions that a latch counts. A member of a submission is completed when all its
functions have returned, and lost when one of them has panicked or when it was discarded or refused;
both are read off the calls that were made on its account. The main result is that the latch of a
submission has been counted on once for each member, as a success for those that are completed and
as a failure for those that are lost or given up, that every such count has an effect, and that what
remains is the number of members that have not been counted yet. -/

namespace WorkerPool

variable {α : Type}

/-! ### The end of an item -/

/-- Whether an item has come to its end, and whether that was a bad one. -/
def Lot.failed? : Lot → Option Bool
  | .performed .. | .finished .. => some false
  | .panicked .. | .refused .. | .discarded .. => some true
  | _ => none

/-- Whether an item has been performed and its end has not been told of yet. -/
def Lot.untold : Lot → Bool
  | .performed .. => true
  | _ => false

namespace Course

variable {p id : Nat} {h : List (Who × Entry)} {lot : Lot}

/-- The end of an item is recorded once, but for an item that was performed and not told of yet. -/
theorem ended_eq (course : Course p id h lot) (failed : Bool) :
    (h.map (Entry.ended p [id] failed)).sum + (if lot.untold ∧ failed = false then 1 else 0) =
      if lot.failed? = some failed then 1 else 0 := by
  induction course with
  | unknown => simp [Lot.untold, Lot.failed?]
  | issued who issue item named given =>
      cases who <;> simp [Lot.untold, Lot.failed?, Entry.ended]
  | @pushed h who item before ih =>
      cases who <;> simpa [Lot.untold, Lot.failed?, Entry.ended] using ih
  | @taken h item index before ih => simpa [Lot.untold, Lot.failed?, Entry.ended] using ih
  | started before ih => simpa [Lot.untold, Lot.failed?, Entry.ended] using ih
  | @refused h who item before ih =>
      have hid : item.id = _ := before.id_eq rfl
      cases failed <;> cases who <;> simpa [Lot.untold, Lot.failed?, Entry.ended, hid] using ih
  | @discarded h item who before ih =>
      have hid : item.id = _ := before.id_eq rfl
      cases failed <;> cases who <;> simpa [Lot.untold, Lot.failed?, Entry.ended, hid] using ih
  | performed before ih =>
      cases failed <;> simpa [Lot.untold, Lot.failed?] using ih
  | finished before ih =>
      cases failed <;> simpa [Lot.untold, Lot.failed?, Entry.ended, Nat.add_comm] using ih
  | panicked payload before ih =>
      cases failed <;> simpa [Lot.untold, Lot.failed?, Entry.ended, Nat.add_comm] using ih

/-- A bad end that no worker has had a part in is recorded. -/
theorem dropped_mem (course : Course p id h lot) {who : Who} {item : Item}
    (dropped : lot = .refused who item ∨ lot = .discarded who item) :
    (who, Entry.refused p item) ∈ h ∨ (who, Entry.discarded p item) ∈ h := by
  rcases dropped with rfl | rfl
  · cases course with
    | refused before => exact .inl List.mem_cons_self
  · cases course with
    | discarded _ before => exact .inr List.mem_cons_self

end Course

/-- What is told of the end of an item is about this item. -/
theorem Entry.ended_eq_zero {p id : Nat} {x : Who × Entry} (h : Entry.concerns p id x = false)
    (failed : Bool) : Entry.ended p [id] failed x = 0 := by
  unfold Entry.ended
  split <;> first
    | rfl
    | rw [ite_eq_right_iff]
      rintro ⟨-, rfl⟩
      exact List.count_eq_zero_of_not_mem (by simpa [Entry.concerns] using h)

/-- How many of these items have been performed and not told of yet. -/
def untolds (lots : Multiset Lot) : Nat :=
  lots.countP fun lot => lot.untold = true

@[simp] theorem untolds_zero : untolds 0 = 0 := rfl

@[simp] theorem untolds_add (m n : Multiset Lot) : untolds (m + n) = untolds m + untolds n :=
  Multiset.countP_add _ _ _

@[simp] theorem untolds_singleton (lot : Lot) :
    untolds {lot} = if lot.untold = true then 1 else 0 := by
  rw [untolds, ← Multiset.cons_zero, Multiset.countP_cons, Multiset.countP_zero, Nat.zero_add]

theorem Op.ended_eq_untolds (p id : Nat) (who : Who) (op : Op α) :
    op.ended p [id] false = untolds (op.lots p id who) := by
  have hnone : ∀ (c : Prop) [Decidable c] (lot : Lot), lot.untold = false →
      0 = untolds (if c then {lot} else 0) := by
    intro c _ lot hlot
    split <;> simp [hlot]
  cases op with
  | submit sub phase =>
      simp only [lots]
      cases phase.item? with
      | none => rfl
      | some item => exact hnone _ _ rfl
  | work q i phase =>
      cases phase with
      | start => rfl
      | receive call =>
          cases call with
          | announce reply =>
              cases reply with
              | received item =>
                  cases item with
                  | none => rfl
                  | some item => exact hnone _ _ rfl
              | _ => rfl
          | _ => rfl
      | begin item => exact hnone _ _ rfl
      | running item panic => exact hnone _ _ rfl
      | finish item succeeded =>
          cases succeeded with
          | false => rfl
          | true =>
              by_cases hq : q = p
              · by_cases hid : item.id = id
                · simp [ended, lots, hq, hid, Lot.untold]
                · simp [ended, lots, hq, hid, Ne.symm hid]
              · simp [ended, lots, hq]
  | _ => rfl

namespace World

variable {w v : World α} {index : Nat} {t : Thread α} {old tail : List (Op α)} {e : Effect α}

/-- All functions of the item that was submitted with this id have been called, and each has
returned. -/
def Completed (w : World α) (p id : Nat) : Prop :=
  ∃ (i : Nat) (item : Item), item.id = id ∧ item.Known w.history p ∧
    w.CompletedBy (.worker p i) (.item p id) item.job.programs

/-- A function of the item that was submitted with this id has panicked, or nobody performs it any
more because it was discarded or refused. -/
def Lost (w : World α) (p id : Nat) : Prop :=
  (∃ (i : Nat) (item : Item), item.id = id ∧ item.Known w.history p ∧
    w.SpoiltBy (.worker p i) (.item p id) item.job.programs) ∨
  ∃ item : Item, item.id = id ∧ item.Dropped w.history p

theorem load_ended (w : World α) (p id : Nat) (failed : Bool) :
    w.load (fun _ => Op.ended p [id] failed) =
      if failed = false then untolds (w.lots p id) else 0 := by
  cases failed with
  | true =>
      refine load_eq_zero _ fun u hu op hop => ?_
      unfold Op.ended
      split <;> simp
  | false =>
      have hring : untolds (w.store.ringLots p id) = 0 := by
        refine Multiset.countP_eq_zero.mpr fun lot hlot => ?_
        obtain ⟨item, -, rfl⟩ := List.mem_map.mp (Multiset.mem_coe.mp hlot)
        simp [Lot.untold]
      have hsum : ∀ {β : Type} (f : β → Multiset Lot) (l : List β),
          untolds (l.map f).sum = (l.map fun x => untolds (f x)).sum := by
        intro β f l
        induction l with
        | nil => rfl
        | cons x l ih =>
            rw [List.map_cons, List.sum_cons, untolds_add, ih, List.map_cons, List.sum_cons]
      rw [if_pos rfl, World.lots, untolds_add, hring, Nat.add_zero, World.load, World.load,
        World.total, World.total, hsum]
      simp only [hsum, ← Op.ended_eq_untolds]

/-- An item has come to its end once, well or not, as its lot says. -/
theorem ended_eq {p id : Nat} {lot : Lot} (course : Course p id (w.course p id) lot)
    (held : w.lots p id = lot.held) (failed : Bool) :
    w.ended p [id] failed = if lot.failed? = some failed then 1 else 0 := by
  have hcourse : (w.history.map (Entry.ended p [id] failed)).sum =
      ((w.course p id).map (Entry.ended p [id] failed)).sum := by
    rw [World.course]
    induction w.history with
    | nil => rfl
    | cons x h ih =>
        rw [List.map_cons, List.sum_cons, List.filter_cons, ih]
        split
        · rw [List.map_cons, List.sum_cons]
        · rename_i hx
          rw [Entry.ended_eq_zero (by simpa using hx) failed, Nat.zero_add]
  have hheld : untolds lot.held = if lot.untold then 1 else 0 := by
    cases lot <;> simp [Lot.held, Lot.untold]
  rw [World.ended, load_ended, hcourse, held, hheld, ← course.ended_eq failed, Nat.add_comm]
  cases failed <;> simp

theorem ended_nil (w : World α) (p : Nat) (failed : Bool) : w.ended p [] failed = 0 := by
  rw [World.ended, load_eq_zero _ fun u hu op hop => ?_, Nat.zero_add]
  · refine sum_map_eq_zero fun x hx => ?_
    unfold Entry.ended
    split <;> simp
  · unfold Op.ended
    split <;> simp

theorem ended_cons (w : World α) (p id : Nat) (ids : List Nat) (failed : Bool) :
    w.ended p (id :: ids) failed = w.ended p [id] failed + w.ended p ids failed := by
  have hcount : ∀ (c : Prop) [Decidable c] (x : Nat), (if c then (id :: ids).count x else 0) =
      (if c then [id].count x else 0) + if c then ids.count x else 0 := by
    intro c _ x
    split
    · rw [← List.singleton_append, List.count_append]
    · rfl
  have hops : (Op.ended p (id :: ids) failed : Op α → Nat) = fun op =>
      op.ended p [id] failed + op.ended p ids failed := by
    funext op
    unfold Op.ended
    split
    · exact hcount _ _
    · rfl
  have hentries : Entry.ended p (id :: ids) failed = fun x =>
      Entry.ended p [id] failed x + Entry.ended p ids failed x := by
    funext x
    unfold Entry.ended
    split <;> first | exact hcount _ _ | rfl
  simp only [World.ended, World.load, World.total, hops, hentries, List.sum_map_add]
  omega

/-- As many items have come to their end as there are ids of such items. -/
theorem ended_eq_countP {p : Nat} {failed : Bool} {P : Nat → Prop} [DecidablePred P]
    (h : ∀ id, w.ended p [id] failed = if P id then 1 else 0) (ids : List Nat) :
    w.ended p ids failed = ids.countP fun id => P id := by
  induction ids with
  | nil => exact w.ended_nil p failed
  | cons id ids ih =>
      rw [ended_cons, h, ih, List.countP_cons, Nat.add_comm]
      simp

/-! ### Good ends and bad ends -/

/-- A performance that is through has not been begun and ended otherwise. -/
theorem CompletedBy.not_spoiltBy {who who' : Who} {o : Origin} {programs programs' : List Program}
    (completed : w.CompletedBy who o programs) : ¬w.SpoiltBy who' o programs' := by
  rintro ⟨done, program, later, -, spoilt⟩
  have haccount := completed.trail.reverse_eq.symm.trans spoilt.trail.reverse_eq
  have hnever : ∀ (who : Who) (position : Nat) (programs : List Program),
      (who', Entry.raised o done.length) ∉ o.account who position programs := by
    intro who position programs
    induction programs generalizing position with
    | nil => exact List.not_mem_nil
    | cons program programs ih => simpa [Origin.account] using ih (position + 1)
  refine hnever who 0 programs ?_
  have hmem : (who', Entry.raised o done.length) ∈
      Performance.account o (.spoilt who' done program later) := by
    simp [Performance.account]
  rw [← haccount] at hmem
  exact hmem

/-- Only an item that a worker has taken is performed. -/
theorem Reachable.begun_lot (h : w.Reachable) {p id : Nat} {lot : Lot}
    (course : Course p id (w.course p id) lot) (held : w.lots p id = lot.held) {state : Performance}
    (stands : w.Stands (.item p id) state) (begun : state ≠ .idle) (gone : state.parts = 0) :
    ∃ i item, lot = .performed i item ∨ lot = .finished i item ∨ lot = .panicked i item := by
  obtain ⟨who, hmem⟩ := stands.begun begun
  obtain ⟨i, item, -, hlot⟩ := course.of_started hmem
  refine ⟨i, item, hlot.resolve_left ?_⟩
  rintro rfl
  obtain ⟨state', stands', active⟩ := h.accounts course held
  have hparts := stands.left.symm.trans stands'.left
  rw [gone] at hparts
  cases state' <;> simp [Performance.parts] at hparts <;> exact active.elim

/-- What a worker has taken was submitted. -/
theorem Reachable.known_of_lot (h : w.Reachable) {p id : Nat} {lot : Lot}
    (course : Course p id (w.course p id) lot) {i : Nat} {item : Item}
    (hitem : lot.item? = some item)
    (hworker : lot.worker? = some i) : item.Known w.history p :=
  (h.known.entries _ _ (List.mem_of_mem_filter (course.taken_mem hitem hworker))).2

theorem Reachable.completed_iff (h : w.Reachable) {p id : Nat} {lot : Lot}
    (course : Course p id (w.course p id) lot) (held : w.lots p id = lot.held) :
    w.Completed p id ↔ lot.failed? = some false := by
  have accounts := h.accounts course held
  constructor
  · rintro ⟨i, item, -, -, completed⟩
    obtain ⟨i', item', rfl | rfl | rfl⟩ := h.begun_lot course held completed nofun rfl
    · rfl
    · rfl
    · exact absurd accounts completed.not_spoiltBy
  · intro hlot
    cases lot with
    | performed i item | finished i item =>
        exact ⟨i, item, course.id_eq rfl, h.known_of_lot course rfl rfl, accounts⟩
    | _ => cases hlot

theorem Reachable.lost_iff (h : w.Reachable) {p id : Nat} {lot : Lot}
    (course : Course p id (w.course p id) lot) (held : w.lots p id = lot.held) :
    w.Lost p id ↔ lot.failed? = some true := by
  have accounts := h.accounts course held
  constructor
  · rintro (⟨i, item, -, -, spoilt⟩ | ⟨item, rfl, ⟨who, hmem⟩ | ⟨who, hmem⟩⟩)
    · have ended := spoilt
      obtain ⟨done, program, later, -, stands⟩ := ended
      obtain ⟨i', item', rfl | rfl | rfl⟩ := h.begun_lot course held stands nofun rfl
      · exact absurd spoilt (CompletedBy.not_spoiltBy accounts)
      · exact absurd spoilt (CompletedBy.not_spoiltBy accounts)
      · rfl
    · have hcourse := mem_course hmem
        (show Entry.concerns p item.id _ = true by simp [Entry.concerns])
      rw [course.eq_discarded hcourse]
      rfl
    · have hcourse := mem_course hmem
        (show Entry.concerns p item.id _ = true by simp [Entry.concerns])
      rw [course.eq_refused hcourse]
      rfl
  · intro hlot
    have hdropped : ∀ {who : Who} {item : Item}, lot = .refused who item ∨ lot = .discarded who item →
        item.id = id → w.Lost p id := by
      intro who item hlot hid
      refine .inr ⟨item, hid, ?_⟩
      rcases course.dropped_mem hlot with hmem | hmem
      · exact .inr ⟨who, List.mem_of_mem_filter hmem⟩
      · exact .inl ⟨who, List.mem_of_mem_filter hmem⟩
    cases lot with
    | panicked i item =>
        exact .inl ⟨i, item, course.id_eq rfl, h.known_of_lot course rfl rfl, accounts⟩
    | refused who item => exact hdropped (.inl rfl) (course.id_eq rfl)
    | discarded who item => exact hdropped (.inr rfl) (course.id_eq rfl)
    | _ => cases hlot

open Classical in
/-- As many members have come to a good end as are completed, and to a bad one as are lost. -/
theorem Reachable.ended_members (h : w.Reachable) (p : Nat) (ids : List Nat) :
    w.ended p ids false = ids.countP (fun id => w.Completed p id) ∧
      w.ended p ids true = ids.countP (fun id => w.Lost p id) := by
  constructor
  · refine ended_eq_countP (fun id => ?_) ids
    obtain ⟨lot, course, held⟩ := h.course p id
    rw [ended_eq course held]
    exact if_congr (h.completed_iff course held).symm rfl rfl
  · refine ended_eq_countP (fun id => ?_) ids
    obtain ⟨lot, course, held⟩ := h.course p id
    rw [ended_eq course held]
    exact if_congr (h.lost_iff course held).symm rfl rfl

end World

/-! ### What remains -/

section Deeds

variable {around : Around} {s : Store α} {who : Who} {old : List (Op α)} {e : Effect α}

/-- Only a count on a latch is recorded as one. -/
theorem Deed.counts_kept {op : Op α} (deed : Deed around s who op e) {l : Nat}
    (apart : ∀ call waiter, op ≠ .latch l call waiter) (failed : Bool) :
    (e.notes.map (Entry.counts l failed)).sum = 0 := by
  refine sum_map_eq_zero fun note hnote => ?_
  rcases deed.writes hnote with plain | writes
  · exact (plain.ended l 0 [] failed who).1
  · cases writes with
    | counted k verdict =>
        refine if_neg ?_
        rintro ⟨rfl, -⟩
        exact apart _ _ rfl
    | _ => rfl

/-- What is found before and after one element has been set. -/
theorem eq_of_set {β : Type} {xs ys : List β} {i : Nat} {x y x' y' : β} (found : xs[i]? = some x)
    (found' : ys[i]? = some y) (was : xs[i]? = some x') (set : ys = xs.set i y') :
    x' = x ∧ y' = y := by
  refine ⟨Option.some.inj (was.symm.trans found), ?_⟩
  rw [set, List.getElem?_set_self (List.getElem?_eq_some_iff.mp was).1] at found'
  exact Option.some.inj found'

/-- A count on a latch takes one off it, unless it starts the continuation, and the end of the
continuation takes off that one. -/
theorem Deed.total_call {l : Nat} {call : Latch.Call} {waiter : Waiter}
    (deed : Deed around s who (.latch l call waiter) e) {latch latch' : Latch}
    (found : s.latches[l]? = some latch) (found' : e.store.latches[l]? = some latch') {b : Nat}
    (composed : latch.Composed (Op.runs l (.latch l call waiter : Op α) + b)) :
    latch'.value.remaining + (e.notes.map (Entry.counts l false)).sum +
        (e.notes.map (Entry.counts l true)).sum + Op.runs l (.latch l call waiter : Op α) =
      latch.value.remaining + (e.ops.map (Op.runs l)).sum := by
  have hsame : e.store.latches = s.latches → latch' = latch := by
    intro h
    rw [h, found] at found'
    exact (Option.some.inj found').symm
  cases deed with
  | jobAdded submits | freeJobAdded submits => cases submits
  | countSkipped _ m verdict job hfound counts last held spoilt =>
      obtain ⟨rfl, rfl⟩ := eq_of_set found found' hfound rfl
      cases verdict <;> simp [Op.runs, Entry.counts, last]
  | countStarted _ m job hfound counts last held sound =>
      obtain ⟨rfl, rfl⟩ := eq_of_set found found' hfound rfl
      simp [Op.runs, Op.perform, Entry.counts]
  | counted _ m verdict hfound counts plain =>
      have hruns : ((if m.value.remaining = 1 then [.latch l .announce .nobody] else [] :
          List (Op α)).map (Op.runs l)).sum = 0 := by
        split <;> rfl
      obtain ⟨rfl, rfl⟩ := eq_of_set found found' hfound rfl
      simp only [Latch.counts, Bool.not_eq_true', Bool.or_eq_false_iff, beq_eq_false_iff_ne]
        at counts
      rw [hruns]
      cases verdict <;> simp only [Op.runs, Entry.counts, List.map_cons, List.map_nil,
        List.sum_cons, List.sum_nil, and_self, and_false, reduceCtorEq, if_true, if_false] <;> omega
  | continued _ m job succeeded hfound =>
      have hruns : ((if m.value.remaining - 1 = 0 then [.latch l .announce .nobody] else [] :
          List (Op α)).map (Op.runs l)).sum = 0 := by
        split <;> rfl
      obtain ⟨rfl, rfl⟩ := eq_of_set found found' hfound rfl
      have hone := composed.runs
      simp only [Op.runs, if_true] at hone
      have hfinishing : m.value.finishing = true := by
        by_contra h
        rw [if_neg h] at hone
        omega
      have := (composed.last hfinishing).1
      rw [hruns]
      simp only [Op.runs, if_true, List.map_nil, List.sum_nil]
      omega
  | latchTerminated _ m hfound held idle =>
      obtain ⟨rfl, rfl⟩ := eq_of_set found found' hfound rfl
      rfl
  | poolReady _ m stage pool q name succeeded hfound awake verdict present =>
      rw [hsame rfl]
      cases s.names.pools.find? name <;> rfl
  | _ =>
      rw [hsame rfl]
      rfl

/-- The operation makes out a ticket of the pool `p` together with its latch. The latch of a job waits
for the job, that of a batch for its members and then has the finale to perform, and that of a batch
without members has nothing to wait for. -/
inductive Op.Founds (s : Store α) (e : Effect α) (p : Nat) : Op α → Ticket → Latch → Prop
  | job {op : Op α} {rest : List (Op α)} {asker : Asker} (submits : op.Submits rest asker)
      (pool : Pool) (job : Job) (issued : .issued p pool.nextId (.job job) ∈ e.notes) :
      Founds s e p op (.job pool.nextId (some s.latches.length)) (.expecting 1 none)
  | batch (command : Command α) (pool : Pool) (batch : Batch)
      (issued : .issued p pool.nextId (.batch batch) ∈ e.notes)
      (ahead : batch.finale.isSome → batch.members ≠ []) :
      Founds s e p (.command command)
        (.batch pool.nextId batch.size batch.waitable (some s.latches.length))
        (.expecting batch.size batch.finale)
  | emptyBatch (batch : Batch) (id : Nat) (asker : Asker) (succeeded : Bool) :
      Founds s e p (.construct (.submission p batch id asker) succeeded)
        (.batch id batch.size batch.waitable (some s.latches.length)) (.settled succeeded)

theorem Deed.founds {op : Op α} (deed : Deed around s who op e) {p l : Nat} {ticket : Ticket}
    (told : .ticketed p ticket ∈ e.notes) (hl : ticket.latch = some l) :
    ∃ latch, op.Founds s e p ticket latch ∧ e.store.latches = s.latches ++ [latch] := by
  cases deed with
  | commanded command eases leaves plain => exact (plain _ told).elim
  | acted origin position action program later eases leaves plain => exact (plain _ told).elim
  | accepted sub pool found through hands plain => exact (plain _ told).elim
  | refused sub pool found refuses plain => exact (plain _ told).elim
  | jobAdded submits place pool job found waitable =>
      obtain ⟨rfl, rfl⟩ : p = place ∧ ticket = _ := by simpa using told
      exact ⟨_, .job submits pool job List.mem_cons_self, rfl⟩
  | batchAdded command place pool batch name found counted ahead =>
      obtain ⟨rfl, rfl⟩ : p = place ∧ ticket = _ := by simpa using told
      exact ⟨_, .batch command pool batch List.mem_cons_self ahead, rfl⟩
  | batchSettled place pool batch id asker succeeded found =>
      obtain ⟨rfl, rfl⟩ : p = place ∧ ticket = _ := by simpa using told
      exact ⟨_, .emptyBatch batch id asker succeeded, rfl⟩
  | freeJobAdded submits place pool job found free =>
      obtain ⟨-, rfl⟩ : p = place ∧ ticket = _ := by simpa using told
      cases hl
  | freeBatchAdded command place pool batch name found bare free =>
      obtain ⟨-, rfl⟩ : p = place ∧ ticket = _ := by simpa using told
      cases hl
  | jobFinished place index pool item succeeded found => cases succeeded <;> simp at told
  | abandoned place pool items found =>
      dsimp only at told
      split at told <;> simp at told
  | _ => simp at told

theorem Act.founds (act : Act around s who old e) {p l : Nat} {ticket : Ticket}
    (told : .ticketed p ticket ∈ e.notes) (hl : ticket.latch = some l) :
    ∃ op latch, old = [op] ∧ op.Founds s e p ticket latch ∧
      e.store.latches = s.latches ++ [latch] := by
  obtain ⟨op, rfl, -, deed⟩ := act.written told not_false nofun
  obtain ⟨latch, founds, made⟩ := deed.founds told hl
  exact ⟨op, latch, rfl, founds, made⟩

/-- The latch of a ticket that is made out expects one completion for each member. -/
theorem Op.Founds.total {op : Op α} {p : Nat} {ticket : Ticket} {latch : Latch}
    (founds : op.Founds s e p ticket latch) {rest : List (Op α)} (before : op.Before who rest) :
    latch.value.remaining = ticket.size ∧ latch.value.finishing = false := by
  cases founds with
  | job submits pool job issued => exact ⟨rfl, rfl⟩
  | batch command pool batch issued ahead => exact ⟨rfl, rfl⟩
  | emptyBatch batch id asker succeeded =>
      have empty : batch.members = [] := before.finale.1
      exact ⟨by simp [Latch.settled, Ticket.size, Batch.size, empty], rfl⟩

theorem Op.Founds.apart {op : Op α} {p : Nat} {ticket : Ticket} {latch : Latch}
    (founds : op.Founds s e p ticket latch) (l : Nat) (call : Latch.Call) (waiter : Waiter) :
    op ≠ .latch l call waiter := by
  rintro rfl
  cases founds with
  | job submits => cases submits

end Deeds

namespace World

variable {w v : World α} {index : Nat} {t : Thread α} {old tail : List (Op α)} {e : Effect α}
  {p l : Nat} {ticket : Ticket}

theorem Took.counts (took : w.Took v index t old tail e) (l : Nat) (failed : Bool) :
    v.counts l failed = (e.notes.map (Entry.counts l failed)).sum + w.counts l failed := by
  simp [World.counts, took.history, List.sum_reverse, Function.comp_def]

theorem Took.total_kept (took : w.Took v index t old tail e) (l : Nat)
    (apart : ∀ call waiter, old ≠ [.latch l call waiter]) (failed : Bool) :
    v.counts l failed = w.counts l failed ∧ v.runs l = w.runs l ∧
      (l < w.store.latches.length → v.store.latches[l]? = w.store.latches[l]?) := by
  obtain ⟨b, hruns, hruns'⟩ := took.load_of_start (fun _ => Op.runs l)
    (fun _ op => op.runs_wake l) fun _ _ _ => rfl
  rw [took.counts, took.store, World.runs, World.runs, hruns, hruns']
  cases took.act with
  | deed deed quiet =>
      have apart : ∀ call waiter, _ ≠ _ := fun call waiter h =>
          apart call waiter (congrArg (fun op => [op]) h)
      rw [deed.counts_kept apart, deed.runs_kept apart, List.map_singleton, List.sum_singleton]
      exact ⟨Nat.zero_add _, rfl, fun there => deed.latch_kept there apart⟩
  | broke payload loose lands uncaught =>
      rw [sum_map_eq_zero fun note hnote => ?_, (lands.stakes l).2, List.map_append, List.sum_append,
        sum_map_eq_zero fun op hop => (loose op hop).plain.runs l]
      · exact ⟨Nat.zero_add _, by rw [Nat.zero_add], fun _ => rfl⟩
      · rcases lands.of_mem_notes hnote with ⟨origin, position, rfl⟩ | rfl <;> rfl

/-- The latch of a ticket that is made out in a turn is as the operation of the turn says. -/
theorem Took.founds (took : w.Took v index t old tail e) (told : .ticketed p ticket ∈ e.notes)
    (hl : ticket.latch = some l) {latch : Latch} (found : v.store.latches[l]? = some latch) :
    ∃ op, old = [op] ∧ op.Founds w.store e p ticket latch := by
  obtain ⟨op, latch', rfl, founds, made⟩ := took.act.founds told hl
  have fresh : l = w.store.latches.length := (took.act.tickets told told).2.2 l hl
  rw [took.store, made, fresh, List.getElem?_concat_length] at found
  obtain rfl := Option.some.inj found
  exact ⟨op, rfl, founds⟩

/-- What remains on the latch of a ticket and the counts that were made on it come to one for each
member; the last one is held while the continuation is performed. -/
theorem Reachable.total (h : w.Reachable) (recorded : Recorded w.history (.ticketed p ticket))
    (hl : ticket.latch = some l) {latch : Latch} (found : w.store.latches[l]? = some latch) :
    latch.value.remaining + w.counts l false + w.counts l true = ticket.size + w.runs l := by
  suffices hall : w.Reachable → Recorded w.history (.ticketed p ticket) → ∀ latch,
      w.store.latches[l]? = some latch → latch.value.remaining + w.counts l false +
        w.counts l true = ticket.size + w.runs l from hall h recorded latch found
  clear recorded found
  refine h.induct (P := fun w => w.Reachable → Recorded w.history (.ticketed p ticket) → ∀ latch,
    w.store.latches[l]? = some latch → latch.value.remaining + w.counts l false +
      w.counts l true = ticket.size + w.runs l) ?_
    (fun w command reachable ih _ recorded latch found => ?_)
    fun w v index t old tail e reachable took ih reachable' recorded latch' found' => ?_
  · rintro cells - ⟨who, hmem⟩
    cases hmem
  · have hruns : (w.issue command).runs l = w.runs l := load_issue _ w command
    rw [hruns]
    exact ih reachable recorded latch found
  · rcases took.recorded.mp recorded with hnote | recorded'
    · obtain ⟨op, rfl, founds⟩ := took.founds hnote hl found'
      obtain ⟨expects, idle⟩ := founds.total (took.leads reachable.orderly).1.1
      have absent : w.store.latches.length ≤ l :=
        Nat.le_of_eq ((took.act.tickets hnote hnote).2.2 l hl).symm
      have apart : ∀ call waiter, [op] ≠ [.latch l call waiter] := fun call waiter h =>
        founds.apart l call waiter (List.cons.inj h).1
      rw [(took.total_kept l apart false).1, (took.total_kept l apart true).1,
        (reachable.counts_absent absent false).1, (reachable.counts_absent absent true).1,
        (reachable'.tallied.composed l latch' found').runs, expects, idle]
      simp
    · have there := reachable.known.store.latches p ticket l recorded' hl
      have found : w.store.latches[l]? = some w.store.latches[l] := List.getElem?_eq_getElem there
      have ih := ih reachable recorded' _ found
      by_cases apart : ∀ call waiter, old ≠ [.latch l call waiter]
      · obtain ⟨hfalse, hruns, hkept⟩ := took.total_kept l apart false
        rw [hkept there, found, Option.some.injEq] at found'
        rw [hfalse, (took.total_kept l apart true).1, hruns, ← found']
        exact ih
      · push Not at apart
        obtain ⟨call, waiter, rfl⟩ := apart
        obtain ⟨b, hruns, hruns'⟩ := took.load_of_start (fun _ => Op.runs l)
          (fun _ op => op.runs_wake l) fun _ _ _ => rfl
        rw [List.map_singleton, List.sum_singleton] at hruns
        have hcomposed := reachable.tallied.composed l _ found
        rw [World.runs, hruns] at hcomposed
        rw [took.store] at found'
        have htotal := (took.act.deed_of_not_loose id).total_call found found' hcomposed
        rw [World.runs, hruns] at ih
        rw [took.counts, took.counts, World.runs, hruns']
        omega

open Classical in
/-- How the latch `l` of a ticket of the pool `p` stands. What remains on it is what is at stake:
the members that are still to be submitted, in somebody's hands, in the ring or drained, the counts
that are due, and the one that is held while the continuation is performed. A count has been made or
is due for each member that is completed, as a success, and for each that is lost or given up, as a
failure, and for no other. -/
structure Balanced (w : World α) (p : Nat) (ticket : Ticket) (l : Nat) (latch : Latch) : Prop where
  remaining : latch.value.remaining = w.stakes l + w.runs l
  uncounted :
    latch.value.remaining + w.counts l false + w.counts l true = ticket.size + w.runs l
  succeeded : w.counts l false + w.owed l false =
    (ticket.members w.history p).countP (fun id => w.Completed p id)
  failed : w.counts l true + w.owed l true =
    (ticket.members w.history p).countP (fun id => w.Lost p id) + w.skipped p ticket

theorem Reachable.balanced (h : w.Reachable) (recorded : Recorded w.history (.ticketed p ticket))
    (hl : ticket.latch = some l) (some : 0 < ticket.size) {latch : Latch}
    (found : w.store.latches[l]? = .some latch) : w.Balanced p ticket l latch := by
  have enlisted := h.enlisted recorded hl some
  obtain ⟨hcompleted, hlost⟩ := h.ended_members p (ticket.members w.history p)
  exact {
    remaining := (h.tallied.tallied p ticket l latch recorded hl found).remaining
    uncounted := h.total recorded hl found
    succeeded := hcompleted ▸ h.balance recorded hl some enlisted false
    failed := hlost ▸ h.balance recorded hl some enlisted true }

/-- Every member of a submission is counted once. The latch of what was submitted is there and
balanced. Every count that somebody is about to make on it has an effect, what remains never grows,
so zero is reached once, and it is what the holder of the ticket is told. The latch belongs to no
other submission, and only members of this one report to it. -/
theorem Reachable.counted_once (h : w.Reachable)
    (recorded : Recorded w.history (.ticketed p ticket)) (hl : ticket.latch = some l)
    (some : 0 < ticket.size) :
    ∃ latch, w.store.latches[l]? = .some latch ∧ w.Balanced p ticket l latch ∧
      (∀ t ∈ w.threads, ∀ failed waiter, .latch l (.count failed) waiter ∈ t.ops →
        latch.counts = true) ∧
      (∀ v, w.Later v → ∃ latch', v.store.latches[l]? = .some latch' ∧
        latch'.value.remaining ≤ latch.value.remaining) ∧
      (∀ name bid size waitable, w.store.names.tickets.find? name = .some ticket →
        ticket = .batch bid size waitable (.some l) → ticket.awaited = .ok l →
          (TicketRequest.remaining.effect w.store name).answer =
            .some (.ok (.count (w.stakes l + w.runs l)))) ∧
      (∀ q other, Recorded w.history (.ticketed q other) → other.latch = .some l →
        q = p ∧ other = ticket) ∧
      ∀ q (item : Item), item.Known w.history q → item.latch = .some l →
        q = p ∧ item.id ∈ ticket.members w.history p := by
  have there := h.known.store.latches p ticket l recorded hl
  have found : w.store.latches[l]? = .some w.store.latches[l] := List.getElem?_eq_getElem there
  have balanced := h.balanced recorded hl some found
  refine ⟨_, found, balanced, fun t ht failed waiter hop => ?_, fun v later => ?_,
    fun name bid size waitable kept kind awaited => ?_, fun q other recorded' hl' => ?_,
    fun q item known told => (h.tells_iff recorded hl some known).mp told⟩
  · obtain ⟨latch, found', counts⟩ := h.count_effective recorded hl ht hop
    rw [Option.some.inj (found.symm.trans found')]
    exact counts
  · obtain ⟨latch', found', grows⟩ := later.latch h found
    exact ⟨latch', found', grows.remaining⟩
  · subst kind
    simp only [TicketRequest.effect, kept, Ticket.ask, awaited, found, Effect.succeed,
      balanced.remaining]
  · exact h.ticket_eq recorded' recorded hl' hl

/-- A pool is shut down while its only worker is held up by the first member of a batch, the second
one is in the ring, and the third one is being sent. -/
def cutBatch : World Unit :=
  follow 40 [
    .newPool "p" (.given { capacity := 1, threads := some 1, name := "p" }),
    .newBatch "b" 4 true,
    .onBatch "b" (.add (.link [.passGate "g"] true)),
    .onBatch "b" (.add (.link [] true)),
    .onBatch "b" (.add (.link [] true)),
    .onBatch "b" (.add (.link [] true)),
    .onPool "p" (.submitBatch "b" none),
    .onPool "p" .shutDown] (.start [])

theorem counted_once_of_cutBatch :
    Recorded cutBatch.history (.ticketed 0 (.batch 1 4 true (some 1))) ∧
      ∃ latch, cutBatch.store.latches[1]? = some latch ∧ latch.value.remaining = 1 ∧
        cutBatch.counts 1 true = 3 ∧
        cutBatch.Balanced 0 (.batch 1 4 true (some 1)) 1 latch := by
  have reachable : cutBatch.Reachable := reachable_follow 40 _ (.start [])
  have ticketed : (cutBatch.history.map (·.2))[17]? =
      some (.ticketed 0 (.batch 1 4 true (some 1))) := rfl
  have recorded : Recorded cutBatch.history (.ticketed 0 (.batch 1 4 true (some 1))) := by
    obtain ⟨⟨who, entry⟩, hmem, rfl⟩ := List.mem_map.mp (List.mem_of_getElem? ticketed)
    exact ⟨who, hmem⟩
  obtain ⟨latch, found, balanced, -⟩ := reachable.counted_once recorded rfl (by decide)
  have remains : (cutBatch.store.latches[1]?.map (·.value.remaining)) = some 1 := rfl
  rw [found, Option.map_some, Option.some.injEq] at remains
  exact ⟨recorded, latch, found, remains, rfl, balanced⟩

end World

end WorkerPool
