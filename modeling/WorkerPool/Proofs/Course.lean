import Mathlib.Algebra.Order.Group.Multiset
import WorkerPool.Proofs.Ids
import WorkerPool.Proofs.Load

/-! The course of an item, from the submission to its end. `Course` says which entries about an item
can follow each other and how far the item has come by them: it is sent by one thread, and then it
is refused there, or it lies in the ring until a worker takes it or a shutdown discards it, and the
worker that takes it performs it.

The main result is that every item is where its entries say, and nowhere else: the lots of an item,
which are read off the operations of all threads and the ring of the pool, come to the one lot that
its course has led to, as long as somebody has the item, and to nothing afterwards. -/

namespace WorkerPool

variable {α : Type}

/-- How far an item has come. -/
inductive Lot
  | unknown
  | sending (who : Who) (item : Item)
  | queued (item : Item)
  | taken (index : Nat) (item : Item)
  | performing (index : Nat) (item : Item)
  | performed (index : Nat) (item : Item)
  | finished (index : Nat) (item : Item)
  | panicked (index : Nat) (item : Item)
  | refused (who : Who) (item : Item)
  | discarded (who : Who) (item : Item)

/-- The lot of an item that somebody has, or the ring. -/
def Lot.held : Lot → Multiset Lot
  | .unknown | .finished .. | .panicked .. | .refused .. | .discarded .. => 0
  | lot => {lot}

/-- The item whose lot it is. -/
def Lot.item? : Lot → Option Item
  | .unknown => none
  | .sending _ item | .queued item | .taken _ item | .performing _ item | .performed _ item
  | .finished _ item | .panicked _ item | .refused _ item | .discarded _ item => some item

/-- The worker that has taken the item. -/
def Lot.worker? : Lot → Option Nat
  | .taken index _ | .performing index _ | .performed index _ | .finished index _
  | .panicked index _ => some index
  | _ => none

/-- What an item is given an id for. -/
def Issue.job? : Issue → Option Job
  | .job given | .member _ given => some given
  | .batch _ => none

/-- The entries about the item with the id `id` in the pool `p`. -/
def Entry.concerns (p id : Nat) : Who × Entry → Bool
  | (_, .issued q i issue) => q == p && i == id && issue.job?.isSome
  | (_, .pushed q item) | (_, .refused q item) | (_, .taken q item) | (_, .discarded q item) =>
    q == p && item.id == id
  | (.worker q _, .line (.jobStarted i)) | (.worker q _, .line (.jobFinished i))
  | (.worker q _, .line (.jobPanicked i _)) => q == p && i == id
  | _ => false

/-- The item that an entry speaks of. -/
def Entry.item? : Entry → Option Item
  | .pushed _ item | .refused _ item | .taken _ item | .discarded _ item => some item
  | _ => none

/-- The entries about an item, latest first, and what has become of it by them. -/
inductive Course (p id : Nat) : List (Who × Entry) → Lot → Prop
  | unknown : Course p id [] .unknown
  | issued (who : Who) (issue : Issue) (item : Item) (named : item.id = id)
      (given : issue.job? = some item.job) :
      Course p id [(who, .issued p id issue)] (.sending who item)
  | pushed {h : List (Who × Entry)} {who : Who} {item : Item}
      (before : Course p id h (.sending who item)) :
      Course p id ((who, .pushed p item) :: h) (.queued item)
  | refused {h : List (Who × Entry)} {who : Who} {item : Item}
      (before : Course p id h (.sending who item)) :
      Course p id ((who, .refused p item) :: h) (.refused who item)
  | discarded {h : List (Who × Entry)} {item : Item} (who : Who)
      (before : Course p id h (.queued item)) :
      Course p id ((who, .discarded p item) :: h) (.discarded who item)
  | taken {h : List (Who × Entry)} {item : Item} (index : Nat)
      (before : Course p id h (.queued item)) :
      Course p id ((.worker p index, .taken p item) :: h) (.taken index item)
  | started {h : List (Who × Entry)} {index : Nat} {item : Item}
      (before : Course p id h (.taken index item)) :
      Course p id ((.worker p index, .line (.jobStarted id)) :: h) (.performing index item)
  | performed {h : List (Who × Entry)} {index : Nat} {item : Item}
      (before : Course p id h (.performing index item)) : Course p id h (.performed index item)
  | finished {h : List (Who × Entry)} {index : Nat} {item : Item}
      (before : Course p id h (.performed index item)) :
      Course p id ((.worker p index, .line (.jobFinished id)) :: h) (.finished index item)
  | panicked {h : List (Who × Entry)} {index : Nat} {item : Item} (payload : Payload)
      (before : Course p id h (.performing index item)) :
      Course p id ((.worker p index, .line (.jobPanicked id payload)) :: h) (.panicked index item)

namespace Course

variable {p id : Nat} {h : List (Who × Entry)} {lot : Lot}

theorem eq_unknown (course : Course p id [] lot) : lot = .unknown := by
  generalize hnil : ([] : List (Who × Entry)) = h at course
  induction course with
  | unknown => rfl
  | performed before ih => cases ih hnil
  | _ => cases hnil

theorem eq_nil (course : Course p id h .unknown) : h = [] := by
  cases course
  rfl

/-- A course begins with the issue of the id. -/
theorem issued_mem (course : Course p id h lot) (known : lot ≠ .unknown) :
    ∃ who issue, (who, Entry.issued p id issue) ∈ h := by
  induction course with
  | unknown => exact absurd rfl known
  | issued who issue item named given => exact ⟨who, issue, List.mem_singleton_self _⟩
  | performed before ih => exact ih Lot.noConfusion
  | pushed before ih | refused before ih | discarded who before ih | taken index before ih
  | started before ih | finished before ih | panicked payload before ih =>
      obtain ⟨who, issue, hmem⟩ := ih Lot.noConfusion
      exact ⟨who, issue, List.mem_cons_of_mem _ hmem⟩

/-- All entries speak of the same item. -/
theorem item_eq (course : Course p id h lot) {who : Who} {entry : Entry} {item : Item}
    (hmem : (who, entry) ∈ h) (hitem : entry.item? = some item) : lot.item? = some item := by
  induction course with
  | unknown => cases hmem
  | issued who issue item named given =>
      cases List.mem_singleton.mp hmem
      cases hitem
  | performed before ih => exact ih hmem
  | pushed before ih | refused before ih | discarded who before ih | taken index before ih =>
      rcases List.mem_cons.mp hmem with heq | hmem
      · cases heq
        exact hitem
      · exact ih hmem
  | started before ih | finished before ih | panicked payload before ih =>
      rcases List.mem_cons.mp hmem with heq | hmem
      · cases heq
        cases hitem
      · exact ih hmem

theorem id_eq (course : Course p id h lot) {item : Item} (hitem : lot.item? = some item) :
    item.id = id := by
  induction course with
  | unknown => cases hitem
  | issued who issue item named given =>
      cases hitem
      exact named
  | performed before ih | pushed before ih | refused before ih | discarded who before ih
  | taken index before ih | started before ih | finished before ih | panicked payload before ih =>
      exact ih hitem

theorem taken_mem (course : Course p id h lot) {index : Nat} {item : Item}
    (hitem : lot.item? = some item) (hworker : lot.worker? = some index) :
    (Who.worker p index, Entry.taken p item) ∈ h := by
  induction course with
  | unknown | issued | pushed | refused | discarded => cases hworker
  | taken index' before ih =>
      cases hitem
      cases hworker
      exact List.mem_cons_self
  | performed before ih => exact ih hitem hworker
  | started before ih | finished before ih | panicked payload before ih =>
      exact List.mem_cons_of_mem _ (ih hitem hworker)

/-- An item that was taken has been started unless it is still to be. -/
theorem started_mem (course : Course p id h lot) {index : Nat} {item : Item}
    (hmem : (Who.worker p index, Entry.taken p item) ∈ h) (goes : lot.held ≠ {.taken index item}) :
    (Who.worker p index, Entry.line (.jobStarted id)) ∈ h := by
  have htaken : lot.item? = some item ∧ lot.worker? = some index := by
    clear goes
    induction course with
    | unknown => cases hmem
    | issued who issue item named given => cases List.mem_singleton.mp hmem
    | performed before ih => exact ih hmem
    | pushed before ih | refused before ih | discarded who before ih =>
        rcases List.mem_cons.mp hmem with heq | hmem
        · cases heq
        · cases (ih hmem).2
    | taken index' before ih =>
        rcases List.mem_cons.mp hmem with heq | hmem
        · cases heq
          exact ⟨rfl, rfl⟩
        · cases (ih hmem).2
    | started before ih | finished before ih | panicked payload before ih =>
        rcases List.mem_cons.mp hmem with heq | hmem
        · cases heq
        · exact ih hmem
  induction course with
  | unknown | issued | pushed | refused | discarded => cases htaken.2
  | taken index' before ih =>
      obtain ⟨hitem, hworker⟩ := htaken
      cases hitem
      cases hworker
      exact absurd rfl goes
  | started before ih =>
      cases htaken.2
      exact List.mem_cons_self
  | performed before ih => exact ih hmem (by simp [Lot.held]) htaken
  | finished before ih | panicked payload before ih =>
      rcases List.mem_cons.mp hmem with heq | hmem
      · cases heq
      · exact List.mem_cons_of_mem _ (ih hmem (by simp [Lot.held]) htaken)

theorem eq_refused (course : Course p id h lot) {who : Who} {q : Nat} {item : Item}
    (hmem : (who, Entry.refused q item) ∈ h) : lot = .refused who item := by
  induction course with
  | unknown => cases hmem
  | issued who issue item named given => cases List.mem_singleton.mp hmem
  | performed before ih => cases ih hmem
  | refused before ih =>
      rcases List.mem_cons.mp hmem with heq | hmem
      · cases heq
        rfl
      · cases ih hmem
  | pushed before ih | discarded who before ih | taken index before ih | started before ih
  | finished before ih | panicked payload before ih =>
      rcases List.mem_cons.mp hmem with heq | hmem
      · cases heq
      · cases ih hmem

theorem eq_discarded (course : Course p id h lot) {who : Who} {q : Nat} {item : Item}
    (hmem : (who, Entry.discarded q item) ∈ h) : lot = .discarded who item := by
  induction course with
  | unknown => cases hmem
  | issued who issue item named given => cases List.mem_singleton.mp hmem
  | performed before ih => cases ih hmem
  | discarded who before ih =>
      rcases List.mem_cons.mp hmem with heq | hmem
      · cases heq
        rfl
      · cases ih hmem
  | pushed before ih | refused before ih | taken index before ih | started before ih
  | finished before ih | panicked payload before ih =>
      rcases List.mem_cons.mp hmem with heq | hmem
      · cases heq
      · cases ih hmem

/-- An item that has been put into the ring is neither being sent nor refused. -/
theorem of_pushed (course : Course p id h lot) {who : Who} {q : Nat} {item : Item}
    (hmem : (who, Entry.pushed q item) ∈ h) : ∀ who item, lot ≠ .sending who item ∧
      lot ≠ .refused who item := by
  induction course with
  | unknown => cases hmem
  | issued who issue item named given => cases List.mem_singleton.mp hmem
  | refused before ih =>
      rcases List.mem_cons.mp hmem with heq | hmem
      · cases heq
      · exact absurd rfl (ih hmem _ _).1
  | performed | pushed | discarded | taken | started | finished | panicked => simp

/-- Only the worker that has taken an item has started it. -/
theorem of_started (course : Course p id h lot) {who : Who} {id' : Nat}
    (hmem : (who, Entry.line (.jobStarted id')) ∈ h) :
    ∃ index item, who = .worker p index ∧ (lot = .performing index item ∨
      lot = .performed index item ∨ lot = .finished index item ∨ lot = .panicked index item) := by
  induction course with
  | unknown => cases hmem
  | issued who issue item named given => cases List.mem_singleton.mp hmem
  | pushed before ih | refused before ih | discarded who before ih | taken index before ih =>
      rcases List.mem_cons.mp hmem with heq | hmem
      · cases heq
      · obtain ⟨_, _, -, h | h | h | h⟩ := ih hmem <;> cases h
  | @started h index item before ih =>
      rcases List.mem_cons.mp hmem with heq | hmem
      · cases heq
        exact ⟨index, item, rfl, .inl rfl⟩
      · obtain ⟨_, _, -, h | h | h | h⟩ := ih hmem <;> cases h
  | @performed h index item before ih =>
      obtain ⟨_, _, hwho, h | h | h | h⟩ := ih hmem <;> cases h
      exact ⟨index, item, hwho, .inr (.inl rfl)⟩
  | @finished h index item before ih =>
      rcases List.mem_cons.mp hmem with heq | hmem
      · cases heq
      · obtain ⟨_, _, hwho, h | h | h | h⟩ := ih hmem <;> cases h
        exact ⟨index, item, hwho, .inr (.inr (.inl rfl))⟩
  | @panicked h index item payload before ih =>
      rcases List.mem_cons.mp hmem with heq | hmem
      · cases heq
      · obtain ⟨_, _, hwho, h | h | h | h⟩ := ih hmem <;> cases h
        exact ⟨index, item, hwho, .inr (.inr (.inr rfl))⟩

end Course

namespace Op

/-- The lots of the items that an operation has in its hands, as far as they have the id `id` in
the pool `p`. -/
def lots (p id : Nat) (who : Who) : Op α → Multiset Lot
  | .submit sub phase =>
    match phase.item? with
    | some item => if sub.pool = p ∧ item.id = id then {.sending who item} else 0
    | none => 0
  | .work q index (.receive (.announce (.received (some item)))) | .work q index (.begin item) =>
    if q = p ∧ item.id = id then {.taken index item} else 0
  | .work q index (.running item _) =>
    if q = p ∧ item.id = id then {.performing index item} else 0
  | .work q index (.finish item true) =>
    if q = p ∧ item.id = id then {.performed index item} else 0
  | _ => 0

theorem lots_wake (p id : Nat) (who : Who) (op : Op α) :
    op.wake.lots p id who = op.lots p id who := by
  cases op with
  | submit sub phase =>
      cases phase with
      | send call => cases call <;> rfl
      | _ => rfl
  | work q index phase =>
      cases phase with
      | receive call => cases call <;> rfl
      | _ => rfl
  | _ => rfl

end Op

namespace Store

/-- The items in the ring of the pool at `p`. -/
def ring (s : Store α) (p : Nat) : List Item :=
  (s.pools[p]?.map fun pool => pool.intake.value.toList).getD []

theorem ring_of_pools {s s' : Store α} (h : s'.pools = s.pools) (p : Nat) :
    s'.ring p = s.ring p := by
  rw [ring, ring, h]

theorem ring_eq {s : Store α} {p : Nat} {pool : Pool} (found : s.pools[p]? = some pool) :
    s.ring p = pool.intake.value.toList := by
  rw [ring, found]
  rfl

theorem ring_setPool {s : Store α} {place : Nat} {pool : Pool}
    (found : s.pools[place]? = some pool) (pool' : Pool) (p : Nat) :
    (s.setPool place pool').ring p = if p = place then pool'.intake.value.toList else s.ring p := by
  rw [ring, getElem?_setPool found]
  split
  · rfl
  · rfl

/-- Only a turn on the intake changes the ring. -/
theorem ring_setPool_same {s : Store α} {place : Nat} {pool pool' : Pool}
    (found : s.pools[place]? = some pool) (same : pool'.intake.value = pool.intake.value)
    (p : Nat) :
    (s.setPool place pool').ring p = s.ring p := by
  rw [ring_setPool found]
  split
  · rename_i hp
    rw [hp, ring_eq found, same]
  · rfl

/-- The lots of the items in the ring. -/
def ringLots (s : Store α) (p id : Nat) : Multiset Lot :=
  ((s.ring p).filter (·.id == id)).map Lot.queued

end Store

/-- What a turn of `who` can do to an item: nothing, give it its id, one step of its course, or take
it out of the ring for good. `before` and `after` are the lots that are touched, and `c` is what
stays as it is. -/
inductive Moves (p id : Nat) (who : Who) :
    Multiset Lot → List (Who × Entry) → Multiset Lot → Prop
  | rest (c : Multiset Lot) : Moves p id who c [] c
  | issue (issue : Issue) (item : Item) (named : item.id = id)
      (given : issue.job? = some item.job) (c : Multiset Lot) :
      Moves p id who c [(who, .issued p id issue)] ({.sending who item} + c)
  | step {lot lot' : Lot} {notes : List (Who × Entry)} (active : lot.held = {lot})
      (goes : ∀ h, Course p id h lot → Course p id (notes ++ h) lot') (c : Multiset Lot) :
      Moves p id who ({lot} + c) notes (lot'.held + c)
  | drain (items : List Item) :
      Moves p id who (items.map Lot.queued) (items.map fun item => (who, .discarded p item)).reverse 0

theorem Moves.of_eq {p id : Nat} {who : Who} {before after : Multiset Lot}
    {notes : List (Who × Entry)} (hnotes : notes = []) (h : before = after) :
    Moves p id who before notes after := by
  subst hnotes h
  exact .rest before

section Deeds

variable {around : Around} {s : Store α} {who : Who} {e : Effect α}

/-- The lots that are left after an act, and those that it found. -/
def Effect.lots (e : Effect α) (p id : Nat) (who : Who) : Multiset Lot :=
  (e.ops.map (Op.lots p id who)).sum +
    (e.births.map fun t => (t.ops.map (Op.lots p id t.who)).sum).sum + e.store.ringLots p id

def Effect.course (e : Effect α) (p id : Nat) (who : Who) : List (Who × Entry) :=
  (e.notes.map (who, ·)).reverse.filter (Entry.concerns p id)

theorem Op.Plain.lots {op : Op α} (h : op.Plain) (p id : Nat) (who : Who) :
    op.lots p id who = 0 := by
  unfold Op.lots
  split
  · exact h.elim
  · exact h.elim
  · exact h.elim
  · exact h.elim
  · exact h.elim
  · rfl

theorem Op.Free.lots {op : Op α} (h : op.Free s) (p id : Nat) (who : Who) :
    op.lots p id who = 0 := by
  rcases h with h | ⟨l, failed, rfl, -⟩
  · exact h.lots p id who
  · rfl

/-- Nothing happens to an item in a turn that leaves the rings and the hands as they are. -/
theorem Moves.of_same {p id : Nat} {before : Multiset Lot} {notes : List Entry}
    {ops : List (Op α)} {s' : Store α} {alarm : Alarm} {answer : Option (Answer α)}
    (hops : (ops.map (Op.lots p id who)).sum = before) (hring : s'.ringLots p id = s.ringLots p id)
    (hnotes : ∀ note ∈ notes, Entry.concerns p id (who, note) = false) :
    Moves p id who (before + s.ringLots p id)
      (Effect.course { store := s', ops, notes, alarm, answer } p id who)
      (Effect.lots { store := s', ops, notes, alarm, answer } p id who) := by
  refine Moves.of_eq ?_ ?_
  · simp only [Effect.course, List.filter_eq_nil_iff, List.mem_reverse, List.mem_map]
    rintro _ ⟨note, hnote, rfl⟩
    simp [hnotes note hnote]
  · simp only [Effect.lots, hops, hring, List.map_nil, List.sum_nil, add_zero]

/-- An item goes one step in a turn that records it. -/
theorem Moves.of_step {p id : Nat} {before after : Multiset Lot} (lot lot' : Lot)
    {notes : List (Who × Entry)} (active : lot.held = {lot})
    (goes : ∀ h, Course p id h lot → Course p id (notes ++ h) lot') (c : Multiset Lot)
    (hbefore : before = {lot} + c) (hafter : after = lot'.held + c) :
    Moves p id who before notes after := by
  subst hbefore hafter
  exact .step active goes c

theorem Entry.Plain.concerns {note : Entry} (h : note.Plain) (p id : Nat) (who : Who) :
    Entry.concerns p id (who, note) = false := by
  cases note with
  | event => rfl
  | line written =>
      cases written with
      | rejected | jobStarted | jobFinished | jobPanicked | itemsAbandoned => exact h.elim
      | _ => cases who <;> rfl
  | _ => exact h.elim

/-- A turn that gives an id to an item puts the item into the hands of whoever takes the turn. -/
theorem Moves.of_issued {p id q : Nat} {notes : List Entry} {ops : List (Op α)} {s' : Store α}
    (item : Item) {issue : Issue} (given : issue.job? = some item.job)
    (hops : (ops.map (Op.lots p id who)).sum =
      if q = p ∧ item.id = id then {.sending who item} else 0)
    (hring : s'.ringLots p id = s.ringLots p id)
    (hnotes : ∀ note ∈ notes, Entry.concerns p id (who, note) = false) :
    Moves p id who (0 + s.ringLots p id)
      (Effect.course { store := s', ops, notes := .issued q item.id issue :: notes } p id who)
      (Effect.lots { store := s', ops, notes := .issued q item.id issue :: notes } p id who) := by
  have hrest : (notes.map (who, ·)).reverse.filter (Entry.concerns p id) = [] := by
    simp only [List.filter_eq_nil_iff, List.mem_reverse, List.mem_map]
    rintro _ ⟨note, hnote, rfl⟩
    simp [hnotes note hnote]
  simp only [Effect.course, Effect.lots, hops, hring, List.map_cons, List.reverse_cons,
    List.filter_append, hrest, List.nil_append, List.map_nil, List.sum_nil, add_zero, zero_add]
  by_cases hit : q = p ∧ item.id = id
  · obtain ⟨rfl, rfl⟩ := hit
    simpa [Entry.concerns, given] using Moves.issue issue item rfl given _
  · rw [if_neg hit, zero_add]
    refine .of_eq ?_ rfl
    have : (q == p && item.id == id) = false := by
      simpa only [Bool.and_eq_false_iff, beq_eq_false_iff_ne, ← not_and_or] using hit
    simp [Entry.concerns, this]

theorem Store.ringLots_of_ring {s s' : Store α} (h : ∀ p, s'.ring p = s.ring p) (p id : Nat) :
    s'.ringLots p id = s.ringLots p id := by
  rw [ringLots, h, ringLots]

theorem Store.ringLots_set {s s' : Store α} {place : Nat} {pool pool' : Pool}
    (found : s.pools[place]? = some pool) (h : s'.pools = s.pools.set place pool')
    (same : pool'.intake.value = pool.intake.value) (p id : Nat) :
    s'.ringLots p id = s.ringLots p id := by
  refine ringLots_of_ring (fun q => ?_) p id
  rw [← ring_setPool_same found same q]
  exact ring_of_pools h q

theorem Store.ring_append {s s' : Store α} {pool : Pool} (fresh : pool.intake.value.toList = [])
    (h : s'.pools = s.pools ++ [pool]) (p : Nat) : s'.ring p = s.ring p := by
  rw [ring, ring, h]
  rcases Nat.lt_trichotomy p s.pools.length with hlt | rfl | hgt
  · rw [List.getElem?_append_left hlt]
  · simp [fresh]
  · rw [List.getElem?_eq_none (by simpa using Nat.succ_le_of_lt hgt),
      List.getElem?_eq_none (Nat.le_of_lt hgt)]

theorem Op.Settles.lots {op : Op α} (h : op.Settles) (p id : Nat) (who : Who) :
    op.lots p id who = 0 := by
  cases h <;> rfl

theorem Op.sum_complete_lots (latch : Option Nat) (failed : Bool) (p id : Nat) (who : Who) :
    ((complete latch failed : List (Op α)).map (Op.lots p id who)).sum = 0 :=
  sum_map_eq_zero (M := Multiset Lot) fun op h => (complete_settles latch failed op h).lots p id who

theorem Op.sum_discard_lots (q : Nat) (item : Item) (p id : Nat) (who : Who) :
    ((discard q item : List (Op α)).map (Op.lots p id who)).sum = 0 :=
  sum_map_eq_zero (M := Multiset Lot) fun op h => (discard_settles q item op h).lots p id who

theorem Submission.sum_afterRefusal_lots (sub : Submission) (p id : Nat) (who : Who) :
    ((sub.afterRefusal : List (Op α)).map (Op.lots p id who)).sum = 0 :=
  sum_map_eq_zero (M := Multiset Lot) fun op h => (sub.afterRefusal_settles op h).lots p id who

theorem Op.Submits.lots {op : Op α} {made : List (Op α)} {asker : Asker}
    (submits : op.Submits made asker) (p id : Nat) (who : Who) :
    op.lots p id who = 0 ∧ (made.map (Op.lots p id who)).sum = 0 := by
  cases submits <;> exact ⟨rfl, rfl⟩

/-- A turn that takes an item one step further, if it is the item in question, and does not touch
the ring. -/
theorem Moves.of_hands {p id : Nat} {before : Multiset Lot} (q : Nat) (item : Item) (lot lot' : Lot)
    (notes : List (Who × Entry)) {e : Effect α} (active : lot.held = {lot})
    (hbefore : before = if q = p ∧ item.id = id then {lot} else 0)
    (hafter : e.lots p id who = (if q = p ∧ item.id = id then lot'.held else 0) + s.ringLots p id)
    (hcourse : e.course p id who = if q = p ∧ item.id = id then notes else [])
    (goes : q = p → item.id = id → ∀ h, Course p id h lot → Course p id (notes ++ h) lot') :
    Moves p id who (before + s.ringLots p id) (e.course p id who) (e.lots p id who) := by
  rw [hbefore, hafter, hcourse]
  by_cases hit : q = p ∧ item.id = id
  · simp only [if_pos hit]
    exact .step active (goes hit.1 hit.2) _
  · simp only [if_neg hit]
    exact .rest _

theorem Deed.moves {op : Op α} (deed : Deed around s who op e) (quiet : e.panic = none)
    (rings : s.RingsValid) {rest : List (Op α)} (before : op.Before who rest) (p id : Nat) :
    Moves p id who (op.lots p id who + s.ringLots p id) (e.course p id who) (e.lots p id who) := by
  cases deed with
  | commanded command eases leaves plain =>
      refine .of_same ?_ (Store.ringLots_of_ring (Store.ring_of_pools eases.pools) p id)
        fun note h => (plain note h).concerns p id who
      exact sum_map_eq_zero (M := Multiset Lot) fun op h => (leaves.free op h).lots p id who
  | poolMade command name settings capacity threads =>
      refine .of_same rfl (Store.ringLots_of_ring (Store.ring_append ?_ rfl) p id)
        (by simp [Entry.concerns])
      exact Ring.toList_empty capacity
  | jobAdded submits place pool job found waitable =>
      obtain ⟨hop, hmade⟩ := submits.lots p id who
      rw [hop]
      refine .of_issued ⟨pool.nextId, job, some s.latches.length⟩ rfl ?_ ?_
        (by simp [Entry.concerns])
      · simp [Op.lots, SubmissionPhase.item?, hmade]
      · exact Store.ringLots_set found (by rfl) (by rfl) p id
  | freeJobAdded submits place pool job found free =>
      obtain ⟨hop, hmade⟩ := submits.lots p id who
      rw [hop]
      refine .of_issued ⟨pool.nextId, job, none⟩ rfl ?_ ?_ (by simp [Entry.concerns])
      · simp [Op.lots, SubmissionPhase.item?, hmade]
      · exact Store.ringLots_set found (by rfl) (by rfl) p id
  | batchAdded command place pool batch ticket found counted ahead =>
      refine .of_same rfl (Store.ringLots_set found (by rfl) (by rfl) p id) ?_
      simp [Entry.concerns, Issue.job?]
  | freeBatchAdded command place pool batch ticket found bare free =>
      refine .of_same rfl (Store.ringLots_set found (by rfl) (by rfl) p id) ?_
      simp [Entry.concerns, Issue.job?]
  | emptyBatchAdded command place pool batch job ticket found finale empty =>
      refine .of_same rfl (Store.ringLots_set found (by rfl) (by rfl) p id) ?_
      simp [Entry.concerns, Issue.job?]
  | acted origin position action rest later eases leaves plain =>
      refine .of_same ?_ (Store.ringLots_of_ring (Store.ring_of_pools eases.pools) p id)
        fun note h => (plain note h).concerns p id who
      rw [List.map_append, List.sum_append,
        sum_map_eq_zero (M := Multiset Lot) fun op h => (leaves.free op h).lots p id who]
      rfl
  | monitorTurned place call left =>
      refine .of_same ?_ rfl (by simp)
      rcases left with rfl | ⟨call, rfl⟩ <;> rfl
  | channelTurned place call left =>
      refine .of_same ?_ rfl (by simp)
      rcases left with rfl | ⟨call, rfl⟩ <;> rfl
  | counted place l failed found counts plain =>
      refine .of_same ?_ rfl (by simp [Entry.concerns])
      split <;> rfl
  | continued place l job succeeded found =>
      refine .of_same ?_ rfl (by simp)
      split <;> rfl
  | poolReady place l stage pool q name succeeded found awake verdict present =>
      refine .of_same ?_ rfl (by simp [Entry.concerns])
      cases s.names.pools.find? name <;> rfl
  | left place pool found =>
      refine .of_same ?_ (Store.ringLots_set found (by rfl) (by rfl) p id) (by simp)
      split <;> rfl
  | accepted sub pool found through hands plain =>
      refine .of_same ?_ rfl fun note h => (plain note h).concerns p id who
      exact sum_map_eq_zero (M := Multiset Lot) fun op h => (hands.plain op h).lots p id who
  | memberAdded sub pool job rest found ahead =>
      refine .of_issued ⟨pool.nextId, job, sub.ticket.latch⟩ rfl ?_ ?_ (by simp)
      · simp [Op.lots, SubmissionPhase.item?]
      · exact Store.ringLots_set found (by rfl) (by rfl) p id
  | enlisted sub pool item found =>
      refine .of_same ?_ (Store.ringLots_set found (by rfl) (by rfl) p id) (by simp)
      simp [Op.lots, SubmissionPhase.item?]
  | offered sub pool item found up =>
      refine .of_same ?_ rfl (by simp)
      simp [Op.lots, SubmissionPhase.item?]
  | givenBack sub pool item call found down sends =>
      refine .of_same ?_ rfl (by simp)
      rcases sends with rfl | ⟨stage, -, rfl⟩ <;> simp [Op.lots, SubmissionPhase.item?]
  | pushed sub pool item stage found awake up room =>
      have hring := ((rings sub.pool pool found).push room item).2
      by_cases hit : sub.pool = p ∧ item.id = id
      · obtain ⟨rfl, rfl⟩ := hit
        rw [show Effect.course _ _ _ _ = [(who, Entry.pushed sub.pool item)] by
          simp [Effect.course, Entry.concerns]]
        refine .of_step (.sending who item) (.queued item) rfl
          (fun h course => .pushed course) (s.ringLots sub.pool item.id) ?_ ?_
        · simp [Op.lots, SubmissionPhase.item?]
        · simp [Effect.lots, Op.lots, SubmissionPhase.item?, Store.ringLots,
            Store.ring_setPool found, Store.ring_eq found, hring, Lot.held]
      · refine .of_same ?_ ?_ ?_
        · simp [Op.lots, SubmissionPhase.item?, hit]
        · rw [Store.ringLots, Store.ring_setPool found, Store.ringLots]
          by_cases hp : p = sub.pool
          · subst hp
            have hid : (item.id == id) = false := by simpa using hit
            simp [Store.ring_eq found, hring, hid]
          · rw [if_neg hp]
        · simpa [Entry.concerns] using hit
  | sendSlept sub pool item stage found awake up full =>
      refine .of_same ?_ rfl (by simp)
      simp [Op.lots, SubmissionPhase.item?]
  | sendAnnounced sub pool found => exact .of_same rfl rfl (by simp)
  | refusing sub pool item found =>
      refine .of_hands sub.pool item (.sending who item)
        (.refused who item) [(who, .refused sub.pool item)] rfl ?_ ?_ ?_ ?_
      · simp [Op.lots, SubmissionPhase.item?]
      · simp [Effect.lots, Op.sum_discard_lots, sub.sum_afterRefusal_lots, Lot.held]
      · cases who <;> simp [Effect.course, Entry.concerns, List.filter_cons]
      · rintro rfl rfl h course
        exact .refused course
  | refused sub pool found refuses plain =>
      refine .of_same ?_ rfl fun note h => (plain note h).concerns p id who
      exact sum_map_eq_zero (M := Multiset Lot) fun op h => (refuses.plain op h).lots p id who
  | handed ticket name same kept =>
      exact .of_same rfl (Store.ringLots_of_ring (Store.ring_of_pools same.1) p id) (by simp)
  | taken place index pool stage item ring found awake up valid first capacity =>
      obtain rfl := before.self
      by_cases hit : place = p ∧ item.id = id
      · obtain ⟨rfl, rfl⟩ := hit
        rw [show Effect.course _ _ _ _ = [(Who.worker place index, Entry.taken place item)] by
          simp [Effect.course, Entry.concerns]]
        refine .of_step (.queued item) (.taken index item) rfl
          (fun h course => .taken index course)
          ((ring.toList.filter (·.id == item.id)).map Lot.queued) ?_ ?_
        · simp [Op.lots, Store.ringLots, Store.ring_eq found, first]
        · simp [Effect.lots, Op.lots, Store.ringLots, Store.ring_setPool found, Lot.held]
      · refine .of_same ?_ ?_ ?_
        · simp [Op.lots, hit]
        · rw [Store.ringLots, Store.ring_setPool found, Store.ringLots]
          by_cases hp : p = place
          · subst hp
            have hid : (item.id == id) = false := by simpa using hit
            simp [Store.ring_eq found, first, hid]
          · rw [if_neg hp]
        · simpa [Entry.concerns] using hit
  | receiveAnnounced place index pool item found =>
      refine .of_same ?_ rfl (by simp)
      simp [Op.lots]
  | jobStarted place index pool item found =>
      obtain rfl := before.self
      refine .of_hands place item (.taken index item)
        (.performing index item) [(.worker place index, .line (.jobStarted item.id))]
        rfl ?_ ?_ ?_ ?_
      · simp [Op.lots]
      · rw [Effect.lots, Store.ringLots_set found (by rfl) (by rfl) p id]
        simp [Op.lots, Op.perform, Lot.held]
      · simp [Effect.course, Entry.concerns, List.filter_cons]
      · rintro rfl rfl h course
        exact .started course
  | jobRan place index pool item found =>
      obtain rfl := before.self
      refine .of_hands place item (.performing index item)
        (.performed index item) [] rfl ?_ ?_ ?_ ?_
      · simp [Op.lots]
      · simp [Effect.lots, Op.sum_complete_lots, Op.lots, Lot.held]
      · simp [Effect.course]
      · rintro rfl rfl h course
        exact .performed course
  | jobBroke place index pool item payload found =>
      obtain rfl := before.self
      refine .of_hands place item (.performing index item)
        (.panicked index item)
        [(.worker place index, .line (.jobPanicked item.id payload))] rfl ?_ ?_ ?_ ?_
      · simp [Op.lots]
      · simp [Effect.lots, Op.sum_complete_lots, Op.lots, Lot.held]
      · simp [Effect.course, Entry.concerns, List.filter_cons]
      · rintro rfl rfl h course
        exact .panicked payload course
  | jobFinished place index pool item succeeded found =>
      obtain rfl := before.self
      cases succeeded with
      | false => exact .of_same rfl (Store.ringLots_set found (by rfl) (by rfl) p id) (by simp)
      | true =>
          refine .of_hands place item (.performed index item)
            (.finished index item)
            [(.worker place index, .line (.jobFinished item.id))] rfl ?_ ?_ ?_ ?_
          · simp [Op.lots]
          · rw [Effect.lots, Store.ringLots_set found (by rfl) (by rfl) p id]
            simp [Op.lots, Lot.held]
          · simp [Effect.course, Entry.concerns, List.filter_cons]
          · rintro rfl rfl h course
            exact .finished course
  | poolTerminated place pool found =>
      exact .of_same rfl (Store.ringLots_set found (by rfl) (by rfl) p id) (by simp)
  | drained place pool ring found valid empty capacity =>
      by_cases hp : p = place
      · subst hp
        have hcourse : (((pool.intake.value.toList.map (Entry.discarded p)).map (who, ·)).reverse.filter
            (Entry.concerns p id)) = ((pool.intake.value.toList.filter (·.id == id)).map
              fun item => (who, Entry.discarded p item)).reverse := by
          rw [List.filter_reverse, List.map_map, List.filter_map]
          simp [Function.comp_def, Entry.concerns]
        rw [Effect.course, hcourse, show Effect.lots _ _ _ _ = 0 by
            simp [Effect.lots, Op.lots, Store.ringLots, Store.ring_setPool found, empty],
          Store.ringLots, Store.ring_eq found, show Op.lots _ _ _ _ = 0 from rfl, zero_add]
        exact .drain _
      · refine .of_same rfl ?_ ?_
        · rw [Store.ringLots, Store.ring_setPool found, if_neg hp, Store.ringLots]
        · simp [Entry.concerns, Ne.symm hp]
  | abandoned place pool items found =>
      refine .of_same ?_ rfl ?_
      · rw [List.map_append, List.sum_append, sum_map_eq_zero (M := Multiset Lot) fun op h =>
          (Op.flatMap_discard_settles place items op h).lots p id who]
        rfl
      · cases items <;> simp [Entry.concerns]
  | spawned place index name pool found inside =>
      exact .of_eq rfl (by simp [Effect.lots, Op.lots])
  | actionRaised | deadlocked => cases quiet
  | _ => exact .of_same rfl rfl (by simp [Entry.concerns])

theorem Op.Lands.lots {payload : Payload} {old new : List (Op α)} {notes : List Entry}
    (lands : Op.Lands payload old new notes) (p id : Nat) (who : Who) :
    (new.map (Op.lots p id who)).sum = (old.map (Op.lots p id who)).sum := by
  cases lands <;> simp [Op.lots]

theorem Act.moves {old : List (Op α)} (act : Act around s who old e) (rings : s.RingsValid)
    {rest : List (Op α)} (leads : Op.Leads who old rest) (p id : Nat) :
    Moves p id who ((old.map (Op.lots p id who)).sum + s.ringLots p id) (e.course p id who)
      (e.lots p id who) := by
  cases act with
  | deed deed quiet => simpa using deed.moves quiet rings leads.1 p id
  | broke payload loose lands uncaught =>
      refine .of_same ?_ rfl fun note hnote => ?_
      · rw [lands.lots p id who, List.map_append, List.sum_append,
          sum_map_eq_zero (M := Multiset Lot) fun op h =>
              (loose op h).plain.lots p id who, zero_add]
      · rcases lands.of_mem_notes hnote with ⟨origin, position, rfl⟩ | rfl
        · rfl
        · cases who <;> rfl

end Deeds

theorem Effect.mem_notes_of_course {e : Effect α} {p id : Nat} {who : Who} {note : Entry}
    (h : (who, note) ∈ e.course p id who) : note ∈ e.notes := by
  simpa using (List.mem_filter.mp h).1

namespace World

/-- The entries about the item with the id `id` in the pool at `p`, latest first. -/
def course (w : World α) (p id : Nat) : List (Who × Entry) :=
  w.history.filter (Entry.concerns p id)

/-- The lots of the items with this id that somebody has or the ring holds. -/
def lots (w : World α) (p id : Nat) : Multiset Lot :=
  w.load (fun who op => op.lots p id who) + w.store.ringLots p id

end World

theorem Lot.held_of_eq {lot lot' : Lot} {c : Multiset Lot} (h : lot'.held = {lot} + c) :
    lot' = lot ∧ c = 0 := by
  have hne : ({lot} + c : Multiset Lot) ≠ 0 := by simp
  cases lot' with
  | unknown | finished | panicked | refused | discarded => exact absurd h.symm hne
  | _ =>
      have h : {_} = lot ::ₘ c := h
      rw [Multiset.singleton_eq_cons_iff] at h
      exact h

/-- Of an item that is held there is no more than one. -/
theorem Lot.card_held (lot : Lot) : lot.held.card ≤ 1 := by
  cases lot <;> simp [held]

/-- What a turn does to an item takes its course and its lots along. -/
theorem Moves.course {p id : Nat} {who : Who} {before after r : Multiset Lot}
    {notes h : List (Who × Entry)} {lot : Lot} (moves : Moves p id who before notes after)
    (course : Course p id h lot) (held : before + r = lot.held)
    (fresh : (∃ issue, (who, Entry.issued p id issue) ∈ notes) → h = []) :
    ∃ lot', Course p id (notes ++ h) lot' ∧ after + r = lot'.held := by
  cases moves with
  | rest => exact ⟨lot, course, held⟩
  | issue issue item named given =>
      obtain rfl := fresh ⟨issue, List.mem_singleton_self _⟩
      obtain rfl := course.eq_unknown
      exact ⟨.sending who item, .issued who issue item named given, by rw [add_assoc, held]; rfl⟩
  | step active goes c =>
      rw [add_assoc] at held
      obtain ⟨rfl, hzero⟩ := Lot.held_of_eq held.symm
      exact ⟨_, goes h course, by rw [add_assoc, hzero, add_zero]⟩
  | drain items =>
      have hcard := congrArg Multiset.card held
      have hone := lot.card_held
      cases items with
      | nil => exact ⟨lot, course, by simpa using held⟩
      | cons item items =>
          cases items with
          | nil =>
              have held : ({Lot.queued item} : Multiset Lot) + r = lot.held := held
              obtain ⟨rfl, rfl⟩ := Lot.held_of_eq held.symm
              exact ⟨.discarded who item, .discarded who course, rfl⟩
          | cons item' items =>
              rw [← hcard] at hone
              simp only [Multiset.card_add, Multiset.coe_card, List.length_map,
                List.length_cons] at hone
              omega

namespace World

/-- Every item is where its entries say, and nowhere else. -/
theorem Reachable.course {w : World α} (h : w.Reachable) (p id : Nat) :
    ∃ lot, Course p id (w.course p id) lot ∧ w.lots p id = lot.held := by
  refine h.induct (P := fun w => ∃ lot, Course p id (w.course p id) lot ∧ w.lots p id = lot.held)
    (fun cells => ⟨.unknown, .unknown, rfl⟩) (fun w command _ ih => ?_) ?_
  · obtain ⟨lot, course, held⟩ := ih
    refine ⟨lot, course, ?_⟩
    rw [World.lots, load_issue, show Op.lots p id _ (.command command) = 0 from rfl, add_zero]
    exact held
  intro w v index t old tail e reachable took ih
  obtain ⟨lot, course, held⟩ := ih
  have orderly := reachable.orderly
  have stack := took.leads orderly
  have moves := took.act.moves orderly.rings stack.1 p id
  obtain ⟨r, hbefore, hafter⟩ := took.load (fun who op => op.lots p id who)
    fun who op => op.lots_wake p id who
  have hcourse : v.course p id = e.course p id t.who ++ w.course p id := by
    rw [World.course, took.history, List.filter_append]
    rfl
  have hlots : v.lots p id = e.lots p id t.who + r := by
    rw [World.lots, hafter, took.store, Effect.lots, add_right_comm]
  rw [hcourse, hlots]
  refine moves.course course ?_ fun ⟨issue, hissue⟩ => ?_
  · rw [← held, World.lots, hbefore, add_right_comm]
  · have hnil : w.issues p id = [] := took.issues_eq_nil (reachable.issues p id).2
      (e.mem_notes_of_course hissue)
    by_cases known : lot = .unknown
    · subst known
      exact course.eq_nil
    · obtain ⟨who, issue', hmem⟩ := course.issued_mem known
      have : issue' ∈ w.issues p id := mem_issues.mpr ⟨who, List.mem_of_mem_filter hmem⟩
      simp [hnil] at this

/-- An item has the lot in which somebody has it. -/
theorem Reachable.course_of_op {w : World α} (h : w.Reachable) {t : Thread α} (ht : t ∈ w.threads)
    {op : Op α} (hop : op ∈ t.ops) {p id : Nat} {lot : Lot} (hlot : op.lots p id t.who = {lot}) :
    Course p id (w.course p id) lot := by
  obtain ⟨lot', course, held⟩ := h.course p id
  obtain ⟨r, hload⟩ := load_of_mem (fun who op => Op.lots p id who op) ht hop
  rw [World.lots, hload, hlot, add_assoc] at held
  obtain ⟨rfl, -⟩ := Lot.held_of_eq held.symm
  exact course

/-- Entries about an item are in its course. -/
theorem mem_course {w : World α} {who : Who} {entry : Entry} {p id : Nat}
    (h : (who, entry) ∈ w.history) (concerns : Entry.concerns p id (who, entry) = true) :
    (who, entry) ∈ w.course p id :=
  List.mem_filter.mpr ⟨h, concerns⟩

end World

end WorkerPool
