import WorkerPool.Proofs.Entries
import WorkerPool.Proofs.Performance

/-! How performances end. A catcher that takes its turn finds that the functions in front of it have
all returned, or that one of them has panicked, and it knows which; from then on nothing happens to
the performance any more. So the lines in which a worker tells the end of an item are true. -/

namespace WorkerPool

variable {α : Type}

/-- Where nothing is left of a performance, nothing happens unless it begins. -/
theorem Performs.of_zero {o : Origin} {who : Who} {begins ends : Prop} {notes : List (Who × Entry)}
    {after : Multiset Part} (h : Performs o who begins ends 0 notes after) (unbegun : ¬begins) :
    notes = [] ∧ after = 0 := by
  generalize hzero : (0 : Multiset Part) = before at h
  cases h with
  | rest => exact ⟨rfl, rfl⟩
  | start begun => exact absurd begun unbegun
  | fall =>
      rw [Multiset.singleton_add] at hzero
      exact absurd hzero.symm Multiset.cons_ne_zero
  | call | back | through | settle => exact absurd hzero.symm (Multiset.singleton_ne_zero _)

/-- A catcher is not passed by a panic. -/
theorem Op.Ends.not_loose {op : Op α} {o : Origin} (ends : op.Ends o) : ¬op.Loose := by
  cases ends <;> exact id

/-- The turn of a catcher calls nothing and leaves nothing of the performance. -/
theorem Deed.parts_of_ends {around : Around} {s : Store α} {who : Who} {op : Op α} {e : Effect α}
    (deed : Deed around s who op e) {o : Origin} (ends : op.Ends o) :
    e.calls o who = [] ∧ e.parts o who = 0 := by
  cases ends with
  | item p i item panic =>
      cases deed with
      | jobAdded submits | freeJobAdded submits => cases submits
      | jobRan => simp [Effect.calls, Effect.parts,
          sum_parts_of_settles (Op.complete_settles item.latch false), Op.parts]
      | jobBroke => simp [Effect.calls, Effect.parts,
          sum_parts_of_settles (Op.complete_settles item.latch true), Op.parts, Entry.calls]
  | finale l job succeeded waiter =>
      cases deed with
      | jobAdded submits | freeJobAdded submits => cases submits
      | continued =>
          refine ⟨by simp [Effect.calls], ?_⟩
          rw [Effect.parts]
          split <;> simp [Op.parts]
  | batch p batch id asker succeeded =>
      cases deed with
      | jobAdded submits | freeJobAdded submits => cases submits
      | batchSettled => simp [Effect.calls, Effect.parts, Op.parts, Entry.calls]

namespace World

/-- The performance on account of `o` has come as far as `state`. -/
structure Stands (w : World α) (o : Origin) (state : Performance) : Prop where
  trail : Trail o (w.calls o) state
  left : w.parts o = state.parts
  begun : state ≠ .idle → w.Begun o

/-- No function has been called on account of `o`, and none is about to be. -/
def Untouched (w : World α) (o : Origin) : Prop :=
  w.Stands o .idle

/-- All functions have been called on account of `o` in the thread `who`, and each has returned. -/
def CompletedBy (w : World α) (who : Who) (o : Origin) (programs : List Program) : Prop :=
  w.Stands o (.settled who programs)

/-- One of the functions that were called on account of `o` in the thread `who` has panicked, and
those behind it have not been called. -/
def SpoiltBy (w : World α) (who : Who) (o : Origin) (programs : List Program) : Prop :=
  ∃ done program later, programs = done ++ program :: later ∧
    w.Stands o (.spoilt who done program later)

theorem stands_issue {w : World α} {o : Origin} {state : Performance} (h : w.Stands o state)
    {command : Command α} : (w.issue command).Stands o state := by
  refine ⟨h.trail, ?_, fun hstate => ?_⟩
  · rw [World.parts, load_issue, show Op.parts o _ (.command command) = 0 from rfl, add_zero]
    exact h.left
  · have := h.begun hstate
    cases o <;> exact this

theorem Reachable.stands {w : World α} (h : w.Reachable) {o : Origin} (ho : o ≠ .caller) :
    ∃ state, w.Stands o state := by
  obtain ⟨state, trail, left, begun⟩ := h.performance ho
  exact ⟨state, trail, left, begun⟩

theorem Reachable.untouched {w : World α} (h : w.Reachable) {o : Origin} (ho : o ≠ .caller)
    (unbegun : ¬w.Begun o) : w.Untouched o := by
  obtain ⟨state, stands⟩ := h.stands ho
  by_cases hstate : state = .idle
  · subst hstate
    exact stands
  · exact absurd (stands.begun hstate) unbegun

section Turns

variable {w v : World α} {index : Nat} {t : Thread α} {tail : List (Op α)} {e : Effect α}

theorem Took.calls {old : List (Op α)} (took : w.Took v index t old tail e) (o : Origin) :
    v.calls o = e.calls o t.who ++ w.calls o := by
  rw [World.calls, took.history, List.filter_append]
  rfl

theorem Took.parts {old : List (Op α)} (took : w.Took v index t old tail e) (o : Origin) :
    ∃ r, w.parts o = (old.map (Op.parts o t.who)).sum + r ∧ v.parts o = e.parts o t.who + r :=
  took.load (fun who op => op.parts o who) fun who op => op.parts_wake o who

/-- Nothing happens to a performance that has been begun and of which nothing is left. -/
theorem Took.stands {old : List (Op α)} (reachable : w.Reachable)
    (took : w.Took v index t old tail e) {o : Origin} (ho : o ≠ .caller) {state : Performance}
    (stands : w.Stands o state) (gone : state.parts = 0) (begun : w.Begun o) :
    v.Stands o state := by
  have stack := took.leads reachable.orderly
  obtain ⟨r, hbefore, hafter⟩ := took.parts o
  have hzero : (old.map (Op.parts o t.who)).sum + r = 0 := by
    rw [← hbefore, stands.left, gone]
  have hold : (old.map (Op.parts o t.who)).sum = 0 :=
    Multiset.le_zero.mp (hzero ▸ Multiset.le_add_right _ r)
  obtain rfl : r = 0 := by simpa [hold] using hzero
  have performs := took.act.performs stack.1 ho
  rw [hold] at performs
  obtain ⟨hcalls, hparts⟩ := performs.of_zero
    fun ⟨op, hop, begins⟩ => by
      subst hop
      exact took.unbegun reachable begins begun
  refine ⟨?_, ?_, fun h => took.begun (stands.begun h)⟩
  · rw [took.calls, hcalls]
    exact stands.trail
  · rw [hafter, hparts, gone]
    rfl

theorem Took.completedBy {old : List (Op α)} (reachable : w.Reachable)
    (took : w.Took v index t old tail e) {o : Origin} (ho : o ≠ .caller) {who : Who}
    {programs : List Program} (h : w.CompletedBy who o programs) : v.CompletedBy who o programs :=
  took.stands reachable ho h rfl (h.begun Performance.noConfusion)

theorem Took.spoiltBy {old : List (Op α)} (reachable : w.Reachable)
    (took : w.Took v index t old tail e) {o : Origin} (ho : o ≠ .caller) {who : Who}
    {programs : List Program} (h : w.SpoiltBy who o programs) : v.SpoiltBy who o programs := by
  obtain ⟨done, program, later, hprograms, stands⟩ := h
  exact ⟨done, program, later, hprograms,
    took.stands reachable ho stands rfl (stands.begun Performance.noConfusion)⟩

/-- When a catcher takes its turn, the performance ends the way the catcher knows. -/
theorem Took.settles {op : Op α} (reachable : w.Reachable) (took : w.Took v index t [op] tail e)
    {o : Origin} (ends : op.Ends o) {programs : List Program} {fine : Bool}
    (hop : op.parts o t.who = {.catcher t.who programs fine}) :
    if fine then v.CompletedBy t.who o programs else v.SpoiltBy t.who o programs := by
  have ho : o ≠ .caller := by
    rintro rfl
    cases ends
  obtain ⟨state, stands⟩ := reachable.stands ho
  obtain ⟨r, hbefore, hafter⟩ := took.parts o
  rw [List.map_singleton, List.sum_singleton, hop] at hbefore
  have hdue := reachable.orderly.catcher_due ho took.got took.ops hop
  obtain ⟨hcalls, hparts⟩ := (took.act.deed_of_not_loose ends.not_loose).parts_of_ends ends
  have begun := fun h => took.begun (stands.begun h)
  have hleft : {.catcher t.who programs fine} + r = state.parts := by rw [← hbefore, stands.left]
  rcases Performance.of_catcher hleft with
    ⟨rfl, ⟨position, inside, later, rfl⟩ | ⟨rfl, rfl⟩⟩ | ⟨rfl, done, program, later, rfl, rfl, rfl⟩
  · rw [hbefore] at hdue
    simp only [codes_add, catchers_add, codes_catcher, catchers_catcher, codes_code,
      catchers_code] at hdue
    omega
  · refine ⟨?_, ?_, fun _ => begun Performance.noConfusion⟩
    · rw [took.calls, hcalls]
      exact .settled stands.trail
    · rw [hafter, hparts]
      rfl
  · refine ⟨done, program, later, rfl, ?_, ?_, fun _ => begun Performance.noConfusion⟩
    · rw [took.calls, hcalls]
      exact .spoilt stands.trail
    · rw [hafter, hparts]
      rfl

end Turns

end World

/-! ### The ends of items -/

theorem Op.of_wake_finish {op : Op α} {p i : Nat} {item : Item} {finished : Bool}
    (h : op.wake = .work p i (.finish item finished)) : op = .work p i (.finish item finished) := by
  cases op with
  | work q j phase =>
      cases phase with
      | receive call => cases h
      | _ => exact h
  | submit sub phase => cases phase <;> cases h
  | _ => cases h

/-- A worker comes to report an item as finished in the turn in which its function has come to its
end. -/
theorem Act.performed {around : Around} {s : Store α} {who : Who} {old : List (Op α)} {e : Effect α}
    (act : Act around s who old e) {p i : Nat} {item : Item}
    (hop : .work p i (.finish item true) ∈ e.ops) : old = [.work p i (.running item none)] := by
  cases act with
  | deed deed quiet =>
      cases deed.follows hop trivial with
      | performed => rfl
  | broke payload loose lands uncaught =>
      rcases lands.of_serves hop trivial with ⟨_, _, _, heq, -⟩ | ⟨_, _, _, _, heq, -⟩
      · cases heq
      · cases heq

namespace World

/-- What the workers tell of the ends of items is true: an item that is said to have been performed,
or that is about to be said to, has been performed by the same worker. -/
structure Truthful (w : World α) : Prop where
  performed : ∀ t ∈ w.threads, ∀ op ∈ t.ops, ∀ p i item, op = .work p i (.finish item true) →
    w.CompletedBy (.worker p i) (.item p item.id) item.job.programs
  finished : ∀ who id, (who, Entry.line (.jobFinished id)) ∈ w.history →
    ∃ p i item, who = .worker p i ∧ item.id = id ∧ (who, .taken p item) ∈ w.history ∧
      w.CompletedBy who (.item p id) item.job.programs
  panicked : ∀ who id payload, (who, Entry.line (.jobPanicked id payload)) ∈ w.history →
    ∃ p i item, who = .worker p i ∧ item.id = id ∧ (who, .taken p item) ∈ w.history ∧
      w.SpoiltBy who (.item p id) item.job.programs

/-- A worker that has an item in its hands has taken it out of the ring. -/
theorem Reachable.taken_of_op {w : World α} (h : w.Reachable) {t : Thread α} (ht : t ∈ w.threads)
    {op : Op α} (hop : op ∈ t.ops) {p i : Nat} {item : Item} {lot : Lot}
    (hlot : op.lots p item.id t.who = {lot}) (hitem : lot.item? = some item)
    (hworker : lot.worker? = some i) : (Who.worker p i, Entry.taken p item) ∈ w.history :=
  (List.mem_filter.mp ((h.course_of_op ht hop hlot).taken_mem hitem hworker)).1

theorem Took.truthful {w v : World α} {index : Nat} {t : Thread α} {old tail : List (Op α)}
    {e : Effect α} (reachable : w.Reachable) (took : w.Took v index t old tail e)
    (h : w.Truthful) : v.Truthful := by
  have ht := took.mem_threads
  have stack := took.leads reachable.orderly
  have hitem : ∀ p id, Origin.item p id ≠ .caller := fun _ _ => Origin.noConfusion
  constructor
  · refine took.forall_ops (P := fun _ op => ∀ p i item, op = .work p i (.finish item true) →
      v.CompletedBy (.worker p i) (.item p item.id) item.job.programs) ?_ ?_ ?_ ?_
    · exact fun who op hop p i item heq => hop p i item (Op.of_wake_finish heq)
    · intro u hu op hop p i item heq
      exact took.completedBy reachable (hitem p item.id) (h.performed u hu op hop p i item heq)
    · rintro op hop p i item rfl
      obtain rfl := took.act.performed hop
      have self : t.who = .worker p i := stack.1.1.self
      have := took.settles reachable (.item p i item none) (if_pos rfl)
      simpa [self] using this
    · rintro p i name - q j item heq
      cases heq
  · intro who id hmem
    rcases took.mem_history.mp hmem with ⟨rfl, hnote⟩ | hmem
    · obtain ⟨op, rfl, writes, -⟩ := took.act.written hnote not_false (by simp)
      cases writes with
      | jobFinished p i item =>
          have hop : .work p i (.finish item true) ∈ t.ops := took.due_mem
          obtain self : t.who = .worker p i := stack.1.1.self
          refine ⟨p, i, item, self, rfl, ?_, ?_⟩
          · rw [self]
            exact took.history_subset (reachable.taken_of_op ht hop
              (show _ = {Lot.performed i item} by simp [Op.lots]) rfl rfl)
          · rw [self]
            exact took.completedBy reachable (hitem p item.id)
              (h.performed t ht _ hop p i item rfl)
    · obtain ⟨p, i, item, rfl, rfl, taken, completed⟩ := h.finished who id hmem
      exact ⟨p, i, item, rfl, rfl, took.history_subset taken,
        took.completedBy reachable (hitem p item.id) completed⟩
  · intro who id payload hmem
    rcases took.mem_history.mp hmem with ⟨rfl, hnote⟩ | hmem
    · obtain ⟨op, rfl, writes, -⟩ := took.act.written hnote not_false (by simp)
      cases writes with
      | jobPanicked p i item payload =>
          have hop : .work p i (.running item (some payload)) ∈ t.ops := took.due_mem
          obtain self : t.who = .worker p i := stack.1.1.self
          have spoilt := took.settles reachable (.item p i item (some payload)) (if_pos rfl)
          refine ⟨p, i, item, self, rfl, ?_, by simpa [self] using spoilt⟩
          rw [self]
          exact took.history_subset (reachable.taken_of_op ht hop
            (show _ = {Lot.performing i item} by simp [Op.lots]) rfl rfl)
    · obtain ⟨p, i, item, rfl, rfl, taken, spoilt⟩ := h.panicked who id payload hmem
      exact ⟨p, i, item, rfl, rfl, took.history_subset taken,
        took.spoiltBy reachable (hitem p item.id) spoilt⟩

theorem Reachable.truthful {w : World α} (h : w.Reachable) : w.Truthful := by
  refine h.induct (P := Truthful) (fun cells => ?_) (fun w command _ ih => ?_) ?_
  · exact ⟨by simp [World.start], by simp [World.start], by simp [World.start]⟩
  · refine ⟨?_, fun who id hmem => ?_, fun who id payload hmem => ?_⟩
    · refine forall_ops_issue (P := fun _ op => ∀ p i item, op = .work p i (.finish item true) →
        (w.issue command).CompletedBy (.worker p i) (.item p item.id) item.job.programs) ?_ ?_
      · intro u hu op hop p i item heq
        exact stands_issue (ih.performed u hu op hop p i item heq)
      · intro p i item heq
        cases heq
    · obtain ⟨p, i, item, hwho, hid, taken, completed⟩ := ih.finished who id hmem
      exact ⟨p, i, item, hwho, hid, taken, stands_issue completed⟩
    · obtain ⟨p, i, item, hwho, hid, taken, done, program, later, hprograms, stands⟩ :=
        ih.panicked who id payload hmem
      exact ⟨p, i, item, hwho, hid, taken, done, program, later, hprograms, stands_issue stands⟩
  · exact fun w v index t old tail e reachable took ih => took.truthful reachable ih

end World

end WorkerPool
