import WorkerPool.Proofs.Finale

/-! What a latch at zero says. When nothing remains on the latch of a submission, each of its
members has come to its end, as many of them to a bad one as there were failures counted, and its
finale was dropped or is at its end too. From then on nothing happens on account of any of them:
what has been performed is not performed again, and what was dropped or given up is performed by
nobody. -/

namespace WorkerPool

variable {α : Type}

namespace World

variable {w v : World α} {o : Origin} {p id : Nat}

/-- Nobody performs a function on account of `o` or is about to, and nobody ever will. -/
def Past (w : World α) (o : Origin) : Prop :=
  ∀ v, w.Later v → v.parts o = 0 ∧ v.calls o = w.calls o

theorem Reachable.past_of_begun (h : w.Reachable) (ho : o ≠ .caller) (idle : w.parts o = 0)
    (begun : w.Begun o) : w.Past o := by
  intro v later
  obtain ⟨state, stands⟩ := h.stands ho
  have gone : state.parts = 0 := stands.left.symm.trans idle
  have kept := later.keeps h
    (P := fun v => v.Stands o state ∧ v.Begun o ∧ v.calls o = w.calls o) ⟨stands, begun, rfl⟩
    (fun u command _ ⟨stands, begun, calls⟩ => ⟨stands_issue stands, ?_, calls⟩)
    fun u v index t old tail e hu _ took ⟨stands, begun, calls⟩ => ?_
  · exact ⟨kept.1.left.trans gone, kept.2.2⟩
  · cases o <;> exact begun
  · have stands' := took.stands hu ho stands gone begun
    refine ⟨stands', took.begun begun, ?_⟩
    have same := stands'.trail.reverse_eq.trans stands.trail.reverse_eq.symm
    exact (List.reverse_injective same).trans calls

theorem Reachable.past_of_untouched (h : w.Reachable) (ho : o ≠ .caller) (untouched : w.Untouched o)
    (begun : w.Begun o) : w.Past o :=
  h.past_of_begun ho untouched.left begun

theorem Reachable.past_of_completedBy (h : w.Reachable) (ho : o ≠ .caller) {who : Who}
    {programs : List Program} (completed : w.CompletedBy who o programs) : w.Past o :=
  h.past_of_begun ho completed.left (completed.begun Performance.noConfusion)

theorem Reachable.past_of_spoiltBy (h : w.Reachable) (ho : o ≠ .caller) {who : Who}
    {programs : List Program} (spoilt : w.SpoiltBy who o programs) : w.Past o := by
  obtain ⟨done, program, later, -, stands⟩ := spoilt
  exact h.past_of_begun ho stands.left (stands.begun Performance.noConfusion)

/-- Nobody performs what was discarded or refused. -/
theorem Reachable.untouched_of_dropped (h : w.Reachable) {item : Item}
    (dropped : item.Dropped w.history p) : w.Untouched (.item p item.id) := by
  obtain ⟨lot, course, held⟩ := h.course p item.id
  have accounts := h.accounts course held
  rcases dropped with ⟨who, hmem⟩ | ⟨who, hmem⟩
  · rw [course.eq_discarded (mem_course hmem (by simp [Entry.concerns]))] at accounts
    exact accounts
  · rw [course.eq_refused (mem_course hmem (by simp [Entry.concerns]))] at accounts
    exact accounts

theorem Reachable.past_of_dropped (h : w.Reachable) {item : Item}
    (dropped : item.Dropped w.history p) : w.Past (.item p item.id) := by
  have silent : ∀ u : World α, u.Untouched (.item p item.id) → u.calls (.item p item.id) = [] :=
    fun u untouched => List.reverse_eq_nil_iff.mp untouched.trail.reverse_eq
  intro v later
  have untouched := (h.later later).untouched_of_dropped (dropped.mono (later.history_subset h))
  exact ⟨untouched.left, (silent v untouched).trans (silent w (h.untouched_of_dropped dropped)).symm⟩

theorem Reachable.past_of_completed (h : w.Reachable) (completed : w.Completed p id) :
    w.Past (.item p id) := by
  obtain ⟨i, item, -, -, completed⟩ := completed
  exact h.past_of_completedBy Origin.noConfusion completed

theorem Reachable.past_of_lost (h : w.Reachable) (lost : w.Lost p id) : w.Past (.item p id) := by
  rcases lost with ⟨i, item, -, -, spoilt⟩ | ⟨item, rfl, dropped⟩
  · exact h.past_of_spoiltBy Origin.noConfusion spoilt
  · exact h.past_of_dropped dropped

/-- No item comes to a good end and to a bad one. -/
theorem Reachable.not_lost (h : w.Reachable) (completed : w.Completed p id) : ¬w.Lost p id := by
  obtain ⟨lot, course, held⟩ := h.course p id
  rw [h.lost_iff course held, (h.completed_iff course held).mp completed]
  nofun

/-- What two exclusive properties hold of altogether. -/
theorem countP_or {β : Type} {P Q : β → Bool} (apart : ∀ x, P x = true → Q x = false)
    (xs : List β) :
    xs.countP (fun x => P x || Q x) = xs.countP P + xs.countP Q := by
  induction xs with
  | nil => rfl
  | cons x xs ih =>
      rw [List.countP_cons, List.countP_cons, List.countP_cons, ih]
      cases hP : P x with
      | true => simp [apart x hP]; omega
      | false => simp; omega

section Tickets

variable {l : Nat} {ticket : Ticket} {latch : Latch}

/-- The members of a submission stay the same once it is over. -/
theorem Later.members (later : w.Later v) (h : w.Reachable)
    (recorded : Recorded w.history (.ticketed p ticket))
    (done : w.load (fun _ => Op.submits p ticket.id) = 0) :
    ticket.members v.history p = ticket.members w.history p := by
  refine (later.keeps h (P := fun v => Recorded v.history (.ticketed p ticket) ∧
    v.load (fun _ => Op.submits p ticket.id) = 0 ∧
      ticket.members v.history p = ticket.members w.history p)
    ⟨recorded, done, rfl⟩ (fun u command _ ⟨recorded, done, same⟩ => ⟨recorded, ?_, same⟩)
    fun u v index t old tail e hu _ took ⟨recorded, done, same⟩ =>
      ⟨recorded.mono took.history_subset, took.over hu recorded done,
        (took.members done).trans same⟩).2.2
  rw [load_issue]
  exact done

/-- Nobody is about to count on a latch at zero. -/
theorem Reachable.owed_of_zero (h : w.Reachable)
    (recorded : Recorded w.history (.ticketed p ticket))
    (hl : ticket.latch = some l) (found : w.store.latches[l]? = some latch)
    (zero : latch.value.remaining = 0) : (∀ failed, w.owed l failed = 0) ∧ w.runs l = 0 := by
  have tallied := (h.tallied.tallied p ticket l latch recorded hl found).remaining
  refine ⟨fun failed => load_eq_zero _ fun t ht op hop => ?_, by omega⟩
  have idle : w.load (fun _ => Op.stakes l) = 0 := by
    rw [World.stakes] at tallied
    omega
  exact Nat.le_zero.mp (eq_zero_of_load idle ht hop ▸ op.owes_le_stakes l failed)

/-- The members of a submission whose latch is at zero have come to their ends, where they and those
that were given up are all there are, and the failures counted are those that were lost. -/
theorem Reachable.ended_of_zero (h : w.Reachable)
    (recorded : Recorded w.history (.ticketed p ticket))
    (hl : ticket.latch = some l) (found : w.store.latches[l]? = some latch)
    (zero : latch.value.remaining = 0)
    (whole : (ticket.members w.history p).length + w.skipped p ticket = ticket.size) :
    (∀ id ∈ ticket.members w.history p, w.Completed p id ∨ w.Lost p id) ∧
      (0 < w.counts l true ↔
        0 < w.skipped p ticket ∨ ∃ id ∈ ticket.members w.history p, w.Lost p id) := by
  classical
  obtain ⟨owed, runs⟩ := h.owed_of_zero recorded hl found zero
  have total := h.total recorded hl found
  rcases Nat.eq_zero_or_pos ticket.size with none | some
  · have hnil : ticket.members w.history p = [] := List.eq_nil_of_length_eq_zero (by omega)
    have hcounts : w.counts l true = 0 := by omega
    have hskipped : w.skipped p ticket = 0 := by omega
    simp [hnil, hcounts, hskipped]
  · have balanced := h.balanced recorded hl some found
    have hsucceeded := balanced.succeeded
    have hfailed := balanced.failed
    rw [owed] at hsucceeded hfailed
    have apart : ∀ id, decide (w.Completed p id) = true → decide (w.Lost p id) = false :=
      fun id completed => decide_eq_false (h.not_lost (of_decide_eq_true completed))
    have hall := countP_or apart (ticket.members w.history p)
    constructor
    · have := List.countP_eq_length.mp (hall.trans (by omega))
      simpa using this
    · rw [show w.counts l true = (ticket.members w.history p).countP (fun id => w.Lost p id) +
        w.skipped p ticket from hfailed, Nat.add_pos_iff_pos_or_pos, List.countP_pos_iff, or_comm]
      simp

end Tickets

end World

end WorkerPool
