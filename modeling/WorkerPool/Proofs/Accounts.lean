import WorkerPool.Proofs.Later
import WorkerPool.Proofs.Outcome

/-! What the account of an origin tells. The calls made on account of an item, a latch or a batch
are those of one chain: each function is called and returns, in order and in one thread, until one
of them panics, which is the last one. An account that is closed stays as it is. -/

namespace WorkerPool

variable {α : Type}

/-- A chain without panics is called and returned from, function by function. -/
theorem Origin.of_mem_account {o : Origin} {who : Who} {position : Nat} {programs : List Program}
    {x : Who × Entry} (h : x ∈ o.account who position programs) :
    x.1 = who ∧ ((∃ k program, x.2 = .called o k program) ∨ ∃ k, x.2 = .returned o k) := by
  induction programs generalizing position with
  | nil => cases h
  | cons program programs ih =>
      rcases List.mem_cons.mp h with rfl | h
      · exact ⟨rfl, .inl ⟨_, _, rfl⟩⟩
      rcases List.mem_cons.mp h with rfl | h
      · exact ⟨rfl, .inr ⟨_, rfl⟩⟩
      · exact ih h

/-- Only the thread that performs a chain makes entries about it. -/
theorem Performance.of_raised {o o' : Origin} {who : Who} {k : Nat} {state : Performance}
    (h : (who, .raised o' k) ∈ state.account o) :
    ∃ done program later, state = .broken who done program later ∨
      state = .spoilt who done program later := by
  have hnone : ∀ {who' : Who} {position : Nat} {programs : List Program},
      (who, Entry.raised o' k) ∉ o.account who' position programs := fun hmem => by
    obtain ⟨-, ⟨_, _, heq⟩ | ⟨_, heq⟩⟩ := Origin.of_mem_account hmem <;> cases heq
  cases state with
  | idle => cases h
  | between | through | settled => exact absurd h hnone
  | inside who' done program later =>
      rcases List.mem_append.mp h with h | h
      · exact absurd h hnone
      · cases List.mem_singleton.mp h
  | broken who' done program later | spoilt who' done program later =>
      rcases List.mem_append.mp h with h | h
      · exact absurd h hnone
      · simp only [List.mem_cons, List.not_mem_nil, or_false, Prod.mk.injEq, reduceCtorEq,
          and_false, false_or] at h
        obtain ⟨rfl, -⟩ := h
        exact ⟨done, program, later, by simp⟩

namespace World

variable {w v : World α} {o : Origin} {who who' : Who} {k : Nat} {programs : List Program}

theorem Stands.mem_account {state : Performance} (stands : w.Stands o state)
    (raised : (who, .raised o k) ∈ w.history) : (who, .raised o k) ∈ state.account o := by
  rw [← stands.trail.reverse_eq]
  exact List.mem_reverse.mpr (List.mem_filter.mpr ⟨raised, by simp [Entry.calls]⟩)

theorem Stands.raised {done later : List Program} {program : Program}
    (stands : w.Stands o (.spoilt who done program later)) :
    (who, .raised o done.length) ∈ w.history := by
  have hmem : (who, .raised o done.length) ∈ (w.calls o).reverse := by
    rw [stands.trail.reverse_eq, Performance.account]
    simp
  exact (List.mem_filter.mp (List.mem_reverse.mp hmem)).1

theorem CompletedBy.not_raised (completed : w.CompletedBy who o programs) :
    (who', .raised o k) ∉ w.history := fun raised => by
  obtain ⟨_, _, _, heq | heq⟩ := Performance.of_raised (completed.mem_account raised) <;> cases heq

theorem SpoiltBy.who_of_raised (spoilt : w.SpoiltBy who o programs)
    (raised : (who', .raised o k) ∈ w.history) : who' = who := by
  obtain ⟨done, program, later, -, stands⟩ := spoilt
  obtain ⟨_, _, _, heq | heq⟩ := Performance.of_raised (stands.mem_account raised) <;> cases heq
  rfl

/-- An account that is closed stays as it is. -/
theorem Later.stands (later : w.Later v) (h : w.Reachable) (ho : o ≠ .caller) {state : Performance}
    (stands : w.Stands o state) (gone : state.parts = 0) (begun : state ≠ .idle) :
    v.Stands o state :=
  later.keeps h (P := fun v => v.Stands o state) stands
    (fun _ _ _ ih => stands_issue ih)
    fun _ _ _ _ _ _ _ reachable _ took ih =>
      took.stands reachable ho ih gone (ih.begun begun)

theorem Later.completedBy (later : w.Later v) (h : w.Reachable) (ho : o ≠ .caller)
    (completed : w.CompletedBy who o programs) : v.CompletedBy who o programs :=
  later.stands h ho completed rfl Performance.noConfusion

theorem Later.spoiltBy (later : w.Later v) (h : w.Reachable) (ho : o ≠ .caller)
    (spoilt : w.SpoiltBy who o programs) : v.SpoiltBy who o programs := by
  obtain ⟨done, program, behind, split, stands⟩ := spoilt
  exact ⟨done, program, behind, split, later.stands h ho stands rfl Performance.noConfusion⟩

end World

end WorkerPool
