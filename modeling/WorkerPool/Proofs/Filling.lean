import WorkerPool.Proofs.Moments

/-! How a batch is filled. Whatever is done to a batch is kept in a log: how it was begun, which
jobs and functions were offered to it, which of these it took, and which finale it was given. A
batch reflects its log. Its members are what it took, in the order in which this was offered; of a
job only the flag of the first link is replaced, by that of the batch, and the rest of the chain and
the finale are kept as they are. Since no step leaves it with more members than it has room for, it
is full exactly when it takes nothing any more. -/

namespace WorkerPool

/-- The function of a job with what is attached behind it: all of the job but its own flag. -/
def Job.body (job : Job) : Program × Option Job :=
  (job.first.program, job.continuation)

theorem Job.body_setWaitable (job : Job) (waitable : Bool) :
    (job.setWaitable waitable).body = job.body := rfl

theorem Job.waitable_setWaitable (job : Job) (waitable : Bool) :
    (job.setWaitable waitable).waitable = waitable := rfl

namespace Batch

/-- One thing that is done to a batch. What it is offered it may take or refuse. -/
inductive Change
  | begun (capacity : Nat) (waitable : Bool)
  | offered (job : Job) (taken : Bool)
  | offeredProgram (program : Program) (taken : Bool)
  | finaleSet (job : Job)

/-- What a batch has taken of what it was offered. Nothing is attached to a single function. -/
def Change.taken? : Change → Option (Program × Option Job)
  | .offered job true => some job.body
  | .offeredProgram program true => some (program, none)
  | _ => none

def Change.finale? : Change → Option Job
  | .finaleSet job => some job
  | _ => none

/-- The log of a batch that is filled as it is begun. -/
def filled (programs : List Program) (waitable : Bool) : List Change :=
  .begun programs.length waitable :: programs.map (.offeredProgram · true)

/-- The batch is what its log says. It has the capacity and the flag that it was begun with and no
more members than there is room for. They are what it has taken, in order, and have its flag. Its
finale is the one that was set last. -/
structure Reflects (b : Batch) (log : List Change) : Prop where
  begun : log.head? = some (.begun b.capacity b.waitable)
  bounded : b.size ≤ b.capacity
  members : b.members.map Job.body = log.filterMap Change.taken?
  flags : ∀ job ∈ b.members, job.waitable = b.waitable
  finale : b.finale = (log.filterMap Change.finale?).getLast?

variable {b b' : Batch} {log : List Change} {change : Change} {job : Job}

theorem reflects_new (capacity : Nat) (waitable : Bool) :
    Reflects { capacity, waitable } [.begun capacity waitable] where
  begun := rfl
  bounded := Nat.zero_le capacity
  members := rfl
  flags := by simp
  finale := rfl

theorem add?_eq_some (h : b.add? job = some b') :
    b.size < b.capacity ∧ b' = { b with members := b.members ++ [job.setWaitable b.waitable] } := by
  unfold add? at h
  split at h
  · rename_i room
    exact ⟨room, (Option.some.inj h).symm⟩
  · cases h

theorem size_of_add? (h : b.add? job = some b') : b'.size = b.size + 1 := by
  obtain ⟨-, rfl⟩ := add?_eq_some h
  simp [size]

/-- What goes into the log stands behind how the batch was begun. -/
theorem Reflects.head?_append (h : b.Reflects log) (more : List Change) :
    (log ++ more).head? = some (.begun b.capacity b.waitable) := by
  rw [List.head?_append, h.begun]
  rfl

/-- Being full is having no room. Only a batch with too many members would have neither. -/
theorem Reflects.isFull_iff (h : b.Reflects log) : b.isFull = true ↔ ¬b.size < b.capacity := by
  have := h.bounded
  rw [isFull, beq_iff_eq]
  omega

theorem Reflects.add?_eq_none (h : b.Reflects log) (job : Job) :
    b.add? job = none ↔ b.isFull = true := by
  rw [h.isFull_iff, add?]
  split <;> simp [*]

/-- What the batch takes becomes its last member. -/
theorem Reflects.took (h : b.Reflects log) (added : b.add? job = some b')
    (taken : change.taken? = some job.body) (other : change.finale? = none) :
    b'.Reflects (log ++ [change]) := by
  obtain ⟨room, rfl⟩ := add?_eq_some added
  refine ⟨h.head?_append _, (size_of_add? added).trans_le room, ?_, ?_, ?_⟩
  · rw [filterMap_concat, taken, List.map_append, h.members, List.map_singleton,
      Job.body_setWaitable]
    rfl
  · intro member hmember
    rcases List.mem_append.mp hmember with hmember | hmember
    · exact h.flags member hmember
    · obtain rfl := List.mem_singleton.mp hmember
      exact job.waitable_setWaitable b.waitable
  · rw [filterMap_concat, other]
    exact h.finale.trans (congrArg _ (List.append_nil _).symm)

/-- What the batch does not take leaves it as it was. -/
theorem Reflects.passed (h : b.Reflects log) (refused : change.taken? = none)
    (other : change.finale? = none) : b.Reflects (log ++ [change]) := by
  refine ⟨h.head?_append _, h.bounded, ?_, h.flags, ?_⟩
  · rw [filterMap_concat, refused]
    exact h.members.trans (List.append_nil _).symm
  · rw [filterMap_concat, other]
    exact h.finale.trans (congrArg _ (List.append_nil _).symm)

theorem Reflects.setFinale (h : b.Reflects log) (job : Job) :
    (b.setFinale job).Reflects (log ++ [.finaleSet job]) := by
  refine ⟨h.head?_append _, h.bounded, ?_, h.flags, ?_⟩
  · rw [filterMap_concat]
    exact h.members.trans (List.append_nil _).symm
  · rw [filterMap_concat]
    exact List.getLast?_concat.symm

/-- A batch takes functions one after the other as long as there is room. -/
theorem Reflects.foldlM_addProgram? (h : b.Reflects log) (programs : List Program)
    (room : b.size + programs.length ≤ b.capacity) :
    ∃ b', programs.foldlM addProgram? b = some b' ∧
      b'.Reflects (log ++ programs.map (.offeredProgram · true)) ∧
      b'.size = b.size + programs.length ∧ b'.capacity = b.capacity := by
  -- with every function there is another batch with a longer log, so this is about any such batch
  induction programs generalizing b log with
  | nil => exact ⟨b, rfl, by simpa using h, rfl, rfl⟩
  | cons program programs ih =>
      rw [List.length_cons] at room
      cases added : b.addProgram? program with
      | none =>
          have full := h.isFull_iff.mp ((h.add?_eq_none _).mp added)
          omega
      | some next =>
          have size : next.size = b.size + 1 := size_of_add? added
          have capacity : next.capacity = b.capacity := by
            obtain ⟨-, rfl⟩ := add?_eq_some added
            rfl
          have entered : next.Reflects (log ++ [.offeredProgram program true]) :=
            h.took added rfl rfl
          obtain ⟨b', all, reflects, size', capacity'⟩ := ih entered (by omega)
          refine ⟨b', ?_, by simpa using reflects, ?_, capacity'.trans capacity⟩
          · rw [List.foldlM_cons, added]
            exact all
          · rw [size', size, List.length_cons]
            omega

/-- A batch is made of any number of functions, and it is full. -/
theorem ofPrograms?_eq_some (programs : List Program) (waitable : Bool) :
    ∃ b, ofPrograms? programs waitable = some b ∧ b.Reflects (filled programs waitable) ∧
      b.isFull = true ∧ b.size = programs.length := by
  obtain ⟨b, all, reflects, size, capacity⟩ :=
    (reflects_new programs.length waitable).foldlM_addProgram? programs
      (Nat.le_of_eq (Nat.zero_add _))
  have size : b.size = programs.length := size.trans (Nat.zero_add _)
  refine ⟨b, all, reflects, ?_, size⟩
  rw [isFull, beq_iff_eq, size, capacity]

end Batch

end WorkerPool
