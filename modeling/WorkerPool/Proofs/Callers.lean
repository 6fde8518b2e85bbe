import WorkerPool.Proofs.Quiescence
import WorkerPool.Proofs.Rounds

/-! Who calls functions on whose account. The functions of an item are called by the worker that has
the item in its hands; the continuation of a ticket's latch is called by a worker that has just
finished one of the items of the ticket; and the finale of a batch without members is called by the
step that submits the batch. -/

namespace WorkerPool

variable {α : Type}

/-- The thread that a part of a performance belongs to. -/
def Part.who : Part → Who
  | .code who .. | .catcher who .. => who

/-- Only a thread that has a part in a performance calls functions in it. -/
theorem Performs.of_mem_notes {o : Origin} {who : Who} {begins ends : Prop}
    {before after : Multiset Part} {notes : List (Who × Entry)}
    (performs : Performs o who begins ends before notes after) {x : Who × Entry}
    (mem : x ∈ notes) : x.1 = who ∧ ∃ part ∈ before, part.who = who := by
  cases performs with
  | call position program later =>
      obtain rfl := List.mem_singleton.mp mem
      exact ⟨rfl, .code who position false (program :: later), Multiset.mem_singleton_self _, rfl⟩
  | back position later =>
      obtain rfl := List.mem_singleton.mp mem
      exact ⟨rfl, .code who position true later, Multiset.mem_singleton_self _, rfl⟩
  | fall position later programs =>
      obtain rfl := List.mem_singleton.mp mem
      exact ⟨rfl, .code who position true later, by simp, rfl⟩
  | _ => cases mem

/-- A thread takes part in a performance that it begins, or goes on with its part. -/
theorem Performs.of_mem_after {o : Origin} {who : Who} {begins ends : Prop}
    {before after : Multiset Part} {notes : List (Who × Entry)}
    (performs : Performs o who begins ends before notes after) {part : Part}
    (mem : part ∈ after) :
    part ∈ before ∨ part.who = who ∧ (begins ∨ ∃ part' ∈ before, part'.who = who) := by
  cases performs with
  | rest => exact .inl mem
  | start begun programs =>
      refine .inr ⟨?_, .inl begun⟩
      rcases Multiset.mem_add.mp mem with mem | mem <;>
        rw [Multiset.mem_singleton.mp mem, Part.who]
  | call position program later =>
      rw [Multiset.mem_singleton.mp mem]
      exact .inr ⟨rfl, .inr ⟨_, Multiset.mem_singleton_self _, rfl⟩⟩
  | back position later =>
      rw [Multiset.mem_singleton.mp mem]
      exact .inr ⟨rfl, .inr ⟨_, Multiset.mem_singleton_self _, rfl⟩⟩
  | fall position later programs =>
      rw [Multiset.mem_singleton.mp mem]
      exact .inr ⟨rfl, .inr ⟨.code who position true later, by simp, rfl⟩⟩
  | through | settle => cases mem

section Acts

variable {around : Around} {s : Store α} {who : Who} {old : List (Op α)} {e : Effect α}

/-- An entry about a function is made where the function stands. -/
theorem Act.code_of_call (act : Act around s who old e) {note : Entry} (mem : note ∈ e.notes)
    {o : Origin} (ho : o ≠ .caller) (calls : Entry.calls o (who, note) = true) :
    ∃ above position current later rest, old = above ++ .code o position current later :: rest := by
  cases act with
  | deed deed quiet =>
      rcases deed.writes mem with plain | writes
      · rw [plain.calls] at calls
        cases calls
      · cases writes with
        | called origin | returned origin =>
            obtain rfl : origin = o := by simpa [Entry.calls] using calls
            exact ⟨[], _, _, _, [], rfl⟩
        | _ => cases calls
  | broke payload loose lands uncaught =>
      rcases List.mem_append.mp mem with hmem | hmem
      · rw [Op.calls_raisedNotes loose ho note hmem] at calls
        cases calls
      · cases lands with
        | nowhere => cases hmem
        | item =>
            obtain rfl := List.mem_singleton.mp hmem
            obtain rfl : _ = o := by simpa [Entry.calls] using calls
            exact ⟨_, _, _, _, _, rfl⟩
        | finale | batch | latchMade =>
            rcases List.mem_cons.mp hmem with rfl | hmem
            · obtain rfl : _ = o := by simpa [Entry.calls] using calls
              exact ⟨_, _, _, _, _, rfl⟩
            · obtain rfl := List.mem_singleton.mp hmem
              cases calls

end Acts

/-- A worker that is about to note that it has finished a job has seen the job end well. -/
theorem Standing.Shows.eq_ended {p i : Nat} {standing : Standing} {front : List (Op α)}
    {item : Item} (shows : standing.Shows p i (front ++ [.work p i (.finish item true)])) :
    standing = .ended item none := by
  generalize hops : front ++ [(.work p i (.finish item true) : Op α)] = ops at shows
  have hlast := congrArg List.getLast? hops
  rw [List.getLast?_concat] at hlast
  cases shows <;> simp at hlast
  rw [hlast]

namespace World

variable {w v : World α} {index : Nat} {t : Thread α} {old tail : List (Op α)} {e : Effect α}
  {note : Entry} {p i id l : Nat} {moments : List (Moment α)}

/-- Behind a function that makes an entry stands what it is called for. -/
theorem Took.after_of_call (reachable : w.Reachable) (took : w.Took v index t old tail e)
    (mem : note ∈ e.notes) {o : Origin} (ho : o ≠ .caller)
    (calls : Entry.calls o (t.who, note) = true) :
    ∃ above rest, t.ops = above ++ rest ∧ Op.AfterCode o rest ∧ Op.Leads t.who rest [] := by
  obtain ⟨above, position, current, later, rest, hold⟩ := took.act.code_of_call mem ho calls
  have stack := reachable.orderly.ordered t took.mem_threads
  rw [took.ops, hold, List.append_assoc, List.cons_append, Op.leads_append] at stack
  refine ⟨above ++ [.code o position current later], rest ++ tail, by simp [took.ops, hold], ?_,
    stack.2.2⟩
  have before := stack.2.1
  rw [List.append_nil] at before
  cases before with
  | code _ _ _ _ after => exact after

/-- The functions of an item are called by the worker that performs it. -/
theorem Took.worker_of_call (reachable : w.Reachable) (took : w.Took v index t old tail e)
    (mem : note ∈ e.notes) (calls : Entry.calls (.item p id) (t.who, note) = true) :
    ∃ i item front, t.who = .worker p i ∧ item.id = id ∧
      t.ops = front ++ [.work p i (.running item none)] := by
  obtain ⟨above, rest, ops, after, stack⟩ :=
    took.after_of_call reachable mem Origin.noConfusion calls
  cases after with
  | item p i item => exact ⟨i, item, above, stack.1.self, rfl, ops⟩

theorem Took.finale_of_call (reachable : w.Reachable) (took : w.Took v index t old tail e)
    (mem : note ∈ e.notes) (calls : Entry.calls (.latch l) (t.who, note) = true) :
    ∃ job, .latch l (.running job true) .nobody ∈ t.ops := by
  obtain ⟨above, rest, ops, after, stack⟩ :=
    took.after_of_call reachable mem Origin.noConfusion calls
  cases after with
  | finale l job rest => exact ⟨job, by simp [ops]⟩

theorem Stands.ne_idle {o : Origin} {state : Performance} (stands : w.Stands o state)
    {x : Who × Entry} (mem : x ∈ w.history) (calls : Entry.calls o x = true) : state ≠ .idle := by
  rintro rfl
  have hmem : x ∈ (w.calls o).reverse := List.mem_reverse.mpr (List.mem_filter.mpr ⟨mem, calls⟩)
  rw [stands.trail.reverse_eq] at hmem
  cases hmem

/-- Only a worker that has finished an item calls the continuation of a latch of a ticket. -/
theorem Took.host (reachable : w.Reachable) (took : w.Took v index t old tail e)
    (told : ¬Untold w.history l) (mem : note ∈ e.notes)
    (calls : Entry.calls (.latch l) (t.who, note) = true) :
    ∃ p i item front, t.who = .worker p i ∧ item.latch = some l ∧ item.Known w.history p ∧
      t.ops = front ++ [.work p i (.finish item true)] := by
  have ht := took.mem_threads
  obtain ⟨job, hop⟩ := took.finale_of_call reachable mem calls
  obtain ⟨above, rest, hops, charge⟩ := (reachable.charged t ht).of_mem hop
  obtain ⟨p, i, item, rfl, hlatch, known⟩ := Op.Charge.of_sound charge rfl told
  have stack := reachable.orderly.ordered t ht
  rw [hops, Op.leads_append] at stack
  exact ⟨p, i, item, above ++ [.latch l (.running job true) .nobody], stack.2.2.1.self, hlatch,
    known, by simp [hops]⟩

theorem Run.host {cells : List Int} (run : (World.start cells).Run moments w) {who : Who}
    {entry : Entry} (mem : (who, entry) ∈ w.history)
    (calls : Entry.calls (.latch l) (who, entry) = true) (told : ¬Untold w.history l) :
    ∃ p i item, who = .worker p i ∧ item.latch = some l ∧ item.Known w.history p ∧
      .ended item none ∈ diary p i moments := by
  induction run with
  | nil => cases mem
  | issue run command ih => exact ih mem told
  | @turn moments w v run index pick turn ih =>
      have reachable : w.Reachable := run.reachable (.start cells)
      obtain ⟨t, old, tail, e, took⟩ := took_of_turn reachable.orderly turn
      have ht := took.mem_threads
      rcases took.mem_history.mp mem with ⟨rfl, note⟩ | mem
      · have told' : ¬Untold w.history l := by
          obtain ⟨job, hop⟩ := took.finale_of_call reachable note calls
          exact fun untold => told (took.untold (reachable.known.ops t ht _ hop).1 untold)
        obtain ⟨p, i, item, front, hwho, hlatch, known, hops⟩ :=
          took.host reachable told' note calls
        obtain ⟨rounds, standing, h⟩ := run.rounds p i
        have shows := h.shows t ht hwho
        rw [hops] at shows
        refine ⟨p, i, item, hwho, hlatch, known.mono took.history_subset, ?_⟩
        rw [diary, filterMap_concat, ← diary, h.diary, shows.eq_ended]
        simp [Standing.duties]
      · have told' : ¬Untold w.history l := by
          obtain ⟨state, stands⟩ := reachable.stands (o := .latch l) Origin.noConfusion
          obtain ⟨latch, found, -⟩ := stands.begun (stands.ne_idle mem calls)
          exact fun untold => told (took.untold (List.getElem?_eq_some_iff.mp found).1 untold)
        obtain ⟨p, i, item, hwho, hlatch, known, mem⟩ := ih mem told'
        refine ⟨p, i, item, hwho, hlatch, known.mono took.history_subset, ?_⟩
        rw [diary, filterMap_concat]
        exact List.mem_append_left _ mem

/-! ### The finale of a batch without members -/

/-- Only the step that has been given the id of a batch takes part in performing its finale. -/
theorem Reachable.issuer_of_part (h : w.Reachable) {part : Part}
    (mem : part ∈ w.parts (.batch p id)) :
    ∃ b, (part.who, .issued p id (.batch b)) ∈ w.history := by
  revert part
  refine h.induct (P := fun w => ∀ {part}, part ∈ w.parts (.batch p id) →
    ∃ b, (part.who, .issued p id (.batch b)) ∈ w.history) (fun cells => ?_)
    (fun w command _ ih => ?_) ?_
  · intro part mem
    cases mem
  · intro part mem
    exact ih (by simpa [parts, load_issue, Op.parts] using mem)
  · intro w v index t old tail e reachable took ih part mem
    obtain ⟨r, before, after⟩ := took.parts (.batch p id)
    have stack := took.leads reachable.orderly
    have performs := took.act.performs stack.1 (o := .batch p id) Origin.noConfusion
    have known : ∀ {part}, part ∈ (old.map (Op.parts (.batch p id) t.who)).sum →
        ∃ b, (part.who, .issued p id (.batch b)) ∈ v.history := fun hpart => by
      obtain ⟨b, issued⟩ := ih (before ▸ Multiset.mem_add.mpr (.inl hpart))
      exact ⟨b, took.history_subset issued⟩
    rcases Multiset.mem_add.mp (after ▸ mem) with mem | mem
    · obtain mem | ⟨hwho, ⟨op, -, begins⟩ | ⟨part', mem', hwho'⟩⟩ := performs.of_mem_after mem
      · exact known mem
      · cases begins with
        | batch command p pool b found told => exact ⟨b, took.mem_history.mpr (.inl ⟨hwho, told⟩)⟩
      · rw [hwho, ← hwho']
        exact known mem'
    · obtain ⟨b, issued⟩ := ih (before ▸ Multiset.mem_add.mpr (.inr mem))
      exact ⟨b, took.history_subset issued⟩

/-- A function is called on account of a batch only if the batch has a finale and no members, and
then by the step that submits it. -/
theorem Reachable.batch_called (h : w.Reachable) {x : Who × Entry}
    (mem : x ∈ w.calls (.batch p id)) :
    ∃ b job, (x.1, .issued p id (.batch b)) ∈ w.history ∧ b.members = [] ∧
      b.finale = some job := by
  revert x
  refine h.induct (P := fun w => ∀ {x}, x ∈ w.calls (.batch p id) →
    ∃ b job, (x.1, .issued p id (.batch b)) ∈ w.history ∧ b.members = [] ∧ b.finale = some job)
    (fun cells => ?_) (fun w command _ ih => ih) ?_
  · intro x mem
    cases mem
  · intro w v index t old tail e reachable took ih x mem
    rw [took.calls, List.mem_append] at mem
    rcases mem with mem | mem
    · obtain ⟨r, before, -⟩ := took.parts (.batch p id)
      have ht := took.mem_threads
      have stack := took.leads reachable.orderly
      obtain ⟨hwho, part, hpart, hwho'⟩ :=
        (took.act.performs stack.1 (o := .batch p id) Origin.noConfusion).of_mem_notes mem
      obtain ⟨b, issued⟩ := reachable.issuer_of_part (before ▸ Multiset.mem_add.mpr (.inl hpart))
      obtain ⟨hmem, calls⟩ := List.mem_filter.mp mem
      obtain ⟨note, hnote, rfl⟩ := List.mem_map.mp (List.mem_reverse.mp hmem)
      obtain ⟨above, rest, ops, behind, hstack⟩ :=
        took.after_of_call reachable hnote Origin.noConfusion calls
      cases behind with
      | batch p batch id asker =>
          have recorded := reachable.known.ops t ht
            (.construct (.submission p batch id asker) true) (by simp [ops])
          obtain rfl : b = batch := by simpa using reachable.issue_eq ⟨_, issued⟩ recorded
          cases hstack.1 with
          | constructBatch steps _ _ _ job name handover _ empty finale =>
              exact ⟨b, job, took.history_subset (hwho' ▸ issued), empty, finale⟩
    · obtain ⟨b, job, issued, rest⟩ := ih mem
      exact ⟨b, job, took.history_subset issued, rest⟩

end World

end WorkerPool
