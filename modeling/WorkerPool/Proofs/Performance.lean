import WorkerPool.Proofs.Course

/-! Performances: the calls that are made on account of an item, a latch or a batch. `Trail` says
which calls, returns and panics can follow each other in one performance and how far it has come by
them. The functions of a performance are called in one thread, and behind them stands the operation
that deals with the end, its catcher.

The main result is that each origin has one performance at most, in every run: what its entries say
is what the operations of all threads have left to do of it. As long as there is a function to be
called there is one thread that calls it, with one catcher behind; the catcher knows how the
performance has ended; and when it has dealt with that, nothing is left. -/

namespace WorkerPool

variable {α : Type}

/-- A part of a performance that a thread has in front of it: functions to be called, the number of
those that have been called and whether one of them is going on; or the catcher, with the functions
of the whole performance and whether it has ended well as far as the catcher knows. -/
inductive Part
  | code (who : Who) (position : Nat) (inside : Bool) (later : List Program)
  | catcher (who : Who) (programs : List Program) (fine : Bool)

/-- How far a performance has come: not begun, between two functions, inside a function, at its end,
and behind its end. -/
inductive Performance
  | idle
  | between (who : Who) (done later : List Program)
  | inside (who : Who) (done : List Program) (program : Program) (later : List Program)
  | through (who : Who) (programs : List Program)
  | broken (who : Who) (done : List Program) (program : Program) (later : List Program)
  | settled (who : Who) (programs : List Program)
  | spoilt (who : Who) (done : List Program) (program : Program) (later : List Program)

/-- The parts that are left of a performance. -/
def Performance.parts : Performance → Multiset Part
  | .between who done later =>
    {.code who done.length false later} + {.catcher who (done ++ later) true}
  | .inside who done program later =>
    {.code who (done.length + 1) true later} + {.catcher who (done ++ program :: later) true}
  | .through who programs => {.catcher who programs true}
  | .broken who done program later => {.catcher who (done ++ program :: later) false}
  | .idle | .settled .. | .spoilt .. => 0

/-- The entries about the calls on account of `o`. -/
def Entry.calls (o : Origin) : Who × Entry → Bool
  | (_, .called o' _ _) | (_, .returned o' _) | (_, .raised o' _) => o' == o
  | _ => false

/-- The entries about the calls of a performance, latest first, and how far it has come by them. -/
inductive Trail (o : Origin) : List (Who × Entry) → Performance → Prop
  | idle : Trail o [] .idle
  | begun (who : Who) (programs : List Program) : Trail o [] (.between who [] programs)
  | called {h : List (Who × Entry)} {who : Who} {done later : List Program} {program : Program}
      (before : Trail o h (.between who done (program :: later))) :
      Trail o ((who, .called o done.length program) :: h) (.inside who done program later)
  | returned {h : List (Who × Entry)} {who : Who} {done later : List Program} {program : Program}
      (before : Trail o h (.inside who done program later)) :
      Trail o ((who, .returned o done.length) :: h) (.between who (done ++ [program]) later)
  | raised {h : List (Who × Entry)} {who : Who} {done later : List Program} {program : Program}
      (before : Trail o h (.inside who done program later)) :
      Trail o ((who, .raised o done.length) :: h) (.broken who done program later)
  | through {h : List (Who × Entry)} {who : Who} {done : List Program}
      (before : Trail o h (.between who done [])) : Trail o h (.through who done)
  | settled {h : List (Who × Entry)} {who : Who} {programs : List Program}
      (before : Trail o h (.through who programs)) : Trail o h (.settled who programs)
  | spoilt {h : List (Who × Entry)} {who : Who} {done later : List Program} {program : Program}
      (before : Trail o h (.broken who done program later)) :
      Trail o h (.spoilt who done program later)

/-- The calls and returns of all functions of a performance, in order. -/
def Origin.account (o : Origin) (who : Who) : Nat → List Program → List (Who × Entry)
  | _, [] => []
  | position, program :: later =>
    (who, .called o position program) :: (who, .returned o position) ::
      o.account who (position + 1) later

theorem Origin.account_append (o : Origin) (who : Who) (position : Nat) (ps qs : List Program) :
    o.account who position (ps ++ qs) =
      o.account who position ps ++ o.account who (position + ps.length) qs := by
  induction ps generalizing position with
  | nil => rfl
  | cons p ps ih =>
      rw [List.cons_append, account, account, ih, List.length_cons, Nat.add_right_comm,
        Nat.add_assoc]
      rfl

/-- The entries of a performance as far as it has come. -/
def Performance.account (o : Origin) : Performance → List (Who × Entry)
  | .idle => []
  | .between who done _ | .through who done | .settled who done => o.account who 0 done
  | .inside who done program _ => o.account who 0 done ++ [(who, .called o done.length program)]
  | .broken who done program _ | .spoilt who done program _ =>
    o.account who 0 done ++ [(who, .called o done.length program), (who, .raised o done.length)]

/-- The entries of a performance are those of the functions that it has come through, in order. -/
theorem Trail.reverse_eq {o : Origin} {h : List (Who × Entry)} {state : Performance}
    (trail : Trail o h state) : h.reverse = state.account o := by
  induction trail with
  | idle => rfl
  | begun who programs => rfl
  | called before ih => rw [List.reverse_cons, ih]; rfl
  | returned before ih =>
      rw [List.reverse_cons, ih, Performance.account, Performance.account, Origin.account_append]
      simp [Origin.account]
  | raised before ih =>
      rw [List.reverse_cons, ih, Performance.account, Performance.account]
      simp
  | through before ih => exact ih
  | settled before ih => exact ih
  | spoilt before ih => exact ih

namespace Op

/-- The part of a performance on account of `o` that an operation is. -/
def parts (o : Origin) (who : Who) : Op α → Multiset Part
  | .code o' position current later =>
    if o' = o then {.code who position current.isSome later} else 0
  | .work p _ (.running item panic) =>
    if .item p item.id = o then {.catcher who item.job.programs panic.isNone} else 0
  | .latch l (.running job succeeded) _ =>
    if .latch l = o then {.catcher who job.programs succeeded} else 0
  | .construct (.submission p batch id _) succeeded =>
    if .batch p id = o then {.catcher who ((batch.finale.map Job.programs).getD []) succeeded} else 0
  | _ => 0

theorem parts_wake (o : Origin) (who : Who) (op : Op α) : op.wake.parts o who = op.parts o who := by
  cases op with
  | work p index phase =>
      cases phase with
      | receive call => cases call <;> rfl
      | _ => rfl
  | submit sub phase =>
      cases phase with
      | send call => rfl
      | _ => rfl
  | latch l call waiter => cases call <;> rfl
  | _ => rfl

theorem Plain.parts {op : Op α} (h : op.Plain) {o : Origin} (ho : o ≠ .caller) (who : Who) :
    op.parts o who = 0 := by
  unfold Op.parts
  split
  · rename_i o' position current later
    cases o' with
    | caller => exact if_neg (Ne.symm ho)
    | _ => exact h.elim
  · exact h.elim
  · exact h.elim
  · exact h.elim
  · rfl

theorem Free.parts {s : Store α} {op : Op α} (h : op.Free s) {o : Origin} (ho : o ≠ .caller)
    (who : Who) : op.parts o who = 0 := by
  rcases h with h | ⟨l, failed, rfl, -⟩
  · exact h.parts ho who
  · rfl

end Op

/-- What a turn of `who` can do to a performance. `c` is what stays as it is. When a performance is
begun, `begins` says why it can be, and when a catcher takes its turn, `ends` says that it is due.
-/
inductive Performs (o : Origin) (who : Who) (begins ends : Prop) :
    Multiset Part → List (Who × Entry) → Multiset Part → Prop
  | rest (c : Multiset Part) : Performs o who begins ends c [] c
  | start (begun : begins) (programs : List Program) :
      Performs o who begins ends 0 [] ({.code who 0 false programs} + {.catcher who programs true})
  | call (position : Nat) (program : Program) (later : List Program) :
      Performs o who begins ends {.code who position false (program :: later)}
        [(who, .called o position program)] {.code who (position + 1) true later}
  | back (position : Nat) (later : List Program) :
      Performs o who begins ends {.code who position true later}
        [(who, .returned o (position - 1))] {.code who position false later}
  | through (position : Nat) : Performs o who begins ends {.code who position false []} [] 0
  | fall (position : Nat) (later programs : List Program) :
      Performs o who begins ends ({.code who position true later} + {.catcher who programs true})
        [(who, .raised o (position - 1))] {.catcher who programs false}
  | settle (ended : ends) (programs : List Program) (fine : Bool) :
      Performs o who begins ends {.catcher who programs fine} [] 0

theorem Performance.of_code {who : Who} {position : Nat} {inside : Bool} {later : List Program}
    {c : Multiset Part} {state : Performance}
    (h : {Part.code who position inside later} + c = state.parts) :
    (∃ done, state = .between who done later ∧ inside = false ∧ position = done.length ∧
      c = {.catcher who (done ++ later) true}) ∨
    (∃ done program, state = .inside who done program later ∧ inside = true ∧
      position = done.length + 1 ∧ c = {.catcher who (done ++ program :: later) true}) := by
  have h : Part.code who position inside later ::ₘ c = state.parts := h
  cases state with
  | between who' done later' =>
      have h : _ = Part.code who' done.length false later' ::ₘ
          {.catcher who' (done ++ later') true} := h
      rcases Multiset.cons_eq_cons.mp h with ⟨heq, rfl⟩ | ⟨-, cs, -, hcs⟩
      · cases heq
        exact .inl ⟨done, rfl, rfl, rfl, rfl⟩
      · simp [Multiset.singleton_eq_cons_iff] at hcs
  | inside who' done program later' =>
      have h : _ = Part.code who' (done.length + 1) true later' ::ₘ
        {.catcher who' (done ++ program :: later') true} := h
      rcases Multiset.cons_eq_cons.mp h with ⟨heq, rfl⟩ | ⟨-, cs, -, hcs⟩
      · cases heq
        exact .inr ⟨done, program, rfl, rfl, rfl, rfl⟩
      · simp [Multiset.singleton_eq_cons_iff] at hcs
  | idle => exact absurd h (Multiset.cons_ne_zero)
  | settled => exact absurd h (Multiset.cons_ne_zero)
  | spoilt => exact absurd h (Multiset.cons_ne_zero)
  | through who' programs =>
      have h : _ = ({.catcher who' programs true} : Multiset Part) := h
      simp [eq_comm, Multiset.singleton_eq_cons_iff] at h
  | broken who' done program later' =>
      have h : _ = ({.catcher who' (done ++ program :: later') false} : Multiset Part) := h
      simp [eq_comm, Multiset.singleton_eq_cons_iff] at h

theorem Performance.of_catcher {who : Who} {programs : List Program} {fine : Bool}
    {c : Multiset Part} {state : Performance}
    (h : {Part.catcher who programs fine} + c = state.parts) :
    (fine = true ∧ ((∃ position inside later, c = {.code who position inside later}) ∨
      (state = .through who programs ∧ c = 0))) ∨
    (fine = false ∧ ∃ done program later, state = .broken who done program later ∧
      programs = done ++ program :: later ∧ c = 0) := by
  have h : Part.catcher who programs fine ::ₘ c = state.parts := h
  cases state with
  | between who' done later' =>
      have h : _ = Part.code who' done.length false later' ::ₘ
          {.catcher who' (done ++ later') true} := h
      rcases Multiset.cons_eq_cons.mp h with ⟨heq, rfl⟩ | ⟨-, cs, rfl, hcs⟩
      · cases heq
      · rw [Multiset.singleton_eq_cons_iff] at hcs
        obtain ⟨hcs, rfl⟩ := hcs
        cases hcs
        exact .inl ⟨rfl, .inl ⟨_, _, _, rfl⟩⟩
  | inside who' done program later' =>
      have h : _ = Part.code who' (done.length + 1) true later' ::ₘ
        {.catcher who' (done ++ program :: later') true} := h
      rcases Multiset.cons_eq_cons.mp h with ⟨heq, rfl⟩ | ⟨-, cs, rfl, hcs⟩
      · cases heq
      · rw [Multiset.singleton_eq_cons_iff] at hcs
        obtain ⟨hcs, rfl⟩ := hcs
        cases hcs
        exact .inl ⟨rfl, .inl ⟨_, _, _, rfl⟩⟩
  | idle => exact absurd h (Multiset.cons_ne_zero)
  | settled => exact absurd h (Multiset.cons_ne_zero)
  | spoilt => exact absurd h (Multiset.cons_ne_zero)
  | through who' programs' =>
      have h : _ = ({.catcher who' programs' true} : Multiset Part) := h
      rw [eq_comm, Multiset.singleton_eq_cons_iff] at h
      obtain ⟨heq, rfl⟩ := h
      cases heq
      exact .inl ⟨rfl, .inr ⟨rfl, rfl⟩⟩
  | broken who' done program later' =>
      have h : _ = ({.catcher who' (done ++ program :: later') false} : Multiset Part) := h
      rw [eq_comm, Multiset.singleton_eq_cons_iff] at h
      obtain ⟨heq, rfl⟩ := h
      cases heq
      exact .inr ⟨rfl, done, program, later', rfl, rfl, rfl⟩

/-- What a turn does to a performance takes its trail and its parts along. -/
theorem Performs.trail {o : Origin} {who : Who} {begins ends : Prop}
    {before after r : Multiset Part} {notes h : List (Who × Entry)} {state : Performance}
    (performs : Performs o who begins ends before notes after) (trail : Trail o h state)
    (left : before + r = state.parts) (fresh : begins → state = .idle)
    (due : ends → ∀ who position inside later, r ≠ {.code who position inside later}) :
    ∃ state', Trail o (notes ++ h) state' ∧ after + r = state'.parts ∧
      (state = .idle → begins ∨ state' = .idle) := by
  cases performs with
  | rest => exact ⟨state, trail, left, .inr⟩
  | start begun programs =>
      obtain rfl := fresh begun
      cases trail
      refine ⟨.between who [] programs, .begun who programs, ?_, fun _ => .inl begun⟩
      rw [zero_add] at left
      rw [left]
      rfl
  | call position program later =>
      rcases Performance.of_code left with ⟨done, rfl, -, rfl, hc⟩ | ⟨_, _, _, hinside, -⟩
      · exact ⟨.inside who done program later, .called trail, by rw [hc]; rfl, by simp⟩
      · cases hinside
  | back position later =>
      rcases Performance.of_code left with ⟨_, _, hinside, -⟩ | ⟨done, program, rfl, -, rfl, hc⟩
      · cases hinside
      · refine ⟨.between who (done ++ [program]) later, .returned trail, ?_, by simp⟩
        rw [hc]
        simp [Performance.parts]
  | through position =>
      rcases Performance.of_code left with ⟨done, rfl, -, rfl, hc⟩ | ⟨_, _, _, hinside, -⟩
      · exact ⟨.through who done, .through trail, by rw [hc]; simp [Performance.parts], by simp⟩
      · cases hinside
  | fall position later programs =>
      rw [add_assoc] at left
      rcases Performance.of_code left with ⟨_, _, hinside, -⟩ | ⟨done, program, rfl, -, rfl, hc⟩
      · cases hinside
      · have hc : Part.catcher who programs true ::ₘ r =
          {.catcher who (done ++ program :: later) true} := hc
        rw [eq_comm, Multiset.singleton_eq_cons_iff] at hc
        obtain ⟨heq, rfl⟩ := hc
        cases heq
        exact ⟨.broken who done program later, .raised trail, rfl, by simp⟩
  | settle ended programs fine =>
      rcases Performance.of_catcher left with ⟨rfl, ⟨position, inside, later, hcode⟩ | ⟨rfl, hzero⟩⟩ |
        ⟨rfl, done, program, later, rfl, rfl, hzero⟩
      · exact absurd hcode (due ended who position inside later)
      · exact ⟨.settled who programs, .settled trail, by rw [zero_add, hzero]; rfl, by simp⟩
      · exact ⟨.spoilt who done program later, .spoilt trail, by rw [zero_add, hzero]; rfl, by simp⟩

/-! ### The performances of a turn -/

/-- A turn begins a performance on account of `o`, and leaves a sign of it. -/
inductive Op.Begins (s : Store α) (who : Who) (e : Effect α) : Op α → Origin → Prop
  | item (p index : Nat) (item : Item) (self : who = .worker p index)
      (told : Entry.line (.jobStarted item.id) ∈ e.notes) :
      Begins s who e (.work p index (.begin item)) (.item p item.id)
  | finale (l : Nat) (latch latch' : Latch) (job : Job) (found : s.latches[l]? = some latch)
      (held : latch.value.continuation = some job) (left : e.store.latches[l]? = some latch')
      (spent : latch'.value.continuation = none) :
      Begins s who e (.latch l (.count false) .nobody) (.latch l)
  | batch (command : Command α) (p : Nat) (pool : Pool) (batch : Batch)
      (found : s.pools[p]? = some pool) (told : Entry.issued p pool.nextId (.batch batch) ∈ e.notes) :
      Begins s who e (.command command) (.batch p pool.nextId)

/-- The operation deals with the end of the performance on account of `o`. -/
inductive Op.Ends : Op α → Origin → Prop
  | item (p index : Nat) (item : Item) (panic : Option Payload) :
      Ends (.work p index (.running item panic)) (.item p item.id)
  | finale (l : Nat) (job : Job) (succeeded : Bool) (waiter : Waiter) :
      Ends (.latch l (.running job succeeded) waiter) (.latch l)
  | batch (p : Nat) (batch : Batch) (id : Nat) (asker : Asker) (succeeded : Bool) :
      Ends (.construct (.submission p batch id asker) succeeded) (.batch p id)

theorem Op.Ends.parts {op : Op α} {o : Origin} (h : op.Ends o) (who : Who) :
    ∃ programs fine, op.parts o who = {.catcher who programs fine} := by
  cases h with
  | item p index item panic => exact ⟨_, _, if_pos rfl⟩
  | finale l job succeeded waiter => exact ⟨_, _, if_pos rfl⟩
  | batch p batch id asker succeeded => exact ⟨_, _, if_pos rfl⟩

section Deeds

variable {around : Around} {s : Store α} {who : Who} {e : Effect α}

/-- The parts of a performance that are left after an act. -/
def Effect.parts (e : Effect α) (o : Origin) (who : Who) : Multiset Part :=
  (e.ops.map (Op.parts o who)).sum + (e.births.map fun t => (t.ops.map (Op.parts o t.who)).sum).sum

/-- What an act records of the calls on account of `o`. -/
def Effect.calls (e : Effect α) (o : Origin) (who : Who) : List (Who × Entry) :=
  (e.notes.map (who, ·)).reverse.filter (Entry.calls o)

theorem Entry.Plain.calls {note : Entry} (h : note.Plain) (o : Origin) (who : Who) :
    Entry.calls o (who, note) = false := by
  cases note with
  | event | line => rfl
  | _ => exact h.elim

theorem Performs.of_eq {o : Origin} {begins ends : Prop}
    {before before' after after' : Multiset Part}
    {notes notes' : List (Who × Entry)} (h : Performs o who begins ends before notes after)
    (hbefore : before' = before) (hnotes : notes' = notes) (hafter : after' = after) :
    Performs o who begins ends before' notes' after' := by
  subst hbefore hnotes hafter
  exact h

/-- Most turns leave a performance alone. -/
theorem Performs.of_same {o : Origin} {begins ends : Prop} {before : Multiset Part}
    {notes : List Entry} {ops : List (Op α)} {s' : Store α} {alarm : Alarm}
    {answer : Option (Answer α)} (hops : (ops.map (Op.parts o who)).sum = before)
    (hnotes : ∀ note ∈ notes, Entry.calls o (who, note) = false) :
    Performs o who begins ends before
      (Effect.calls { store := s', ops, notes, alarm, answer } o who)
      (Effect.parts { store := s', ops, notes, alarm, answer } o who) := by
  have hcalls : Effect.calls { store := s', ops, notes, alarm, answer } o who = [] := by
    simp only [Effect.calls, List.filter_eq_nil_iff, List.mem_reverse, List.mem_map]
    rintro _ ⟨note, hnote, rfl⟩
    simp [hnotes note hnote]
  rw [hcalls, Effect.parts, hops]
  simpa using Performs.rest before

theorem Op.Submits.parts {op : Op α} {made : List (Op α)} {asker : Asker}
    (submits : op.Submits made asker) (o : Origin) (who : Who) :
    (made.map (Op.parts o who)).sum = op.parts o who := by
  cases submits with
  | command => rfl
  | action origin position action rest later => simp [Op.parts]

theorem Op.Settles.parts {op : Op α} (h : op.Settles) (o : Origin) (who : Who) :
    op.parts o who = 0 := by
  cases h <;> rfl

theorem sum_parts_of_free {ops : List (Op α)} (h : ∀ op ∈ ops, op.Free s) {o : Origin}
    (ho : o ≠ .caller) (who : Who) : (ops.map (Op.parts o who)).sum = 0 :=
  sum_map_eq_zero (M := Multiset Part) fun op hop => (h op hop).parts ho who

theorem sum_parts_of_plain {ops : List (Op α)} (h : ∀ op ∈ ops, op.Plain) {o : Origin}
    (ho : o ≠ .caller) (who : Who) : (ops.map (Op.parts o who)).sum = 0 :=
  sum_map_eq_zero (M := Multiset Part) fun op hop => (h op hop).parts ho who

theorem sum_parts_of_settles {ops : List (Op α)} (h : ∀ op ∈ ops, op.Settles) (o : Origin)
    (who : Who) : (ops.map (Op.parts o who)).sum = 0 :=
  sum_map_eq_zero (M := Multiset Part) fun op hop => (h op hop).parts o who

theorem Deed.performs {op : Op α} (deed : Deed around s who op e) (quiet : e.panic = none)
    {rest : List (Op α)} (before : op.Before who rest) {o : Origin} (ho : o ≠ .caller) :
    Performs o who (op.Begins s who e o) (op.Ends o) (op.parts o who) (e.calls o who)
      (e.parts o who) := by
  cases deed with
  | commanded command eases leaves plain =>
      exact .of_same (sum_parts_of_free leaves.free ho who) fun note h => (plain note h).calls o who
  | jobAdded submits place pool job found waitable =>
      refine .of_same ?_ (by simp [Entry.calls])
      rw [List.map_append, List.sum_append, submits.parts o who]
      exact zero_add _
  | freeJobAdded submits place pool job found free =>
      refine .of_same ?_ (by simp [Entry.calls])
      rw [List.map_append, List.sum_append, submits.parts o who]
      exact zero_add _
  | emptyBatchAdded command place pool batch job ticket found finale empty =>
      by_cases hit : .batch place pool.nextId = o
      · subst hit
        refine .of_eq (.start (.batch command place pool batch found (by simp)) job.programs) rfl ?_ ?_
        · simp [Effect.calls, Entry.calls]
        · simp [Effect.parts, Op.parts, Op.perform, finale]
      · refine .of_same ?_ (by simp [Entry.calls])
        simp [Op.parts, Op.perform, hit]
  | batchSettled place pool batch id asker succeeded found =>
      by_cases hit : .batch place id = o
      · subst hit
        refine .of_eq (.settle (.batch place batch id asker succeeded)
          ((batch.finale.map Job.programs).getD []) succeeded) ?_ ?_ ?_
        · simp [Op.parts]
        · simp [Effect.calls, Entry.calls]
        · simp [Effect.parts, Op.parts]
      · refine .of_same ?_ (by simp [Entry.calls])
        simp [Op.parts, hit]
  | codeOver origin position =>
      by_cases hit : origin = o
      · subst hit
        refine .of_eq (.through position) ?_ ?_ ?_
        · simp [Op.parts]
        · simp [Effect.calls]
        · simp [Effect.parts]
      · exact .of_same (by simp [Op.parts, hit]) (by simp)
  | codeCalled origin position program later =>
      by_cases hit : origin = o
      · subst hit
        refine .of_eq (.call position program later) ?_ ?_ ?_
        · simp [Op.parts]
        · simp [Effect.calls, Entry.calls]
        · simp [Effect.parts, Op.parts]
      · exact .of_same (by simp [Op.parts, hit]) (by simp [Entry.calls, hit])
  | codeReturned origin position later =>
      by_cases hit : origin = o
      · subst hit
        refine .of_eq (.back position later) ?_ ?_ ?_
        · simp [Op.parts]
        · simp [Effect.calls, Entry.calls]
        · simp [Effect.parts, Op.parts]
      · exact .of_same (by simp [Op.parts, hit]) (by simp [Entry.calls, hit])
  | acted origin position action rest later eases leaves plain =>
      refine .of_same ?_ fun note h => (plain note h).calls o who
      rw [List.map_append, List.sum_append, sum_parts_of_free leaves.free ho who, zero_add]
      simp [Op.parts]
  | monitorTurned place call left =>
      refine .of_same ?_ (by simp)
      rcases left with rfl | ⟨call, rfl⟩ <;> rfl
  | channelTurned place call left =>
      refine .of_same ?_ (by simp)
      rcases left with rfl | ⟨call, rfl⟩ <;> rfl
  | countStarted place l job found counts last held sound =>
      by_cases hit : .latch place = o
      · subst hit
        have left := Store.getElem?_setLatch found { l with value :=
          { l.value with failed := false, continuation := none, finishing := true } } place
        rw [if_pos rfl] at left
        refine .of_eq (.start (.finale place l _ job found held left rfl) job.programs) rfl ?_ ?_
        · simp [Effect.calls, Entry.calls]
        · simp [Effect.parts, Op.parts, Op.perform]
      · refine .of_same ?_ (by simp [Entry.calls])
        simp [Op.parts, Op.perform, hit]
  | counted place l failed found counts plain =>
      refine .of_same ?_ (by simp [Entry.calls])
      split <;> rfl
  | continued place l job succeeded found =>
      by_cases hit : .latch place = o
      · subst hit
        refine .of_eq (.settle (.finale place job succeeded .nobody) job.programs succeeded) ?_ ?_ ?_
        · simp [Op.parts]
        · simp [Effect.calls]
        · rw [Effect.parts]
          split <;> simp [Op.parts]
      · refine .of_same ?_ (by simp)
        split <;> simp [Op.parts, hit]
  | poolReady place l stage pool q name succeeded found awake verdict present =>
      refine .of_same ?_ (by simp [Entry.calls])
      cases s.names.pools.find? name <;> rfl
  | left place pool found =>
      refine .of_same ?_ (by simp)
      split <;> rfl
  | accepted sub pool found through hands plain =>
      exact .of_same (sum_parts_of_plain hands.plain ho who)
        fun note h => (plain note h).calls o who
  | refusing sub pool item found =>
      refine .of_same ?_ (by simp [Entry.calls])
      rw [List.map_append, List.sum_append, sum_parts_of_settles (Op.discard_settles _ _),
        sum_parts_of_settles sub.afterRefusal_settles]
      rfl
  | refused sub pool found refuses plain =>
      exact .of_same (sum_parts_of_plain refuses.plain ho who)
        fun note h => (plain note h).calls o who
  | jobStarted place index pool item found =>
      by_cases hit : .item place item.id = o
      · subst hit
        refine .of_eq (.start (.item place index item before.self (by simp)) item.job.programs)
          rfl ?_ ?_
        · simp [Effect.calls, Entry.calls]
        · simp [Effect.parts, Op.parts, Op.perform]
      · refine .of_same ?_ (by simp [Entry.calls])
        simp [Op.parts, Op.perform, hit]
  | jobRan place index pool item found =>
      have hcomplete := sum_parts_of_settles (α := α) (Op.complete_settles item.latch false) o who
      by_cases hit : .item place item.id = o
      · subst hit
        refine .of_eq (.settle (.item place index item none) item.job.programs true) ?_ ?_ ?_
        · simp [Op.parts]
        · simp [Effect.calls]
        · simp [Effect.parts, Op.parts, hcomplete]
      · refine .of_same ?_ (by simp)
        simp [Op.parts, hit, hcomplete]
  | jobBroke place index pool item payload found =>
      have hcomplete := sum_parts_of_settles (α := α) (Op.complete_settles item.latch true) o who
      by_cases hit : .item place item.id = o
      · subst hit
        refine .of_eq (.settle (.item place index item (some payload)) item.job.programs false) ?_ ?_ ?_
        · simp [Op.parts]
        · simp [Effect.calls, Entry.calls]
        · simp [Effect.parts, Op.parts, hcomplete]
      · refine .of_same ?_ (by simp [Entry.calls])
        simp [Op.parts, hit, hcomplete]
  | jobFinished place index pool item succeeded found =>
      refine .of_same rfl ?_
      cases succeeded <;> simp [Entry.calls]
  | drained place pool ring found valid empty capacity =>
      refine .of_same rfl ?_
      simp [Entry.calls]
  | abandoned place pool items found =>
      refine .of_same ?_ ?_
      · rw [List.map_append, List.sum_append,
          sum_parts_of_settles (Op.flatMap_discard_settles _ _)]
        rfl
      · cases items <;> simp [Entry.calls]
  | spawned place index name pool found inside =>
      exact .rest 0
  | actionRaised | deadlocked => cases quiet
  | _ => exact .of_same rfl (by simp [Entry.calls])

theorem Performs.mono {o : Origin} {begins ends begins' ends' : Prop} {before after : Multiset Part}
    {notes : List (Who × Entry)} (h : Performs o who begins ends before notes after)
    (hbegins : begins → begins') (hends : ends → ends') :
    Performs o who begins' ends' before notes after := by
  cases h with
  | rest => exact .rest before
  | start begun programs => exact .start (hbegins begun) programs
  | call position program later => exact .call position program later
  | back position later => exact .back position later
  | through position => exact .through position
  | fall position later programs => exact .fall position later programs
  | settle ended programs fine => exact .settle (hends ended) programs fine

/-- The functions that a panic passes are called on account of callers only. -/
theorem Op.calls_raisedNotes {above : List (Op α)} (loose : ∀ op ∈ above, op.Loose) {o : Origin}
    (ho : o ≠ .caller) :
    ∀ note ∈ above.flatMap Op.raisedNotes, Entry.calls o (who, note) = false := by
  intro note hnote
  obtain ⟨op, hop, hnote⟩ := List.mem_flatMap.mp hnote
  unfold raisedNotes at hnote
  split at hnote
  · obtain ⟨rfl, -⟩ := loose _ hop
    obtain rfl := List.mem_singleton.mp hnote
    simp [Entry.calls, Ne.symm ho]
  · cases hnote

theorem Op.Lands.performs {payload : Payload} {old new above : List (Op α)} {notes : List Entry}
    (lands : Op.Lands payload old new notes) (loose : ∀ op ∈ above, op.Loose) {o : Origin}
    (ho : o ≠ .caller) {begins ends : Prop} :
    Performs o who begins ends ((old.map (Op.parts o who)).sum)
      (Effect.calls (α := α) { store := s, ops := new, notes := above.flatMap Op.raisedNotes ++ notes }
        o who)
      (Effect.parts { store := s, ops := new, notes := above.flatMap Op.raisedNotes ++ notes }
        o who) := by
  have hnone : (((above.flatMap Op.raisedNotes).map (who, ·)).filter (Entry.calls o)) = [] := by
    simp only [List.filter_eq_nil_iff, List.mem_map]
    rintro _ ⟨note, hnote, rfl⟩
    simp [Op.calls_raisedNotes loose ho note hnote]
  have hcalls : Effect.calls (α := α)
      { store := s, ops := new, notes := above.flatMap Op.raisedNotes ++ notes } o who =
      ((notes.map (who, ·)).reverse.filter (Entry.calls o)) := by
    rw [Effect.calls, List.map_append, List.reverse_append, List.filter_append,
      List.filter_reverse (l := (above.flatMap Op.raisedNotes).map (who, ·)), hnone]
    simp
  rw [hcalls, Effect.parts]
  cases lands with
  | nowhere => exact .rest 0
  | item position current later p index item =>
      by_cases hit : .item p item.id = o
      · subst hit
        refine .of_eq (.fall position later item.job.programs) ?_ ?_ ?_
        · simp [Op.parts]
        · simp [Entry.calls]
        · simp [Op.parts]
      · refine .of_eq (.rest 0) ?_ ?_ ?_ <;> simp [Op.parts, Entry.calls, hit]
  | finale position current later l job =>
      by_cases hit : .latch l = o
      · subst hit
        refine .of_eq (.fall position later job.programs) ?_ ?_ ?_
        · simp [Op.parts]
        · simp [Entry.calls]
        · simp [Op.parts]
      · refine .of_eq (.rest 0) ?_ ?_ ?_ <;> simp [Op.parts, Entry.calls, hit]
  | batch position current later p batch id asker =>
      by_cases hit : .batch p id = o
      · subst hit
        refine .of_eq (.fall position later ((batch.finale.map Job.programs).getD [])) ?_ ?_ ?_
        · simp [Op.parts]
        · simp [Entry.calls]
        · simp [Op.parts]
      · refine .of_eq (.rest 0) ?_ ?_ ?_ <;> simp [Op.parts, Entry.calls, hit]
  | latchMade position current later name =>
      refine .of_eq (.rest 0) ?_ ?_ ?_ <;> simp [Op.parts, Entry.calls, Ne.symm ho]

theorem Act.performs {old : List (Op α)} (act : Act around s who old e) {rest : List (Op α)}
    (leads : Op.Leads who old rest) {o : Origin} (ho : o ≠ .caller) :
    Performs o who (∃ op, old = [op] ∧ op.Begins s who e o) (∃ op, old = [op] ∧ op.Ends o)
      ((old.map (Op.parts o who)).sum) (e.calls o who) (e.parts o who) := by
  cases act with
  | deed deed quiet =>
      rw [List.map_singleton, List.sum_singleton]
      exact (deed.performs quiet leads.1 ho).mono (fun h => ⟨_, rfl, h⟩) fun h => ⟨_, rfl, h⟩
  | broke payload loose lands uncaught =>
      rw [List.map_append, List.sum_append,
        sum_parts_of_plain (fun op hop => (loose op hop).plain) ho who, zero_add]
      exact lands.performs loose ho

end Deeds

/-! ### Catchers -/

/-- Whether a part is one of functions that are still to be called. -/
def Part.isCode : Part → Bool
  | .code .. => true
  | .catcher .. => false

/-- How many parts are functions still to be called, and how many are catchers. -/
def codes (parts : Multiset Part) : Nat :=
  parts.countP fun part => part.isCode = true

def catchers (parts : Multiset Part) : Nat :=
  parts.countP fun part => part.isCode = false

@[simp] theorem codes_zero : codes 0 = 0 := rfl

@[simp] theorem codes_add (m n : Multiset Part) : codes (m + n) = codes m + codes n :=
  Multiset.countP_add _ m n

@[simp] theorem codes_code (who : Who) (position : Nat) (inside : Bool) (later : List Program) :
    codes {.code who position inside later} = 1 := rfl

@[simp] theorem codes_catcher (who : Who) (programs : List Program) (fine : Bool) :
    codes {.catcher who programs fine} = 0 := rfl

@[simp] theorem catchers_zero : catchers 0 = 0 := rfl

@[simp] theorem catchers_add (m n : Multiset Part) : catchers (m + n) = catchers m + catchers n :=
  Multiset.countP_add _ m n

@[simp] theorem catchers_code (who : Who) (position : Nat) (inside : Bool) (later : List Program) :
    catchers {.code who position inside later} = 0 := rfl

@[simp] theorem catchers_catcher (who : Who) (programs : List Program) (fine : Bool) :
    catchers {.catcher who programs fine} = 1 := rfl

namespace Op

variable {o : Origin} {who : Who}

theorem AfterCode.parts {o : Origin} {rest : List (Op α)} (h : AfterCode o rest)
    (ho : o ≠ .caller) (who : Who) :
    ∃ catcher rest' programs, rest = catcher :: rest' ∧
      catcher.parts o who = {.catcher who programs true} := by
  cases h with
  | caller | latchMade => exact absurd rfl ho
  | batch p batch id asker => exact ⟨_, [], _, rfl, by simp [Op.parts]; rfl⟩
  | finale l job rest => exact ⟨_, rest, _, rfl, by simp [Op.parts]; rfl⟩
  | item p index item => exact ⟨_, [], _, rfl, by simp [Op.parts]; rfl⟩

theorem parts_cases (o : Origin) (who : Who) (op : Op α) :
    op.parts o who = 0 ∨
      (∃ position current later, op = .code o position current later ∧
        op.parts o who = {.code who position current.isSome later}) ∨
      ∃ programs fine, op.parts o who = {.catcher who programs fine} := by
  unfold Op.parts
  split
  · rename_i origin position current later
    split
    · rename_i horigin
      subst horigin
      exact .inr (.inl ⟨position, current, later, rfl, rfl⟩)
    · exact .inl rfl
  all_goals
    first
      | exact .inl rfl
      | split
        · exact .inr (.inr ⟨_, _, rfl⟩)
        · exact .inl rfl

/-- The parts of a performance that a stack holds. -/
def stackParts (o : Origin) (who : Who) (ops : List (Op α)) : Multiset Part :=
  (ops.map (Op.parts o who)).sum

@[simp] theorem stackParts_cons (op : Op α) (ops : List (Op α)) :
    stackParts o who (op :: ops) = op.parts o who + stackParts o who ops := by
  simp [stackParts]

/-- In a stack every part of functions has a catcher of its own behind it. -/
theorem codes_le_catchers (ho : o ≠ .caller) {ops : List (Op α)} (h : Leads who ops []) :
    codes (stackParts o who ops) ≤ catchers (stackParts o who ops) := by
  -- the tail is taken along because a catcher is used up together with the functions in front of it
  suffices hboth : ∀ ops : List (Op α), Leads who ops [] →
      codes (stackParts o who ops) ≤ catchers (stackParts o who ops) ∧
        codes (stackParts o who ops.tail) ≤ catchers (stackParts o who ops.tail) from
    (hboth ops h).1
  intro ops h
  induction ops with
  | nil => exact ⟨Nat.le_refl _, Nat.le_refl _⟩
  | cons op ops ih =>
      obtain ⟨hrest, htail⟩ := ih h.2
      refine ⟨?_, hrest⟩
      rw [stackParts_cons, codes_add, catchers_add]
      rcases parts_cases o who op with hzero | ⟨position, current, later, rfl, hcode⟩ |
        ⟨programs, fine, hcatcher⟩
      · simpa [hzero] using hrest
      · have hbefore := h.1
        rw [List.append_nil] at hbefore
        cases hbefore with
        | code _ _ _ _ after =>
            obtain ⟨catcher, rest', programs, rfl, hcatcher⟩ := after.parts ho who
            rw [List.tail_cons] at htail
            simp only [hcode, stackParts_cons, codes_add, catchers_add, hcatcher, codes_code,
              codes_catcher, catchers_code, catchers_catcher]
            omega
      · simp only [hcatcher, codes_catcher, catchers_catcher]
        omega

end Op

namespace World

/-- The parts of a performance that somebody has in front of him. -/
def parts (w : World α) (o : Origin) : Multiset Part :=
  w.load fun who op => op.parts o who

/-- The entries about the calls on account of `o`, latest first. -/
def calls (w : World α) (o : Origin) : List (Who × Entry) :=
  w.history.filter (Entry.calls o)

/-- A catcher whose turn it is has no functions in front of it, here or anywhere. -/
theorem Orderly.catcher_due {w : World α} (h : w.Orderly) {o : Origin} (ho : o ≠ .caller)
    {index : Nat} {t : Thread α} {op : Op α} {tail : List (Op α)}
    (got : w.threads[index]? = some t) (hops : t.ops = op :: tail) {programs : List Program}
    {fine : Bool} (hop : op.parts o t.who = {.catcher t.who programs fine}) :
    codes (w.parts o) + 1 ≤ catchers (w.parts o) := by
  have hthreads : ∀ threads : List (Thread α), (∀ u ∈ threads, Op.Leads u.who u.ops []) →
      codes (threads.map fun u => Op.stackParts o u.who u.ops).sum ≤
        catchers (threads.map fun u => Op.stackParts o u.who u.ops).sum := by
    intro threads hleads
    induction threads with
    | nil => exact Nat.le_refl _
    | cons u threads ih =>
        rw [List.map_cons, List.sum_cons, codes_add, catchers_add]
        exact Nat.add_le_add (Op.codes_le_catchers ho (hleads u List.mem_cons_self))
          (ih fun u' hu' => hleads u' (List.mem_cons_of_mem u hu'))
  obtain ⟨above, below, hsplit⟩ := List.append_of_mem (List.mem_of_getElem? got)
  have habove := hthreads above fun u hu => h.ordered u (by simp [hsplit, hu])
  have hbelow := hthreads below fun u hu => h.ordered u (by simp [hsplit, hu])
  have hleads := h.ordered t (List.mem_of_getElem? got)
  rw [hops] at hleads
  have htail := Op.codes_le_catchers ho hleads.2
  have hsum : w.parts o = (above.map fun u => Op.stackParts o u.who u.ops).sum +
      (Part.catcher t.who programs fine ::ₘ (Op.stackParts o t.who tail +
        (below.map fun u => Op.stackParts o u.who u.ops).sum)) := by
    have hstack : Op.stackParts o t.who t.ops =
        {Part.catcher t.who programs fine} + Op.stackParts o t.who tail := by
      rw [hops, Op.stackParts_cons, hop]
    show (w.threads.map fun u => Op.stackParts o u.who u.ops).sum = _
    rw [hsplit, List.map_append, List.sum_append, List.map_cons, List.sum_cons, hstack, add_assoc]
    rfl
  rw [hsum, ← Multiset.singleton_add]
  simp only [codes_add, catchers_add, codes_catcher, catchers_catcher]
  omega

/-- There is a sign of a performance on account of the origin. -/
def Begun (w : World α) : Origin → Prop
  | .item p id => ∃ who, (who, Entry.line (.jobStarted id)) ∈ w.course p id
  | .latch l => ∃ latch, w.store.latches[l]? = some latch ∧ latch.value.continuation = none
  | .batch p id => w.issues p id ≠ []
  | .caller => True

theorem Took.begun {w v : World α} {index : Nat} {t : Thread α} {old tail : List (Op α)}
    {e : Effect α} (took : w.Took v index t old tail e) {o : Origin} (h : w.Begun o) :
    v.Begun o := by
  cases o with
  | item p id =>
      obtain ⟨who, hmem⟩ := h
      refine ⟨who, ?_⟩
      rw [World.course, took.history, List.filter_append]
      exact List.mem_append_right _ hmem
  | latch l =>
      obtain ⟨latch, found, spent⟩ := h
      obtain ⟨latch', found', grows⟩ := took.act.latches.grows found
      refine ⟨latch', took.store ▸ found', ?_⟩
      rcases grows.held with hheld | hnone
      · rw [hheld, spent]
      · exact hnone
  | batch p id =>
      have h : w.issues p id ≠ [] := h
      show v.issues p id ≠ []
      rw [took.issues]
      simp [h]
  | caller => trivial

theorem Took.begun_of_begins {w v : World α} {index : Nat} {t : Thread α} {old tail : List (Op α)}
    {e : Effect α} (took : w.Took v index t old tail e) {o : Origin} {op : Op α}
    (begins : op.Begins w.store t.who e o) : v.Begun o := by
  cases begins with
  | item p i item self told =>
      refine ⟨t.who, ?_⟩
      rw [World.course, took.history, List.filter_append]
      refine List.mem_append_left _ (List.mem_filter.mpr ⟨?_, ?_⟩)
      · simpa using told
      · simp [self, Entry.concerns]
  | finale l latch latch' job found held left spent => exact ⟨latch', took.store ▸ left, spent⟩
  | batch command p pool batch found told =>
      have hmem : Issue.batch batch ∈ v.issues p pool.nextId := by
        rw [took.issues, List.mem_append, List.mem_reverse]
        exact .inl (List.mem_filterMap.mpr ⟨_, told, Entry.issue?_eq_some.mpr rfl⟩)
      exact List.ne_nil_of_mem hmem

/-- No performance is begun twice. -/
theorem Took.unbegun {w v : World α} {index : Nat} {t : Thread α} {tail : List (Op α)} {op : Op α}
    {e : Effect α} (reachable : w.Reachable) (took : w.Took v index t [op] tail e) {o : Origin}
    (begins : op.Begins w.store t.who e o) : ¬w.Begun o := by
  cases begins with
  | item p i item self told =>
      rintro ⟨who, hmem⟩
      obtain ⟨lot, course, held⟩ := reachable.course p item.id
      have hop : .work p i (.begin item) ∈ t.ops := took.due_mem
      obtain ⟨r, hload⟩ := load_of_mem (fun who op => Op.lots p item.id who op)
        took.mem_threads hop
      rw [World.lots, hload, show Op.lots p item.id t.who (.work p i (.begin item)) =
        {.taken i item} by simp [Op.lots], add_assoc] at held
      obtain ⟨rfl, -⟩ := Lot.held_of_eq held.symm
      obtain ⟨_, _, -, h | h | h | h⟩ := course.of_started hmem <;> cases h
  | finale l latch latch' job found held left spent =>
      rintro ⟨latch'', found'', hnone⟩
      obtain rfl := Option.some.inj (found.symm.trans found'')
      simp [held] at hnone
  | batch command p pool batch found told =>
      intro hbegun
      exact hbegun ((reachable.issues p pool.nextId).2 (ahead_nextId found))

/-- There is one performance for an origin, and it is as far as its entries say. -/
theorem Reachable.performance {w : World α} (h : w.Reachable) {o : Origin} (ho : o ≠ .caller) :
    ∃ state, Trail o (w.calls o) state ∧ w.parts o = state.parts ∧
      (state ≠ .idle → w.Begun o) := by
  refine h.induct (P := fun w => ∃ state, Trail o (w.calls o) state ∧ w.parts o = state.parts ∧
    (state ≠ .idle → w.Begun o)) (fun cells => ⟨.idle, .idle, rfl, fun h => absurd rfl h⟩)
    (fun w command _ ih => ?_) ?_
  · obtain ⟨state, trail, left, begun⟩ := ih
    refine ⟨state, trail, ?_, fun hstate => ?_⟩
    · rw [World.parts, load_issue, show Op.parts o _ (.command command) = 0 from rfl, add_zero]
      exact left
    · have := begun hstate
      cases o <;> exact this
  intro w v index t old tail e reachable took ih
  obtain ⟨state, trail, left, begun⟩ := ih
  have orderly := reachable.orderly
  have stack := took.leads orderly
  obtain ⟨r, hbefore, hafter⟩ := took.load (fun who op => op.parts o who)
    fun who op => op.parts_wake o who
  have hcalls : v.calls o = e.calls o t.who ++ w.calls o := by
    rw [World.calls, took.history, List.filter_append]
    rfl
  have hleft : (old.map (Op.parts o t.who)).sum + r = state.parts := by
    rw [← left, World.parts, hbefore]
  obtain ⟨state', trail', left', hidle⟩ := (took.act.performs stack.1 ho).trail trail hleft
    (by
      rintro ⟨op, rfl, begins⟩
      by_cases hstate : state = .idle
      · exact hstate
      · exact absurd (begun hstate) (took.unbegun reachable begins))
    (by
      rintro ⟨op, rfl, ends⟩ who position inside later rfl
      obtain ⟨programs, fine, hop⟩ := ends.parts t.who
      have hdue := orderly.catcher_due ho took.got took.ops hop
      rw [World.parts, hbefore, List.map_singleton, List.sum_singleton, hop] at hdue
      simp only [codes_add, catchers_add, codes_catcher, catchers_catcher, codes_code,
        catchers_code] at hdue
      omega)
  refine ⟨state', hcalls ▸ trail', ?_, fun hstate' => ?_⟩
  · rw [World.parts, hafter]
    exact left'
  · by_cases hstate : state = .idle
    · rcases hidle hstate with ⟨op, rfl, begins⟩ | hidle
      · exact took.begun_of_begins begins
      · exact absurd hidle hstate'
    · exact took.begun (begun hstate)

end World

end WorkerPool
