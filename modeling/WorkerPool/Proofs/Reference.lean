import WorkerPool.Proofs.Making

/-! The atomic reference of a latch. The calls that can bring a latch nearer to its decision are
counts and terminations, and their order is the one in which they have the lock for the first time.
The latch is decided by the shortest front of these calls that has all the counts in it that were
expected, or a termination. Until then every call has taken effect; after it none does. A last count
that performs the continuation lets go of the lock in between and takes it again, but what the other
calls find meanwhile is a latch that they leave alone, so the whole of it counts as one call, made
when it first had the lock. -/

namespace WorkerPool

variable {α : Type}

/-- A call that can bring a latch nearer to its decision. -/
inductive Mark
  | count (failed : Bool)
  | terminate
  deriving DecidableEq

namespace Mark

/-- How many of the calls are counts. -/
def counts (calls : List (Who × Mark)) : Nat :=
  calls.countP fun call => call.2 ≠ .terminate

/-- Whether one of the calls counts a failure. -/
def spoilt (calls : List (Who × Mark)) : Bool :=
  calls.any fun call => call.2 = .count true

/-- The calls decide a latch that was made for `n` completions. -/
def Decide (n : Nat) (calls : List (Who × Mark)) : Prop :=
  n ≤ counts calls ∨ ∃ who, (who, terminate) ∈ calls

/-- `front` is the shortest front of the calls that decides the latch. -/
structure Shortest (n : Nat) (calls front : List (Who × Mark)) : Prop where
  begins : front <+: calls
  decides : Decide n front
  first : ∀ other, other <+: calls → Decide n other → front <+: other

theorem counts_concat (calls : List (Who × Mark)) (call : Who × Mark) :
    counts (calls ++ [call]) = counts calls + if call.2 ≠ .terminate then 1 else 0 := by
  simp [counts, List.countP_cons]

theorem spoilt_concat (calls : List (Who × Mark)) (call : Who × Mark) :
    spoilt (calls ++ [call]) = (spoilt calls || decide (call.2 = .count true)) := by
  simp [spoilt]

variable {n : Nat} {calls front : List (Who × Mark)}

theorem Decide.mono (decides : Decide n front) (begins : front <+: calls) : Decide n calls := by
  obtain ⟨later, rfl⟩ := begins
  rcases decides with enough | ⟨who, down⟩
  · exact .inl (by simp only [counts, List.countP_append] at enough ⊢; omega)
  · exact .inr ⟨who, List.mem_append_left later down⟩

/-- The call that decides a latch ends the front. -/
theorem Shortest.of_last {call : Who × Mark} (undecided : ¬Decide n calls)
    (decides : Decide n (calls ++ [call])) : Shortest n (calls ++ [call]) (calls ++ [call]) where
  begins := List.prefix_rfl
  decides := decides
  first other begins decided := by
    rcases List.prefix_concat_iff.mp begins with rfl | begins
    · exact List.prefix_rfl
    · exact absurd (decided.mono begins) undecided

/-- Later calls leave the front as it is. -/
theorem Shortest.append (shortest : Shortest n calls front) (later : List (Who × Mark)) :
    Shortest n (calls ++ later) front where
  begins := shortest.begins.trans (List.prefix_append calls later)
  decides := shortest.decides
  first other begins decided := by
    rcases List.prefix_or_prefix_of_prefix begins (List.prefix_append calls later) with h | h
    · exact shortest.first other h decided
    · exact shortest.begins.trans h

/-- There is one such front at most. -/
theorem Shortest.unique {other : List (Who × Mark)} (shortest : Shortest n calls front)
    (shortest' : Shortest n calls other) : front = other :=
  (shortest.first other shortest'.begins shortest'.decides).eq_of_length_le
    (shortest'.first front shortest.begins shortest.decides).length_le

end Mark

def Latch.Call.mark? : Latch.Call → Option Mark
  | .count failed => some (.count failed)
  | .terminate => some .terminate
  | _ => none

/-- The call on the latch at `l` that has the lock for the first time in this turn, if it is a count
or a termination. -/
def Moment.mark? (l : Nat) (m : Moment α) : Option (Who × Mark) :=
  (m.latched? l).bind fun (who, call, _) => call.mark?.map (who, ·)

/-- The counts and terminations on the latch at `l`, in the order in which they had the lock. -/
def marks (l : Nat) (moments : List (Moment α)) : List (Who × Mark) :=
  moments.filterMap (·.mark? l)

/-! ### Performances that are going on -/

theorem Performance.Active.catcher {state : Performance} {who : Who} {programs : List Program}
    (active : state.Active who programs) : ∃ fine, .catcher who programs fine ∈ state.parts := by
  cases state with
  | between | inside | through | broken =>
      obtain ⟨rfl, rfl⟩ := active
      simp [parts]
  | _ => exact active.elim

theorem Performance.Active.unique {state : Performance} {who who' : Who}
    {programs programs' : List Program} (active : state.Active who programs)
    (active' : state.Active who' programs') : who = who' ∧ programs = programs' := by
  cases state with
  | between | inside | through | broken =>
      obtain ⟨rfl, rfl⟩ := active
      obtain ⟨rfl, rfl⟩ := active'
      exact ⟨rfl, rfl⟩
  | _ => exact active.elim

/-- The catcher of a performance stays until it has dealt with its end. -/
theorem Performs.catcher_kept {o : Origin} {who self : Who} {begins ends : Prop}
    {before after r : Multiset Part} {notes : List (Who × Entry)}
    (performs : Performs o self begins ends before notes after) (still : ¬ends)
    {programs : List Program} {fine : Bool} (mem : .catcher who programs fine ∈ before + r) :
    ∃ fine, .catcher who programs fine ∈ after + r := by
  cases performs with
  | rest => exact ⟨fine, mem⟩
  | settle ended => exact absurd ended still
  | fall position later programs' =>
      simp only [Multiset.mem_add, Multiset.mem_singleton, reduceCtorEq, false_or,
        Part.catcher.injEq] at mem ⊢
      rcases mem with ⟨rfl, rfl, rfl⟩ | mem
      · exact ⟨false, .inl ⟨rfl, rfl, rfl⟩⟩
      · exact ⟨fine, .inr mem⟩
  | _ =>
      simp only [Multiset.mem_add, Multiset.mem_singleton, Multiset.notMem_zero, reduceCtorEq,
        false_or] at mem
      exact ⟨fine, Multiset.mem_add.mpr (.inr mem)⟩

namespace World

/-- The functions `programs` are being performed on account of `o`, in the thread `who`. -/
def Performing (w : World α) (who : Who) (o : Origin) (programs : List Program) : Prop :=
  ∃ state, w.Stands o state ∧ state.Active who programs

/-- What the calls `front`, the last of which decides the latch, have made of it. -/
inductive Settlement (w : World α) (l n : Nat) (k : Option Job) (front : List (Who × Mark))
    (latch : Latch) : Prop
  | terminated (who : Who) (before : List (Who × Mark))
      (last : front = before ++ [(who, .terminate)]) (few : Mark.counts front < n)
      (value : latch = {
        value := {
          remaining := n - Mark.counts front
          failed := Mark.spoilt front
          continuation := k }
        terminated := true })
      (untouched : k.isSome → w.Untouched (.latch l))
  | counted (enough : Mark.counts front = n) (plain : k = none ∨ Mark.spoilt front = true)
      (value : latch = { value := { remaining := 0, failed := Mark.spoilt front } })
      (untouched : k.isSome → w.Untouched (.latch l))
  | performing (job : Job) (who : Who) (before : List (Who × Mark)) (enough : Mark.counts front = n)
      (kept : k = some job) (sound : Mark.spoilt front = false)
      (last : front = before ++ [(who, .count false)])
      (value : latch = { value := { remaining := 1, finishing := true } })
      (performs : w.Performing who (.latch l) job.programs)
  | performed (job : Job) (who : Who) (before : List (Who × Mark)) (succeeded : Bool)
      (enough : Mark.counts front = n) (kept : k = some job) (sound : Mark.spoilt front = false)
      (last : front = before ++ [(who, .count false)])
      (value : latch = { value := { remaining := 0, failed := !succeeded } })
      (ended : if succeeded then w.CompletedBy who (.latch l) job.programs
        else w.SpoiltBy who (.latch l) job.programs)

/-- What the counts and terminations `calls` have made of the latch at `l`, which was made for `n`
completions with the continuation `k`. -/
inductive Agrees (w : World α) (l n : Nat) (k : Option Job) (calls : List (Who × Mark))
    (latch : Latch) : Prop
  | undecided (open' : ¬Mark.Decide n calls)
      (value : latch = {
        value := {
          remaining := n - Mark.counts calls
          failed := Mark.spoilt calls
          continuation := k } })
      (untouched : k.isSome → w.Untouched (.latch l))
  | decided (front : List (Who × Mark)) (shortest : Mark.Shortest n calls front)
      (settlement : w.Settlement l n k front latch)

section Performances

variable {v w : World α} {index : Nat} {t : Thread α} {old tail : List (Op α)} {e : Effect α}
  {l : Nat} {who : Who} {programs : List Program}

theorem Reachable.performing_of_mem (h : w.Reachable) {fine : Bool}
    (mem : .catcher who programs fine ∈ w.parts (.latch l)) :
    w.Performing who (.latch l) programs := by
  obtain ⟨state, stands⟩ := h.stands (o := .latch l) Origin.noConfusion
  exact ⟨state, stands, state.active_of_catcher fine (stands.left ▸ mem)⟩

theorem Performing.mem (performs : w.Performing who (.latch l) programs) :
    ∃ fine, .catcher who programs fine ∈ w.parts (.latch l) := by
  obtain ⟨state, stands, active⟩ := performs
  rw [stands.left]
  exact active.catcher

/-- A performance goes on in the turns of others and in its own, but for the one that deals with its
end. -/
theorem Took.performing (reachable : w.Reachable) (reachable' : v.Reachable)
    (took : w.Took v index t old tail e)
    (apart : ∀ job succeeded waiter, old ≠ [.latch l (.running job succeeded) waiter])
    (performs : w.Performing who (.latch l) programs) :
    v.Performing who (.latch l) programs := by
  have stack := took.leads reachable.orderly
  obtain ⟨r, before, after⟩ := took.parts (.latch l)
  obtain ⟨fine, mem⟩ := performs.mem
  obtain ⟨fine', mem'⟩ := (took.act.performs stack.1 Origin.noConfusion).catcher_kept
    (fun ⟨op, hop, ends⟩ => by
      cases ends
      exact apart _ _ _ hop) (before ▸ mem)
  exact reachable'.performing_of_mem (after ▸ mem')

/-- Who deals with the end of a continuation is who performs it. -/
theorem Took.performs_end (reachable : w.Reachable) {job : Job} {succeeded : Bool} {waiter : Waiter}
    (took : w.Took v index t [.latch l (.running job succeeded) waiter] tail e)
    (performs : w.Performing who (.latch l) programs) :
    if succeeded then v.CompletedBy who (.latch l) programs
    else v.SpoiltBy who (.latch l) programs := by
  obtain ⟨state, stands, active⟩ := performs
  obtain ⟨r, before, -⟩ := took.parts (.latch l)
  have part : Op.parts (.latch l) t.who (.latch l (.running job succeeded) waiter : Op α) =
      {.catcher t.who job.programs succeeded} := if_pos rfl
  have mem : .catcher t.who job.programs succeeded ∈ state.parts := by
    rw [← stands.left, before, List.map_singleton, List.sum_singleton, part]
    exact Multiset.mem_add.mpr (.inl (Multiset.mem_singleton_self _))
  obtain ⟨rfl, rfl⟩ := active.unique (state.active_of_catcher succeeded mem)
  exact took.settles reachable (.finale l job succeeded waiter) part

end Performances

/-! ### One turn -/

section Turns

variable {v w : World α} {index : Nat} {t : Thread α} {old tail : List (Op α)} {e : Effect α}
  {l n : Nat} {k : Option Job} {calls front : List (Who × Mark)} {latch : Latch}

/-- While a latch keeps its continuation nobody has touched it. -/
theorem Reachable.untouched_of_kept (h : w.Reachable) (found : w.store.latches[l]? = some latch)
    (kept : latch.value.continuation.isSome) : w.Untouched (.latch l) := by
  refine h.untouched Origin.noConfusion ?_
  rintro ⟨latch', found', spent⟩
  rw [found, Option.some.injEq] at found'
  rw [found', spent] at kept
  cases kept

/-- A latch that its calls have decided is finishing, or it is decided. -/
theorem Settlement.past (settlement : w.Settlement l n k front latch) :
    latch.Decided ∨ latch.value.finishing = true := by
  cases settlement with
  | terminated _ _ _ _ value => exact .inl (.inr (value ▸ rfl))
  | counted _ _ value => exact .inl (.inl (value ▸ rfl))
  | performing _ _ _ _ _ _ _ value => exact .inr (value ▸ rfl)
  | performed _ _ _ _ _ _ _ _ value => exact .inl (.inl (value ▸ rfl))

/-- The settlement stays in a turn that leaves the latch alone. -/
theorem Settlement.kept (settlement : w.Settlement l n k front latch) (reachable : w.Reachable)
    (reachable' : v.Reachable) (took : w.Took v index t old tail e)
    (apart : ∀ job succeeded waiter, old ≠ [.latch l (.running job succeeded) waiter])
    (found : w.store.latches[l]? = some latch) (found' : v.store.latches[l]? = some latch) :
    v.Settlement l n k front latch := by
  have ho : Origin.latch l ≠ .caller := Origin.noConfusion
  cases settlement with
  | terminated who before last few value untouched =>
      refine .terminated who before last few value fun held => ?_
      exact reachable'.untouched_of_kept found' (by rw [value]; exact held)
  | counted enough plain value untouched =>
      refine .counted enough plain value fun held => ?_
      exact took.stands reachable ho (untouched held) rfl ⟨latch, found, by rw [value]⟩
  | performing job who before enough kept sound last value performs =>
      exact .performing job who before enough kept sound last value
        (took.performing reachable reachable' apart performs)
  | performed job who before succeeded enough kept sound last value ended =>
      refine .performed job who before succeeded enough kept sound last value ?_
      cases succeeded with
      | true => exact took.completedBy reachable ho ended
      | false => exact took.spoiltBy reachable ho ended

/-- The turn after the continuation has ended. -/
theorem Settlement.through {job : Job} {succeeded : Bool} {waiter : Waiter}
    {turned : Turned Countdown Latch.Call Latch.Reply}
    (settlement : w.Settlement l n k front latch) (reachable : w.Reachable)
    (took : w.Took v index t [.latch l (.running job succeeded) waiter] tail e)
    (found : w.store.latches[l]? = some latch)
    (turns : (Latch.Call.running job succeeded).Turns latch turned) :
    v.Settlement l n k front turned.object := by
  have finishing := took.finishing reachable found job succeeded rfl
  cases turns with
  | through =>
      cases settlement with
      | terminated _ _ _ _ value | counted _ _ value | performed _ _ _ _ _ _ _ _ value =>
          rw [value] at finishing
          cases finishing
      | performing job' who before enough kept sound last value performs =>
          subst value
          exact .performed job' who before succeeded enough kept sound last rfl
            (took.performs_end reachable performs)

theorem Agrees.kept (agrees : w.Agrees l n k calls latch) (reachable : w.Reachable)
    (reachable' : v.Reachable) (took : w.Took v index t old tail e)
    (apart : ∀ job succeeded waiter, old ≠ [.latch l (.running job succeeded) waiter])
    (found : w.store.latches[l]? = some latch) (found' : v.store.latches[l]? = some latch) :
    v.Agrees l n k calls latch := by
  cases agrees with
  | undecided open' value untouched =>
      refine .undecided open' value fun held => ?_
      exact reachable'.untouched_of_kept found' (by rw [value]; exact held)
  | decided front shortest settlement =>
      exact .decided front shortest (settlement.kept reachable reachable' took apart found found')

/-- What becomes of the continuation in the turn of the count that takes it: it is dropped if a
failure has been counted, and is begun by the caller if not. -/
theorem Took.spends (reachable : w.Reachable) {failed : Bool} {waiter : Waiter}
    (took : w.Took v index t [.latch l (.count failed) waiter] tail e)
    (found : w.store.latches[l]? = some latch) (counts : latch.counts = true)
    (last : latch.value.remaining = 1) {job : Job} (held : latch.value.continuation = some job) :
    if latch.value.failed || failed then v.Untouched (.latch l)
    else .catcher t.who job.programs true ∈ v.parts (.latch l) := by
  have untouched := reachable.untouched_of_kept found (by rw [held]; rfl)
  have same : ∀ {latch'}, w.store.latches[l]? = some latch' → latch' = latch := fun found' =>
    Option.some.inj (found'.symm.trans found)
  cases took.act.deed_of_not_loose id with
  | jobAdded submits | freeJobAdded submits => cases submits
  | countIgnored _ latch' _ found' idle =>
      rw [same found', counts] at idle
      cases idle
  | countSkipped _ latch' _ job' found' _ _ _ spoilt =>
      rw [← same found', if_pos spoilt]
      exact took.untouched untouched (by simp [Effect.calls, Entry.calls])
        (by simp [Effect.parts, Op.parts])
  | countStarted _ latch' job' found' _ _ held' sound =>
      obtain rfl := same found'
      obtain rfl := Option.some.inj (held'.symm.trans held)
      obtain ⟨r, -, after⟩ := took.parts (.latch l)
      rw [sound, if_neg (by simp), after]
      simp [Effect.parts, Op.parts, Op.perform]
  | counted _ latch' _ found' _ plain =>
      obtain rfl := same found'
      rw [held] at plain
      exact absurd last (plain.resolve_right (Option.some_ne_none job))

/-- A count on a latch that is not decided. -/
theorem Took.agrees_count (reachable : w.Reachable) (reachable' : v.Reachable) {failed : Bool}
    {waiter : Waiter} (took : w.Took v index t [.latch l (.count failed) waiter] tail e)
    (found : w.store.latches[l]? = some latch)
    {turned : Turned Countdown Latch.Call Latch.Reply}
    (turns : (Latch.Call.count failed).Turns latch turned)
    (found' : v.store.latches[l]? = some turned.object) (open' : ¬Mark.Decide n calls)
    (value : latch = {
      value := {
        remaining := n - Mark.counts calls
        failed := Mark.spoilt calls
        continuation := k } }) :
    v.Agrees l n k (calls ++ [(t.who, .count failed)]) turned.object := by
  have few : Mark.counts calls < n := Nat.lt_of_not_le fun enough => open' (.inl enough)
  have counted : Mark.counts (calls ++ [(t.who, .count failed)]) = Mark.counts calls + 1 := by
    simp [Mark.counts_concat]
  have spoilt : Mark.spoilt (calls ++ [(t.who, .count failed)]) =
      (Mark.spoilt calls || failed) := by
    simp [Mark.spoilt_concat]
  have decided : Mark.counts calls + 1 = n →
      Mark.Shortest n (calls ++ [(t.who, .count failed)]) (calls ++ [(t.who, .count failed)]) :=
    fun last => .of_last open' (.inl (by omega))
  subst value
  cases turns with
  | ignored _ idle =>
      have : n - Mark.counts calls ≠ 0 := by omega
      simp [Latch.counts, this] at idle
  | skipped _ job counts last held spoiled =>
      have last' : n - Mark.counts calls = 1 := last
      refine .decided _ (decided (by omega))
        (.counted (by omega) (.inr (spoilt.trans spoiled)) ?_ ?_)
      · rw [spoilt, spoiled]
      · have spent := took.spends reachable found counts last held
        rw [if_pos spoiled] at spent
        exact fun _ => spent
  | started job counts last held sound =>
      have last' : n - Mark.counts calls = 1 := last
      have held' : k = some job := held
      have sound' : Mark.spoilt calls = false := sound
      refine .decided _ (decided (by omega)) (.performing job t.who calls (by omega) held'
        (by rw [spoilt, sound']; rfl) rfl (by simp [last']) ?_)
      have spent := took.spends reachable found counts last held
      rw [if_neg (by simp [sound'])] at spent
      exact reachable'.performing_of_mem spent
  | counted _ counts plain =>
      have kept : k.isSome → v.Untouched (.latch l) := reachable'.untouched_of_kept found'
      by_cases last : Mark.counts calls + 1 = n
      · have bare : k = none := plain.resolve_left fun h => h (by simp; omega)
        refine .decided _ (decided last) (.counted (by omega) (.inl bare) ?_ kept)
        simp [spoilt, bare]
        omega
      · refine .undecided ?_ (by simp [spoilt, counted]; omega) kept
        rintro (enough | ⟨who, down⟩)
        · omega
        · rcases List.mem_append.mp down with down | down
          · exact open' (.inr ⟨who, down⟩)
          · simp at down

/-- A call on the latch makes of it what its mark does to the reference. -/
theorem Took.agrees_call (reachable : w.Reachable) (reachable' : v.Reachable) {call : Latch.Call}
    {waiter : Waiter} (took : w.Took v index t [.latch l call waiter] tail e)
    (found : w.store.latches[l]? = some latch)
    {turned : Turned Countdown Latch.Call Latch.Reply} (turns : call.Turns latch turned)
    (found' : v.store.latches[l]? = some turned.object) (agrees : w.Agrees l n k calls latch) :
    v.Agrees l n k (calls ++ (call.mark?.map (t.who, ·)).toList) turned.object := by
  have apart : (∀ job succeeded, call ≠ .running job succeeded) → ∀ job succeeded waiter',
      ([.latch l call waiter] : List (Op α)) ≠ [.latch l (.running job succeeded) waiter'] := by
    intro going job succeeded waiter' heq
    simp only [List.cons.injEq, Op.latch.injEq, true_and] at heq
    exact going job succeeded heq.1.1
  cases agrees with
  | decided front shortest settlement =>
      refine .decided front (shortest.append _) ?_
      by_cases going : ∃ job succeeded, call = .running job succeeded
      · obtain ⟨job, succeeded, rfl⟩ := going
        exact settlement.through reachable took found turns
      · push Not at going
        have same := turns.kept settlement.past going
        exact same ▸ settlement.kept reachable reachable' took (apart going) found (same ▸ found')
  | undecided open' value untouched =>
      have few : Mark.counts calls < n := Nat.lt_of_not_le fun enough => open' (.inl enough)
      -- a call without a mark looks at the latch or wakes its sleepers
      have kept : turned.object = latch → (∀ job succeeded, call ≠ .running job succeeded) →
          v.Agrees l n k calls turned.object := fun same going =>
        same ▸ Agrees.kept (.undecided open' value untouched) reachable reachable' took
          (apart going) found (same ▸ found')
      cases call with
      | count failed => exact took.agrees_count reachable reachable' found turns found' open' value
      | running job succeeded =>
          have finishing := took.finishing reachable found job succeeded rfl
          rw [value] at finishing
          cases finishing
      | announce =>
          cases turns with
          | announced => simpa [Latch.Call.mark?] using kept rfl nofun
      | wait stage => cases turns <;> simpa [Latch.Call.mark?] using kept rfl nofun
      | terminate =>
          have counted : Mark.counts (calls ++ [(t.who, .terminate)]) = Mark.counts calls := by
            simp [Mark.counts_concat]
          have decides : Mark.Decide n (calls ++ [(t.who, .terminate)]) := .inr ⟨t.who, by simp⟩
          subst value
          cases turns with
          | terminated held idle =>
              refine .decided _ (.of_last open' decides) (.terminated t.who calls rfl
                (counted ▸ few) ?_ (reachable'.untouched_of_kept found'))
              simp [Monitor.terminate, counted, Mark.spoilt_concat]
          | spared closed =>
              rcases closed with zero | finishing
              · have : n - Mark.counts calls = 0 := zero
                omega
              · cases finishing

end Turns

/-! ### Runs -/

section Runs

variable {u v w : World α} {moments : List (Moment α)} {l n : Nat} {k : Option Job}
  {calls front : List (Who × Mark)} {latch : Latch}

theorem Settlement.issue (settlement : w.Settlement l n k front latch) (command : Command α) :
    (w.issue command).Settlement l n k front latch := by
  cases settlement with
  | terminated who before last few value untouched =>
      exact .terminated who before last few value fun held => stands_issue (untouched held)
  | counted enough plain value untouched =>
      exact .counted enough plain value fun held => stands_issue (untouched held)
  | performing job who before enough kept sound last value performs =>
      obtain ⟨state, stands, active⟩ := performs
      exact .performing job who before enough kept sound last value
        ⟨state, stands_issue stands, active⟩
  | performed job who before succeeded enough kept sound last value ended =>
      refine .performed job who before succeeded enough kept sound last value ?_
      cases succeeded with
      | true => exact stands_issue ended
      | false =>
          obtain ⟨done, program, later, split, stands⟩ := ended
          exact ⟨done, program, later, split, stands_issue stands⟩

theorem Agrees.issue (agrees : w.Agrees l n k calls latch) (command : Command α) :
    (w.issue command).Agrees l n k calls latch := by
  cases agrees with
  | undecided open' value untouched =>
      exact .undecided open' value fun held => stands_issue (untouched held)
  | decided front shortest settlement => exact .decided front shortest (settlement.issue command)

/-- A latch that has just been made agrees with its reference. -/
theorem Reachable.agrees (h : w.Reachable)
    (found : w.store.latches[l]? = some (Latch.expecting n k)) :
    w.Agrees l n k [] (Latch.expecting n k) := by
  have untouched : k.isSome → w.Untouched (.latch l) := h.untouched_of_kept found
  cases n with
  | zero =>
      have bare : k = none := ((h.tallied.composed l _ found).of_zero rfl).1
      subst bare
      refine .decided [] ⟨List.prefix_rfl, .inl (Nat.zero_le _), fun _ _ _ => List.nil_prefix⟩
        (.counted rfl (.inl rfl) rfl untouched)
  | succ n =>
      refine .undecided ?_ rfl untouched
      rintro (enough | ⟨who, down⟩)
      · exact absurd enough (Nat.not_succ_le_zero n)
      · cases down

theorem Run.agrees (h : u.Reachable) (run : u.Run moments w)
    (found : u.store.latches[l]? = some (Latch.expecting n k)) :
    ∃ latch, w.store.latches[l]? = some latch ∧ w.Agrees l n k (marks l moments) latch := by
  induction run with
  | nil => exact ⟨_, found, h.agrees found⟩
  | issue run command ih =>
      obtain ⟨latch, found', agrees⟩ := ih
      exact ⟨latch, found', agrees.issue command⟩
  | @turn moments w v run index pick turned ih =>
      obtain ⟨latch, found', agrees⟩ := ih
      have reachable := run.reachable h
      have reachable' : v.Reachable := .next reachable (.turn index pick turned)
      obtain ⟨t, old, tail, e, took, touches⟩ := touches_of_turn reachable.orderly turned l
      rw [marks, filterMap_concat, ← marks, Moment.mark?]
      generalize (Moment.mk w index).latched? l = latched at touches
      cases touches with
      | called waiter found'' turns after =>
          obtain rfl := Option.some.inj (found'.symm.trans found'')
          rw [← took.store] at after
          exact ⟨_, after, took.agrees_call reachable reachable' found' turns after agrees⟩
      | apart left kept =>
          have after : v.store.latches[l]? = some latch := by
            rw [took.store, kept (List.getElem?_eq_some_iff.mp found').1, found']
          refine ⟨latch, after, ?_⟩
          rw [Option.bind_none, Option.toList_none, List.append_nil]
          exact agrees.kept reachable reachable' took (fun _ _ => left _) found' after

/-- The latch at `l` is what its reference says after the counts and terminations `calls`. Those
that come after the decision change nothing, and when the latch has been decided it stays for ever
as it is, and so does what has become of its continuation. -/
structure Atomic (w : World α) (l n : Nat) (k : Option Job) (calls : List (Who × Mark))
    (latch : Latch) : Prop where
  agrees : w.Agrees l n k calls latch
  ignored : Mark.Decide n calls → ∀ index pick v, w.turn index pick = some v →
    (Moment.mk w index).mark? l ≠ none → v.store.latches[l]? = some latch
  forever : ∀ front, Mark.Shortest n calls front → latch.Decided → ∀ v, w.Later v →
    v.store.latches[l]? = some latch ∧ v.Settlement l n k front latch

theorem Agrees.settlement (agrees : w.Agrees l n k calls latch)
    (shortest : Mark.Shortest n calls front) : w.Settlement l n k front latch := by
  cases agrees with
  | undecided open' => exact absurd (shortest.decides.mono shortest.begins) open'
  | decided other shortest' settlement => exact shortest'.unique shortest ▸ settlement

/-- A count or a termination of a latch that its calls have decided leaves it alone. -/
theorem Settlement.ignores (settlement : w.Settlement l n k front latch) (orderly : w.Orderly)
    (found : w.store.latches[l]? = some latch) {index pick : Nat}
    (turned : w.turn index pick = some v) (marked : (Moment.mk w index).mark? l ≠ none) :
    v.store.latches[l]? = some latch := by
  obtain ⟨t, old, tail, e, took, touches⟩ := touches_of_turn orderly turned l
  rw [Moment.mark?] at marked
  generalize (Moment.mk w index).latched? l = latched at touches marked
  cases touches with
  | called waiter found' turns after =>
      obtain rfl := Option.some.inj (found'.symm.trans found)
      rw [took.store, after, turns.kept settlement.past]
      rintro job succeeded rfl
      exact marked rfl
  | apart => exact absurd rfl marked

/-- Every latch is an atomic reference of itself. A latch that was made for `n` completions agrees at
any time with what the counts and terminations so far make of it if each is done at once, when it
has the lock for the first time. A latch that had nothing to wait for is made in the thread that has
performed its continuation, all of it or up to a panic, and knows how that has ended. -/
theorem Reachable.atomic_reference (h : u.Reachable) (run : u.Run moments w) :
    (∀ l n k, u.store.latches[l]? = some (Latch.expecting n k) →
      ∃ latch, w.store.latches[l]? = some latch ∧ w.Atomic l n k (marks l moments) latch) ∧
    ∀ index (t : Thread α) o c programs, u.threads[index]? = some t →
      t.ops = [.perform o programs, .construct c true] →
        w.Upfront moments index t.who o c programs := by
  refine ⟨fun l n k made => ?_, fun index t o c programs got ops => run.upfront h got ops⟩
  obtain ⟨latch, found, agrees⟩ := run.agrees h made
  have reachable := run.reachable h
  refine ⟨latch, found, agrees, fun decides index pick v turned marked => ?_,
    fun front shortest decided v later => ?_⟩
  · cases agrees with
    | undecided open' => exact absurd decides open'
    | decided front shortest settlement =>
        exact settlement.ignores reachable.orderly found turned marked
  · have found' := reachable.decided_kept found decided later
    obtain ⟨moments', run'⟩ := later.run
    obtain ⟨latch', found'', agrees'⟩ := (run.append run').agrees h made
    obtain rfl := Option.some.inj (found''.symm.trans found')
    rw [marks, List.filterMap_append] at agrees'
    exact ⟨found', agrees'.settlement (shortest.append _)⟩

/-- A continuation that counts on the latch that has it, and terminates it. -/
def meddling : Job where
  first := { program := [.count "l" true, .terminate "l"], waitable := false }

/-- There is a latch for two completions. Another one has nothing to wait for, and its continuation,
which is about to be performed, panics in its second function. -/
def twoLatches : World Unit :=
  ((follow 40 [.newLatch "l" 2 (some (.link [.count "l" true, .terminate "l"] false))]
    (.start [])).issue
      (.newLatch "m" 0 (some (.linkThen [] false (.link [.panic (.text "oops")] false))))).settle 1 1

/-- What is asked of the first latch when the second one has been made. -/
def counting : List (Command Unit) :=
  [.onLatch "l" (.count false), .onLatch "l" (.count false), .onLatch "l" .terminate]

def countedTwice : World Unit :=
  follow 40 counting (twoLatches.settle 40 1)

def countedTwiceBy : List (Moment Unit) :=
  settling 40 1 twoLatches ++ following 40 counting (twoLatches.settle 40 1)

theorem atomic_reference_of_countedTwice :
    marks 0 countedTwiceBy = [
      (.step 2, .count false), (.step 3, .count false), (.step 3, .count true),
      (.step 3, .terminate), (.step 4, .terminate)] ∧
    (∃ latch, countedTwice.store.latches[0]? = some latch ∧ latch.realized = true ∧
      countedTwice.Settlement 0 2 (some meddling) [(.step 2, .count false), (.step 3, .count false)]
        latch) ∧
    countedTwice.Upfront countedTwiceBy 1 (.step 1) .caller (.latch "m")
      [[], [.panic (.text "oops")]] := by
  have reachable : twoLatches.Reachable :=
    reachable_settle (.next (reachable_follow 40 _ (.start [])) (.issue _ _)) 1 1
  have run : twoLatches.Run countedTwiceBy countedTwice :=
    (run_settling 40 1 twoLatches).append (run_following 40 counting _)
  have calls : marks 0 countedTwiceBy = [
      (.step 2, .count false), (.step 3, .count false), (.step 3, .count true),
      (.step 3, .terminate), (.step 4, .terminate)] := by decide
  obtain ⟨reference, upfront⟩ := reachable.atomic_reference run
  obtain ⟨latch, found, atomic⟩ := reference 0 2 (some meddling) rfl
  have realized : countedTwice.store.latches[0]?.map (·.realized) = some true := by decide
  rw [found, Option.map_some, Option.some.injEq] at realized
  have shortest : Mark.Shortest 2 [(.step 2, .count false), (.step 3, .count false)]
      [(.step 2, .count false), (.step 3, .count false)] := by
    have undecided : ¬Mark.Decide 2 [(.step 2, .count false)] := by
      simp [Mark.Decide, Mark.counts]
    exact .of_last undecided (.inl (by decide))
  refine ⟨calls, ⟨latch, found, realized, atomic.agrees.settlement ?_⟩, ?_⟩
  · rw [calls]
    exact shortest.append [(.step 3, .count true), (.step 3, .terminate), (.step 4, .terminate)]
  · exact upfront 1 { who := .step 1, ops := _ } .caller (.latch "m") _ rfl rfl

end Runs

end World

end WorkerPool
