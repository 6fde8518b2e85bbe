import WorkerPool.Proofs.Making
import WorkerPool.Proofs.Urgency

/-! What those are told who wait for a latch. A wait returns from a latch that is decided and from no
other one, and what it returns is read off the latch: a good end if it is at zero and nothing has
failed. As a decided latch stays as it is, all waits return the same, those that slept when it was
decided as well as those that come later. A waiter that was woken looks at the termination first and
one that has just come looks at the count first; that makes no difference, because a latch at zero
is not terminated. -/

namespace WorkerPool

variable {α : Type}

/-- What a latch that is decided tells those who wait for it. -/
def Latch.tells (l : Latch) : Bool :=
  l.realized && !l.value.failed

theorem Latch.Judges.eq_tells {l : Latch} {succeeded : Bool} (judges : l.Judges succeeded)
    (exclusive : l.Exclusive) : succeeded = l.tells := by
  rcases judges with ⟨zero, rfl⟩ | ⟨down, rfl⟩
  · simp [tells, realized, zero]
  · have held := Nat.ne_of_gt (exclusive down).1
    simp [tells, realized, held]

/-- How a call brings about the decision of the latch `l`, and leaves `l'`: it makes the last count,
where no continuation stands in the way, it comes back from the continuation, or it terminates a
latch that nobody is finishing. -/
inductive Latch.Call.Closes (l l' : Latch) : Latch.Call → Prop
  | counted (failed : Bool) (last : l.value.remaining = 1) (idle : l.value.finishing = false)
      (zero : l'.realized = true) : Closes l l' (.count failed)
  | through (job : Job) (succeeded : Bool) (zero : l'.realized = true) :
      Closes l l' (.running job succeeded)
  | terminated (held : 0 < l.value.remaining) (idle : l.value.finishing = false)
      (down : l'.terminated = true) : Closes l l' .terminate

namespace Latch.Call

variable {l : Latch} {call : Latch.Call} {turned : Turned Countdown Latch.Call Latch.Reply}

/-- A wait returns from a decided latch only, and brings what that tells. -/
theorem Turns.of_waited (turns : call.Turns l turned) (exclusive : l.Exclusive) {succeeded : Bool}
    (returns : turned.next = .returns (.waited succeeded)) : l.Decided ∧ succeeded = l.tells := by
  cases turns with
  | passed stage awake zero =>
      cases returns
      exact ⟨.inl zero, Latch.Judges.eq_tells (.inl ⟨zero, rfl⟩) exclusive⟩
  | refused stage awake down =>
      cases returns
      exact ⟨.inr down, Latch.Judges.eq_tells (.inr ⟨down, rfl⟩) exclusive⟩
  | counted | through =>
      simp only [afterCount] at returns
      split at returns <;> cases returns
  | _ => cases returns

/-- Who is awake and looks at a decided latch does not fall asleep. -/
theorem Turns.waited (exclusive : l.Exclusive) (decided : l.Decided) {stage : Stage}
    (turns : (Call.wait stage).Turns l turned) :
    turned.next = .returns (.waited l.tells) := by
  cases turns with
  | passed _ awake zero => rw [← Latch.Judges.eq_tells (.inl ⟨zero, rfl⟩) exclusive]
  | refused _ awake down => rw [← Latch.Judges.eq_tells (.inr ⟨down, rfl⟩) exclusive]
  | asleep _ awake up held =>
      rcases decided with zero | down
      · exact absurd zero (Nat.ne_of_gt held)
      · exact absurd (down.symm.trans up) nofun

/-- A turn that decides a latch is one of three. -/
theorem Turns.closes (turns : call.Turns l turned) (undecided : ¬l.Decided)
    (decided : Latch.Decided turned.object) : call.Closes l turned.object := by
  have up : l.terminated ≠ true := fun down => undecided (.inr down)
  cases turns with
  | skipped failed job counts last => exact .counted failed last (up_of_counts counts).2.1 rfl
  | counted failed counts =>
      obtain ⟨held, idle, -⟩ := up_of_counts counts
      have zero : l.value.remaining - 1 = 0 := decided.resolve_right up
      exact .counted failed (by omega) idle (by simp [realized, zero])
  | through job succeeded =>
      have zero : l.value.remaining - 1 = 0 := decided.resolve_right up
      exact .through job succeeded (by simp [realized, zero])
  | terminated held idle => exact .terminated held idle rfl
  | _ => exact absurd decided undecided

end Latch.Call

/-- Whose wait on the latch at `l` returns in this turn, and what it brings. -/
def Moment.waited? (l : Nat) (m : Moment α) : Option (Who × Bool) :=
  (m.latched? l).bind fun (who, _, turned) =>
    match turned.next with
    | .returns (.waited succeeded) => some (who, succeeded)
    | _ => none

namespace World

variable {u v w : World α} {moments : List (Moment α)} {index pick : Nat} {l : Nat} {latch : Latch}

/-- A latch is decided by a call on it. -/
theorem Reachable.closed_by (h : w.Reachable) (turn : w.turn index pick = some v)
    (found : w.store.latches[l]? = some latch) (undecided : ¬latch.Decided) {latch' : Latch}
    (found' : v.store.latches[l]? = some latch') (decided : latch'.Decided) :
    ∃ who call turned, (Moment.mk w index).latched? l = some (who, call, turned) ∧
      call.Closes latch latch' := by
  obtain ⟨t, old, tail, e, took, touches⟩ := touches_of_turn h.orderly turn l
  rw [took.store] at found'
  generalize (Moment.mk w index).latched? l = latched at touches
  cases touches with
  | called waiter found'' turns after =>
      obtain rfl := Option.some.inj (found''.symm.trans found)
      obtain rfl := Option.some.inj (after.symm.trans found')
      exact ⟨_, _, _, rfl, turns.closes undecided decided⟩
  | apart left kept =>
      rw [kept (List.getElem?_eq_some_iff.mp found).1, found, Option.some.injEq] at found'
      exact absurd (found' ▸ decided) undecided

/-- Who returns from a latch finds it decided. -/
theorem Reachable.of_waited? (h : w.Reachable) (turn : w.turn index pick = some v) {who : Who}
    {succeeded : Bool} (waited : (Moment.mk w index).waited? l = some (who, succeeded)) :
    ∃ latch, w.store.latches[l]? = some latch ∧ latch.Decided ∧ succeeded = latch.tells := by
  obtain ⟨t, old, tail, e, took, touches⟩ := touches_of_turn h.orderly turn l
  rw [Moment.waited?] at waited
  generalize (Moment.mk w index).latched? l = latched at touches waited
  cases touches with
  | called waiter found turns after =>
      simp only [Option.bind_some] at waited
      split at waited
      · rename_i returns
        cases waited
        exact ⟨_, found, turns.of_waited (h.exclusive found) returns⟩
      · cases waited
  | apart => cases waited

/-- The turn of a wait on a decided latch. -/
theorem Reachable.waited_of_decided (h : w.Reachable) {t : Thread α} {rest : List (Op α)}
    {stage : Stage} {waiter : Waiter} (found : w.store.latches[l]? = some latch)
    (decided : latch.Decided) (got : w.threads[index]? = some t)
    (ops : t.ops = .latch l (.wait stage) waiter :: rest) (awake : stage ≠ .asleep) (pick : Nat) :
    ∃ v, w.turn index pick = some v ∧
      (Moment.mk w index).waited? l = some (t.who, latch.tells) ∧
      (waiter = .caller → ∃ t', v.threads[index]? = some t' ∧ t'.ops.length = rest.length ∧
        t'.answer = some (if latch.tells then .ok .nothing else .error .waitTerminated)) := by
  have exclusive := h.exclusive found
  have stays : (Latch.Call.wait stage).asleep = false := by simpa [Latch.Call.asleep] using awake
  have goes : ¬(Op.latch l (.wait stage) waiter : Op α).Waits := by
    intro waits
    cases waits with
    | asleep _ bell sleeps => simp [Op.sleepsAt, stays] at sleeps
  obtain ⟨v, turn⟩ := Option.isSome_iff_exists.mp (h.isSome_turn got ops goes pick)
  obtain ⟨turned, hturned⟩ := Option.isSome_iff_exists.mp (Latch.Call.isSome_turn latch stays)
  have latched : (Moment.mk w index).latched? l = some (t.who, .wait stage, turned) := by
    rw [Moment.latched?, due?_eq got ops]
    simp [found, hturned]
  refine ⟨v, turn, ?_, ?_⟩
  · have returns := (Latch.Call.turns_of_turn hturned).waited exclusive decided
    simp [Moment.waited?, latched, returns]
  · rintro rfl
    obtain ⟨e, took, deed⟩ := took_of_turn_of_firm h.orderly got ops (by rintro ⟨⟩) turn
    obtain ⟨t', after, -⟩ := took.stays got
    obtain ⟨apart, -⟩ | ⟨-, -, answer, given, left⟩ := took.thread_at got after
    · exact absurd rfl apart
    refine ⟨t', after, ?_⟩
    cases deed with
    | jobAdded submits | freeJobAdded submits => cases submits
    | waitSlept _ latch' _ _ found' _ up held =>
        obtain rfl := Option.some.inj (found'.symm.trans found)
        rcases decided with zero | down
        · exact absurd zero (Nat.ne_of_gt held)
        · rw [down] at up
          cases up
    | callerWaited _ latch' _ succeeded found' _ judges =>
        obtain rfl := Option.some.inj (found'.symm.trans found)
        rw [← judges.eq_tells exclusive, ← given _ rfl]
        rcases left with rfl | rfl <;> simp [Thread.wake]

/-- How the waits on the latch at `l` come out in a run that has the turns `moments` and ends with
`w`, where the latch is `latch`. -/
structure Concord (w : World α) (moments : List (Moment α)) (l : Nat) (latch : Latch) : Prop where
  returned : ∀ m ∈ moments, ∀ who succeeded, m.waited? l = some (who, succeeded) →
    m.world.store.latches[l]? = some latch ∧ latch.Decided ∧ succeeded = latch.tells ∧
      ∀ t ∈ m.world.threads, ∀ job ended waiter, .latch l (.running job ended) waiter ∉ t.ops
  decision : ∀ index pick v latch', w.turn index pick = some v →
    v.store.latches[l]? = some latch' → ¬latch.Decided → latch'.Decided →
      ∃ who call turned, (Moment.mk w index).latched? l = some (who, call, turned) ∧
        call.Closes latch latch'
  later : latch.Decided → ∀ v, w.Later v → v.store.latches[l]? = some latch ∧
    ∀ index (t : Thread α) rest stage waiter, v.threads[index]? = some t →
      t.ops = .latch l (.wait stage) waiter :: rest → stage ≠ .asleep → ∀ pick,
        ∃ v', v.turn index pick = some v' ∧
          (Moment.mk v index).waited? l = some (t.who, latch.tells) ∧
          (waiter = .caller → ∃ t', v'.threads[index]? = some t' ∧ t'.ops.length = rest.length ∧
            t'.answer = some (if latch.tells then .ok .nothing else .error .waitTerminated))
  exclusive : ¬(latch.realized = true ∧ latch.terminated = true)
  awake : w.Quiescent → ∀ t ∈ w.threads, ∀ waiter, .latch l (.wait .asleep) waiter ∈ t.ops →
    latch.realized = false ∧ latch.terminated = false

/-- All who wait for a latch are told the same, early or late. No wait returns before the latch is
decided. What it brings is a good end if the latch has come to zero and nothing has failed, and a bad
one otherwise; that stays so for ever, and later waits bring it without sleeping. A latch is never
both at zero and terminated, and where no thread can take a turn nobody sleeps who waits for one that
is either. -/
theorem Run.waiters_agree (h : u.Reachable) (run : u.Run moments w)
    (found : w.store.latches[l]? = some latch) : w.Concord moments l latch where
  returned m hm who succeeded waited := by
    obtain ⟨before, after, v, pick, rfl, run', turn, run''⟩ := run.of_mem hm
    have reachable := run'.reachable h
    obtain ⟨latch', found', decided, tells⟩ := reachable.of_waited? turn waited
    have same := reachable.decided_kept found' decided
      (.head (.turn m.index pick turn) run''.later)
    obtain rfl := Option.some.inj (same.symm.trans found)
    refine ⟨found', decided, tells, fun t ht job ended waiter going => ?_⟩
    have finishing := reachable.finishing found' ht going
    rw [reachable.idle_of_decided found' decided] at finishing
    cases finishing
  decision index pick v latch' turn found' undecided decided :=
    (run.reachable h).closed_by turn found undecided found' decided
  later decided v later := by
    have reachable := run.reachable h
    have found' := reachable.decided_kept found decided later
    exact ⟨found', fun index t rest stage waiter got ops awake pick =>
      (reachable.later later).waited_of_decided found' decided got ops awake pick⟩
  exclusive := by
    rintro ⟨zero, down⟩
    have held := ((run.reachable h).exclusive found down).1
    exact Nat.ne_of_gt held (by simpa [Latch.realized] using zero)
  awake quiet t ht waiter hop := by
    have reachable := run.reachable h
    have asleep : (Op.latch l (.wait .asleep) waiter : Op α).sleepsAt = some (.latch l) := rfl
    obtain ⟨rest, ops⟩ := (reachable.orderly.ordered t ht).asleep hop asleep
    obtain ⟨latch', found', up, held⟩ := quiet.held reachable ht ops asleep
    obtain rfl := Option.some.inj (found'.symm.trans found)
    exact ⟨by simpa [Latch.realized] using Nat.ne_of_gt held, up⟩

/-- One thread sleeps before the latch when it comes to zero, after a continuation that would have
terminated it. Another one waits when the latch has been terminated in vain once more. -/
def earlyAndLate : List (Command Unit) :=
  [.newLatch "l" 1 (some (.link [.terminate "l"] false)), .onLatch "l" .wait,
    .onLatch "l" (.count false), .onLatch "l" .terminate, .onLatch "l" .wait]

theorem waiters_agree_of_earlyAndLate :
    ∃ latch, (follow 40 earlyAndLate (.start [])).store.latches[0]? = some latch ∧
      (follow 40 earlyAndLate (.start [])).Concord (following 40 earlyAndLate (.start [])) 0 latch ∧
      latch.tells = true ∧
      (following 40 earlyAndLate (.start [])).filterMap (Moment.waited? 0) =
        [(.step 1, true), (.step 4, true)] := by
  have there : (follow 40 earlyAndLate (.start [])).store.latches[0]?.map Latch.tells =
      some true := by decide
  obtain ⟨latch, found, tells⟩ := Option.map_eq_some_iff.mp there
  exact ⟨latch, found, (run_following 40 earlyAndLate (.start [])).waiters_agree (.start []) found,
    tells, by decide⟩

end World

end WorkerPool
