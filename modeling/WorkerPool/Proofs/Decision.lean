import WorkerPool.Proofs.Finale
import WorkerPool.Proofs.Moments

/-! When a latch is decided. It is decided once it has come down to zero or has been terminated, and
only one of the two can happen: a latch at zero is spared by a termination, a terminated one is not
counted on, and while the continuation is performed, and the last completion with it is still to be
taken off, neither a count nor a termination has an effect. So no call changes a latch that is
decided, and it stays for ever as it is. -/

namespace WorkerPool

variable {α : Type}

/-- The latch has come down to zero, or it has been terminated. -/
def Latch.Decided (l : Latch) : Prop :=
  l.value.remaining = 0 ∨ l.terminated = true

/-- A latch that has been terminated still expects completions, and nobody performs its
continuation. -/
def Latch.Exclusive (l : Latch) : Prop :=
  l.terminated = true → 0 < l.value.remaining ∧ l.value.finishing = false

namespace Latch.Call

variable {l : Latch} {call : Latch.Call} {turned : Turned Countdown Latch.Call Latch.Reply}

theorem up_of_counts (counts : l.counts = true) :
    l.value.remaining ≠ 0 ∧ l.value.finishing = false ∧ l.terminated = false := by
  simpa [Latch.counts, and_assoc] using counts

/-- No turn counts on a latch that has been terminated, or terminates one that is finishing. -/
theorem Turns.exclusive (turns : call.Turns l turned) (exclusive : l.Exclusive)
    (performing : ∀ job succeeded, call = .running job succeeded → l.value.finishing = true) :
    Latch.Exclusive turned.object := by
  cases turns with
  | skipped _ _ counts | started _ counts | counted _ counts =>
      exact fun down => absurd (down.symm.trans (up_of_counts counts).2.2) nofun
  | through job succeeded =>
      intro down
      have idle := (exclusive down).2
      rw [performing job succeeded rfl] at idle
      cases idle
  | terminated held idle => exact fun _ => ⟨held, idle⟩
  | _ => exact exclusive

/-- A latch that is decided or finishing is changed by nobody but who performs its continuation. -/
theorem Turns.kept (turns : call.Turns l turned) (past : l.Decided ∨ l.value.finishing = true)
    (apart : ∀ job succeeded, call ≠ .running job succeeded) : turned.object = l := by
  have idle : l.counts = true → False := fun counts => by
    obtain ⟨held, going, up⟩ := up_of_counts counts
    rcases past with (zero | down) | finishing
    · exact held zero
    · exact absurd (down.symm.trans up) nofun
    · exact absurd (finishing.symm.trans going) nofun
  cases turns with
  | skipped _ _ counts | started _ counts | counted _ counts => exact (idle counts).elim
  | through job succeeded => exact absurd rfl (apart job succeeded)
  | terminated held going =>
      rcases past with (zero | down) | finishing
      · exact absurd zero (Nat.ne_of_gt held)
      · rw [Monitor.terminate, ← down]
      · exact absurd (finishing.symm.trans going) nofun
  | _ => rfl

end Latch.Call

/-- A latch that is new has not been terminated. -/
theorem LatchesChange.up_of_new {latches latches' : List Latch} (h : LatchesChange latches latches')
    {l : Nat} {latch : Latch} (absent : latches.length ≤ l) (found : latches'[l]? = some latch) :
    latch.terminated = false := by
  have there := (List.getElem?_eq_some_iff.mp found).1
  cases h with
  | same => exact absurd there (Nat.not_lt.mpr absent)
  | one place m m' =>
      rw [List.length_set] at there
      exact absurd there (Nat.not_lt.mpr absent)
  | new m up =>
      rw [List.getElem?_append_right absent] at found
      obtain rfl := List.mem_singleton.mp (List.mem_of_getElem? found)
      exact up

/-- A turn of a call on the latch at `l`: whose call it is, the call, and what the turn comes to. -/
def Moment.latched? (l : Nat) (m : Moment α) :
    Option (Who × Latch.Call × Turned Countdown Latch.Call Latch.Reply) :=
  match m.due? with
  | some (who, .latch k call _) =>
    if k = l then
      (m.world.store.latches[k]?.bind fun latch => call.turn latch).map fun turned =>
        (who, call, turned)
    else none
  | _ => none

namespace World

/-- What a turn of the thread `who` does to the latch at `l`, with the call on it that takes the
turn, if one does. -/
inductive Touches (l : Nat) (s : Store α) (who : Who) : List (Op α) → Effect α →
    Option (Who × Latch.Call × Turned Countdown Latch.Call Latch.Reply) → Prop
  | called {latch : Latch} {call : Latch.Call} (waiter : Waiter)
      {turned : Turned Countdown Latch.Call Latch.Reply} {e : Effect α}
      (found : s.latches[l]? = some latch) (turns : call.Turns latch turned)
      (after : e.store.latches[l]? = some turned.object) :
      Touches l s who [.latch l call waiter] e (some (who, call, turned))
  | apart {old : List (Op α)} {e : Effect α}
      (left : ∀ call waiter, old ≠ [.latch l call waiter])
      (kept : l < s.latches.length → e.store.latches[l]? = s.latches[l]?) :
      Touches l s who old e none

variable {w v : World α} {index : Nat} {t : Thread α} {l : Nat} {latch : Latch}

theorem latches_of_effect {s : Store α} {call : Latch.Call} {waiter : Waiter} {e : Effect α}
    (h : call.effect s l latch waiter = some e) :
    ∃ turned, call.turn latch = some turned ∧ e.store.latches = s.latches.set l turned.object := by
  obtain ⟨turned, turn, rfl⟩ := Option.map_eq_some_iff.mp h
  refine ⟨turned, turn, ?_⟩
  cases turned.next with
  | goes call' => cases call' <;> rfl
  | returns reply =>
      cases reply with
      | done => rfl
      | waited succeeded =>
          cases waiter with
          | caller | ticket => cases succeeded <;> rfl
          | ready place name =>
              simp only [Waiter.effect]
              split <;> rfl
          | _ => rfl

/-- Every turn is of one of these kinds. -/
theorem touches_of_turn (orderly : w.Orderly) {pick : Nat} (h : w.turn index pick = some v)
    (l : Nat) :
    ∃ t old tail e, w.Took v index t old tail e ∧
      Touches l w.store t.who old e ((Moment.mk w index).latched? l) := by
  by_cases calls : ∃ who call waiter, (Moment.mk w index).due? = some (who, .latch l call waiter)
  · obtain ⟨who, call, waiter, due⟩ := calls
    obtain ⟨t, rest, e, rfl, effect, took⟩ := took_of_due orderly due (by rintro ⟨⟩) h
    obtain ⟨latch, found, hcall⟩ := Option.bind_eq_some_iff.mp effect
    obtain ⟨turned, turn, latches⟩ := latches_of_effect hcall
    have latched : (Moment.mk w index).latched? l = some (t.who, call, turned) := by
      rw [Moment.latched?, due]
      simp [found, turn]
    refine ⟨t, _, rest, e, took, latched ▸ .called waiter found (Latch.Call.turns_of_turn turn) ?_⟩
    rw [latches, List.getElem?_set_self (List.getElem?_eq_some_iff.mp found).1]
  · obtain ⟨t, old, tail, e, took⟩ := took_of_turn orderly h
    have latched : (Moment.mk w index).latched? l = none := by
      unfold Moment.latched?
      split
      · rename_i who k call waiter due
        refine if_neg ?_
        rintro rfl
        exact calls ⟨who, call, waiter, due⟩
      · rfl
    have left : ∀ call waiter, old ≠ [.latch l call waiter] := by
      rintro call waiter rfl
      exact calls ⟨t.who, call, waiter, due?_eq took.got took.ops⟩
    refine ⟨t, old, tail, e, took, latched ▸ .apart left fun there => ?_⟩
    rw [← took.store]
    exact (took.total_kept l left true).2.2 there

/-- Who performs the continuation of a latch finds it finishing. -/
theorem Reachable.finishing (h : w.Reachable) (found : w.store.latches[l]? = some latch)
    (ht : t ∈ w.threads) {job : Job} {succeeded : Bool} {waiter : Waiter}
    (hop : .latch l (.running job succeeded) waiter ∈ t.ops) : latch.value.finishing = true := by
  by_contra idle
  refine not_running_of_runs ?_ t ht hop
  rw [(h.tallied.composed l latch found).runs, if_neg idle]

theorem Took.finishing {call : Latch.Call} {waiter : Waiter} {tail : List (Op α)} {e : Effect α}
    (took : w.Took v index t [.latch l call waiter] tail e) (h : w.Reachable)
    (found : w.store.latches[l]? = some latch) (job : Job) (succeeded : Bool)
    (running : call = .running job succeeded) : latch.value.finishing = true := by
  subst running
  have hop : .latch l (.running job succeeded) waiter ∈ t.ops := took.due_mem
  exact h.finishing found took.mem_threads hop

/-- A latch is never both at zero and terminated, and a terminated one is not finishing. -/
theorem Reachable.exclusive (h : w.Reachable) (found : w.store.latches[l]? = some latch) :
    latch.Exclusive := by
  induction h generalizing latch with
  | start cells => cases found
  | @next w v reachable step ih =>
      cases step with
      | issue command => exact ih found
      | turn index pick took =>
          obtain ⟨t, old, tail, e, took, touches⟩ := touches_of_turn reachable.orderly took l
          rw [took.store] at found
          generalize (Moment.mk w index).latched? l = latched at touches
          cases touches with
          | called waiter found' turns after =>
              obtain rfl := Option.some.inj (after.symm.trans found)
              exact turns.exclusive (ih found') (took.finishing reachable found')
          | apart left kept =>
              rcases Nat.lt_or_ge l w.store.latches.length with there | absent
              · exact ih ((kept there).symm.trans found)
              · intro down
                rw [took.act.latches.up_of_new absent found] at down
                cases down

/-- Nobody performs the continuation of a latch that is decided. -/
theorem Reachable.idle_of_decided (h : w.Reachable) (found : w.store.latches[l]? = some latch)
    (decided : latch.Decided) : latch.value.finishing = false := by
  rcases decided with zero | down
  · exact ((h.tallied.composed l latch found).of_zero zero).2
  · exact (h.exclusive found down).2

/-- A latch that is decided stays as it is. -/
theorem Reachable.decided_kept (h : w.Reachable) (found : w.store.latches[l]? = some latch)
    (decided : latch.Decided) (later : w.Later v) : v.store.latches[l]? = some latch := by
  induction later with
  | refl => exact found
  | @tail w' v' earlier step ih =>
      have reachable := h.later earlier
      cases step with
      | issue command => exact ih
      | turn index pick took =>
          obtain ⟨t, old, tail, e, took, touches⟩ := touches_of_turn reachable.orderly took l
          rw [took.store]
          generalize (Moment.mk w' index).latched? l = latched at touches
          cases touches with
          | called waiter found' turns after =>
              obtain rfl := Option.some.inj (ih.symm.trans found')
              have idle := reachable.idle_of_decided ih decided
              rw [after, turns.kept (.inl decided) fun job succeeded going => ?_]
              rw [took.finishing reachable ih job succeeded going] at idle
              cases idle
          | apart left kept =>
              rw [kept (List.getElem?_eq_some_iff.mp ih).1, ih]

end World

end WorkerPool
