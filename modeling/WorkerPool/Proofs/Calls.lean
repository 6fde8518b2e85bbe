import WorkerPool.Backlog
import WorkerPool.Channel
import WorkerPool.Latch

/-! What one turn of a call on a channel, a latch or a backlog can do, case by case. A case names
the condition under which it arises and the object that it leaves behind, so that whatever is proved
about calls can be proved by going through the cases, without another look at how a turn comes to
its verdict. -/

namespace WorkerPool

namespace Monitor

variable {σ : Type}

theorem lookWhile_eq_some {m : Monitor σ} {holds : σ → Bool} {stage : Stage} {verdict : Verdict}
    (h : m.lookWhile holds stage = some verdict) :
    stage ≠ .asleep ∧
      ((verdict = .passed ∧ holds m.value = false) ∨
        (verdict = .refused ∧ m.terminated = true) ∨
        (verdict = .sleeps ∧ m.terminated = false ∧ holds m.value = true)) := by
  cases stage <;> cases ht : m.terminated <;> cases hv : holds m.value <;>
    simp_all [lookWhile, dismisses, Monitor.verdict]

end Monitor

namespace Channel.Call

variable {α : Type}

/-- One turn of a call on the channel `c`. -/
inductive Turns (c : Channel α) : Call α → Turned (Ring α) (Call α) (Reply α) → Prop
  | shut (item : α) (down : c.terminated = true) :
      Turns c (.offer item) ⟨c, .returns (.givenBack item), .nobody⟩
  | offered (item : α) (up : c.terminated = false) :
      Turns c (.offer item) ⟨c, .goes (.send item .arriving), .nobody⟩
  | givenBack (item : α) (stage : Stage) (awake : stage ≠ .asleep) (down : c.terminated = true) :
      Turns c (.send item stage) ⟨c, .returns (.givenBack item), .nobody⟩
  | pushed (item : α) (stage : Stage) (awake : stage ≠ .asleep) (up : c.terminated = false)
      (room : c.value.full = false) :
      Turns c (.send item stage)
        ⟨{ c with value := c.value.push item }, .goes (.announce .sent), .nobody⟩
  | full (item : α) (stage : Stage) (awake : stage ≠ .asleep) (up : c.terminated = false)
      (full : c.value.full = true) :
      Turns c (.send item stage) ⟨c, .goes (.send item .asleep), .nobody⟩
  | stopped (stage : Stage) (awake : stage ≠ .asleep) (down : c.terminated = true) :
      Turns c (.receive stage) ⟨c, .returns (.received none), .nobody⟩
  | popped (stage : Stage) (awake : stage ≠ .asleep) (up : c.terminated = false)
      (stock : c.value.isEmpty = false) :
      Turns c (.receive stage)
        ⟨{ c with value := c.value.pop.2 }, .goes (.announce (.received c.value.pop.1)), .nobody⟩
  | empty (stage : Stage) (awake : stage ≠ .asleep) (up : c.terminated = false)
      (empty : c.value.isEmpty = true) :
      Turns c (.receive stage) ⟨c, .goes (.receive .asleep), .nobody⟩
  | drained :
      Turns c .drain
        ⟨{ c with value := c.value.drain.2 }, .goes (.announce (.drained c.value.drain.1)), .nobody⟩
  | terminated : Turns c .terminate ⟨Monitor.terminate c, .returns .terminated, .everyone⟩
  | announced (reply : Reply α) : Turns c (.announce reply) ⟨c, .returns reply, .everyone⟩

theorem turns_of_turn {c : Channel α} {call : Call α}
    {turned : Turned (Ring α) (Call α) (Reply α)} (h : call.turn c = some turned) :
    Turns c call turned := by
  cases call with
  | offer item =>
      simp only [turn, Option.some.injEq] at h
      subst h
      split
      · rename_i down
        exact .shut item down
      · rename_i up
        exact .offered item (by simpa using up)
  | send item stage =>
      obtain ⟨verdict, hlook, rfl⟩ := Option.map_eq_some_iff.mp h
      obtain ⟨awake, ⟨rfl, hroom⟩ | ⟨rfl, down⟩ | ⟨rfl, up, hfull⟩⟩ :=
        Monitor.lookWhile_eq_some hlook
      · dsimp only
        split
        · rename_i down
          exact .givenBack item stage awake down
        · rename_i up
          exact .pushed item stage awake (by simpa using up) hroom
      · exact .givenBack item stage awake down
      · exact .full item stage awake up hfull
  | receive stage =>
      obtain ⟨verdict, hlook, rfl⟩ := Option.map_eq_some_iff.mp h
      obtain ⟨awake, ⟨rfl, hstock⟩ | ⟨rfl, down⟩ | ⟨rfl, up, hempty⟩⟩ :=
        Monitor.lookWhile_eq_some hlook
      · dsimp only
        split
        · rename_i down
          exact .stopped stage awake down
        · rename_i up
          exact .popped stage awake (by simpa using up) hstock
      · exact .stopped stage awake down
      · exact .empty stage awake up hempty
  | drain =>
      obtain rfl := Option.some.inj h
      exact .drained
  | terminate =>
      obtain rfl := Option.some.inj h
      exact .terminated
  | announce reply =>
      obtain rfl := Option.some.inj h
      exact .announced reply

end Channel.Call

namespace Latch.Call

/-- What is left of a call that has taken one off, where `remaining` is what it found. -/
def afterCount (remaining : Nat) : Next Call Reply :=
  if remaining - 1 = 0 then .goes .announce else .returns .done

/-- One turn of a call on the latch `l`. -/
inductive Turns (l : Latch) : Call → Turned Countdown Call Reply → Prop
  | ignored (failed : Bool) (idle : l.counts = false) :
      Turns l (.count failed) ⟨l, .returns .done, .nobody⟩
  | skipped (failed : Bool) (job : Job) (counts : l.counts = true) (last : l.value.remaining = 1)
      (held : l.value.continuation = some job) (spoilt : (l.value.failed || failed) = true) :
      Turns l (.count failed)
        ⟨{ l with value := { l.value with remaining := 0, failed := true, continuation := none } },
          .goes .announce, .nobody⟩
  | started (job : Job) (counts : l.counts = true) (last : l.value.remaining = 1)
      (held : l.value.continuation = some job) (sound : l.value.failed = false) :
      Turns l (.count false)
        ⟨{ l with value := { l.value with failed := false, continuation := none, finishing := true } },
          .goes (.running job true), .nobody⟩
  | counted (failed : Bool) (counts : l.counts = true)
      (plain : l.value.remaining ≠ 1 ∨ l.value.continuation = none) :
      Turns l (.count failed)
        ⟨{ l with value := { l.value with
            remaining := l.value.remaining - 1
            failed := l.value.failed || failed } },
          afterCount l.value.remaining, .nobody⟩
  | through (job : Job) (succeeded : Bool) :
      Turns l (.running job succeeded)
        ⟨{ l with value := { l.value with
            remaining := l.value.remaining - 1
            failed := l.value.failed || !succeeded
            finishing := false } },
          afterCount l.value.remaining, .nobody⟩
  | announced : Turns l .announce ⟨l, .returns .done, .everyone⟩
  | passed (stage : Stage) (awake : stage ≠ .asleep) (zero : l.value.remaining = 0) :
      Turns l (.wait stage) ⟨l, .returns (.waited (!l.value.failed)), .nobody⟩
  | refused (stage : Stage) (awake : stage ≠ .asleep) (down : l.terminated = true) :
      Turns l (.wait stage) ⟨l, .returns (.waited false), .nobody⟩
  | asleep (stage : Stage) (awake : stage ≠ .asleep) (up : l.terminated = false)
      (held : 0 < l.value.remaining) :
      Turns l (.wait stage) ⟨l, .goes (.wait .asleep), .nobody⟩
  | terminated (held : 0 < l.value.remaining) (idle : l.value.finishing = false) :
      Turns l .terminate ⟨Monitor.terminate l, .returns .done, .everyone⟩
  | spared (closed : l.value.remaining = 0 ∨ l.value.finishing = true) :
      Turns l .terminate ⟨l, .returns .done, .nobody⟩

theorem turns_of_turn {l : Latch} {call : Call} {turned : Turned Countdown Call Reply}
    (h : call.turn l = some turned) : Turns l call turned := by
  cases call with
  | count failed =>
      obtain rfl := Option.some.inj h
      split
      · rename_i idle
        exact .ignored failed (by simpa using idle)
      · rename_i counts
        have counts : l.counts = true := by simpa using counts
        dsimp only
        split
        · rename_i job last held
          split
          · rename_i spoilt
            have := Turns.skipped failed job counts last held spoilt
            simpa [countOff, last, spoilt] using this
          · rename_i spotless
            obtain ⟨sound, hfailed⟩ : l.value.failed = false ∧ failed = false := by
              simpa using spotless
            clear spotless
            subst hfailed
            have := Turns.started job counts last held sound
            simpa [sound] using this
        · rename_i hplain
          refine Turns.counted failed counts ?_
          cases hc : l.value.continuation with
          | none => exact .inr rfl
          | some job => exact .inl fun last => hplain job last hc
  | running job succeeded =>
      obtain rfl := Option.some.inj h
      exact .through job succeeded
  | announce =>
      obtain rfl := Option.some.inj h
      exact .announced
  | wait stage =>
      obtain ⟨verdict, hlook, rfl⟩ := Option.map_eq_some_iff.mp h
      obtain ⟨awake, ⟨rfl, hzero⟩ | ⟨rfl, down⟩ | ⟨rfl, up, held⟩⟩ :=
        Monitor.lookWhile_eq_some hlook
      · exact .passed stage awake (by simpa using hzero)
      · exact .refused stage awake down
      · exact .asleep stage awake up (by simpa using held)
  | terminate =>
      obtain rfl := Option.some.inj h
      split
      · rename_i held
        exact .terminated held.1 (by simpa using held.2)
      · rename_i closed
        refine .spared ?_
        cases hf : l.value.finishing with
        | true => exact .inr rfl
        | false => exact .inl (by simpa [hf] using closed)

end Latch.Call

namespace Backlog.Call

/-- One turn of a call on the backlog `b`. -/
inductive Turns (b : Backlog) : Call → Turned Nat Call Unit → Prop
  | enlisted : Turns b .enlist ⟨{ b with value := b.value + 1 }, .returns (), .nobody⟩
  | left :
      Turns b .leave
        ⟨{ b with value := b.value - 1 },
          if b.value - 1 = 0 then .goes .announce else .returns (), .nobody⟩
  | announced : Turns b .announce ⟨b, .returns (), .everyone⟩
  | idle (stage : Stage) (awake : stage ≠ .asleep) (through : b.value = 0 ∨ b.terminated = true) :
      Turns b (.awaitIdle stage) ⟨b, .returns (), .nobody⟩
  | asleep (stage : Stage) (awake : stage ≠ .asleep) (held : 0 < b.value) :
      Turns b (.awaitIdle stage) ⟨b, .goes (.awaitIdle .asleep), .nobody⟩

theorem turns_of_turn {b : Backlog} {call : Call} {turned : Turned Nat Call Unit}
    (h : call.turn b = some turned) : Turns b call turned := by
  cases call with
  | enlist =>
      obtain rfl := Option.some.inj h
      exact .enlisted
  | leave =>
      obtain rfl := Option.some.inj h
      exact .left
  | announce =>
      obtain rfl := Option.some.inj h
      exact .announced
  | awaitIdle stage =>
      obtain ⟨verdict, hlook, rfl⟩ := Option.map_eq_some_iff.mp h
      obtain ⟨awake, ⟨rfl, hzero⟩ | ⟨rfl, down⟩ | ⟨rfl, -, held⟩⟩ :=
        Monitor.lookWhile_eq_some hlook
      · exact .idle stage awake (.inl (by simpa using hzero))
      · exact .idle stage awake (.inr down)
      · exact .asleep stage awake (by simpa using held)

end Backlog.Call

end WorkerPool
