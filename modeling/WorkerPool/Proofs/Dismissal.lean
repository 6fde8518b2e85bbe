import WorkerPool.Proofs.Attendance
import WorkerPool.Proofs.Sections

/-! Termination misses no sleeper. The flag goes up in a turn that wakes everybody, it never goes down
again, and whoever finds it up does not fall asleep; so at a monitor that has been terminated nobody
sleeps, then or ever after. A single wait says how it ended by the flag as it is when the wait
returns. A termination whose condition is false does nothing at all.

The turn that raises the flag is two instructions, and the turn that falls asleep is two as well: the
flag is read, and then the caller sleeps. One instruction at a time, nobody is about to fall asleep
while the flag is up, and those who still sleep then are about to be woken by the one that has the
lock. -/

namespace WorkerPool

namespace Monitor

variable {σ : Type}

/-- What a turn of a single wait comes to: the call falls asleep, or it returns. It returns at once if
the flag is up, and says that the monitor has been terminated if and only if the flag is up. -/
inductive Paused (c : Crowd σ) (i : Nat) (a : Caller σ) : Stage → Crowd σ → Prop
  | sleeps (up : c.monitor.terminated = false) :
      Paused c i a .arriving
        { c with callers := c.callers.set i { a with state := .goes (.wait .asleep) } }
  | returns {stage : Stage} (outcome : Outcome) (due : stage = .arriving → c.monitor.terminated = true)
      (told : outcome = .terminated ↔ c.monitor.terminated = true) :
      Paused c i a stage
        { c with
          callers := c.callers.set i { a with state := .returns (.waited outcome c.monitor.value) } }

namespace Crowd

variable {start : Monitor σ} {visits : List (Visit σ)} {visit : Visit σ} {c d : Crowd σ}
  {i : Nat} {a : Caller σ}

/-- The turn that a caller takes is a turn of its call. -/
theorem Step.turn_of (step : c.Step (some visit) d) (got : c.callers[i]? = some a) {call : Call σ}
    (due : a.state = .goes call) (own : visit.caller = i) :
    ∃ turned pick, call.turn c.monitor = some turned ∧
      d = ⟨turned.object,
        rouse Caller.wake turned.wake pick (c.callers.set i { a with state := turned.next })⟩ := by
  cases step with
  | @turns j b call' turned pick got' due' turn =>
      obtain rfl : j = i := own
      obtain rfl := Option.some.inj (got.symm.trans got')
      obtain rfl := Next.goes.inj (due.symm.trans due')
      exact ⟨turned, pick, turn, rfl⟩

theorem Step.paused (step : c.Step (some visit) d) (got : c.callers[i]? = some a) {stage : Stage}
    (due : a.state = .goes (.wait stage)) (own : visit.caller = i) : Paused c i a stage d := by
  obtain ⟨turned, pick, turn, rfl⟩ := step.turn_of got due own
  cases stage with
  | asleep => cases turn
  | woken =>
      obtain rfl := Option.some.inj turn
      refine .returns _ nofun ?_
      cases c.monitor.terminated <;> simp
  | arriving =>
      cases up : c.monitor.terminated with
      | true =>
          simp only [Call.turn, up, if_true, Option.some.injEq] at turn
          subst turn
          exact .returns .terminated (fun _ => up) (by simp [up])
      | false =>
          simp only [Call.turn, up, Bool.false_eq_true, if_false, Option.some.injEq] at turn
          subst turn
          exact .sleeps up

/-- A termination whose condition is false changes nothing, and wakes nobody. -/
theorem Step.declined (step : c.Step (some visit) d) (got : c.callers[i]? = some a)
    {holds : σ → Except Payload Bool} (due : a.state = .goes (.terminateIf holds))
    (own : visit.caller = i) (clear : holds c.monitor.value = .ok false) :
    d = { c with callers := c.callers.set i { a with state := .returns (.decided false) } } := by
  obtain ⟨turned, pick, turn, rfl⟩ := step.turn_of got due own
  simp only [Call.turn, clear, Option.some.injEq] at turn
  subst turn
  rfl

/-- Once the flag is up nobody sleeps, and so it stays. -/
theorem Run.terminated (run : Run start visits c) (up : c.monitor.terminated = true)
    (later : c.Later d) :
    d.monitor.terminated = true ∧ ∀ a ∈ d.callers, a.asleep = false := by
  obtain ⟨visits', run'⟩ := run.later later
  have stays := later.flag up
  exact ⟨stays, run'.unflagged stays⟩

end Crowd

/-! ### One instruction at a time -/

theorem Point.flag_of_act {p : Point σ} {m : Monitor σ} {acted : Acted σ}
    (act : p.act m = some acted) (up : m.terminated = true) : acted.monitor.terminated = true := by
  cases p with
  | rereads call =>
      cases call with
      | wait | waitWhile =>
          obtain rfl := Option.some.inj act
          exact up
      | update | signal | broadcast | terminate | terminateIf => cases act
  | checks call =>
      cases call with
      | waitWhile holds stage =>
          obtain rfl := Option.some.inj act
          cases holds m.value with
          | error payload => exact up
          | ok pair =>
              obtain ⟨value, stays⟩ := pair
              cases stays <;> exact up
      | terminateIf holds =>
          obtain rfl := Option.some.inj act
          cases holds m.value with
          | error payload => exact up
          | ok decided => cases decided <;> exact up
      | update | terminate =>
          obtain rfl := Option.some.inj act
          exact up
      | wait | signal | broadcast => cases act
  | raises =>
      obtain rfl := Option.some.inj act
      rfl
  | reads | falls | notifies | leaves =>
      obtain rfl := Option.some.inj act
      exact up
  | locks | sleeps | rings | out => cases act

/-- Whoever has the lock and has changed the flag has the sleepers to wake. -/
theorem Point.Found.eq_notifies {p : Point σ} {before now : Monitor σ} (found : p.Found before now)
    (inside : p.inside = true) (down : before.terminated = false) (up : now.terminated = true) :
    ∃ call, p = .notifies call := by
  have kept : now.terminated ≠ before.terminated := by simp [down, up]
  cases p with
  | notifies call => exact ⟨call, rfl⟩
  | rereads | checks | raises | leaves => exact absurd (congrArg terminated found.1) kept
  | reads => exact absurd found.1 kept
  | falls => cases found.1.symm.trans up
  | locks | sleeps | rings | out => cases inside

namespace Scene

variable {start : Monitor σ} {s t : Scene σ}

theorem Step.flag (step : s.Step t) (up : s.monitor.terminated = true) :
    t.monitor.terminated = true := by
  cases step with
  | comes | locks | rings | stirs => exact up
  | acts pick got act => exact Point.flag_of_act act up

theorem Later.flag (later : s.Later t) (up : s.monitor.terminated = true) :
    t.monitor.terminated = true := by
  induction later with
  | refl => exact up
  | next later step ih => exact step.flag ih

/-- Nobody falls asleep where the flag is up. -/
theorem Shows.awake {c : Crowd σ} (shows : s.Shows c) (up : s.monitor.terminated = true)
    (step : s.Step t) {j : Nat} {q : Runner σ} (got : t.runners[j]? = some q)
    (asleep : q.asleep = true) : s.runners[j]? = some q := by
  cases step with
  | comes call fresh =>
      rcases Nat.lt_or_ge j s.runners.length with old | new
      · rwa [List.getElem?_append_left old] at got
      · rw [List.getElem?_append_right new] at got
        rw [List.mem_singleton.mp (List.mem_of_getElem? got)] at asleep
        cases call <;> cases asleep
  | stirs i =>
      have same : (Monitor.rouse Runner.wake .one i s.runners)[j]? = some q := got
      exact Runner.asleep_of_rouse same asleep
  | @locks i r call was here free =>
      refine Runner.asleep_of_set got asleep ?_
      exact Runner.awake_of_inside (Point.inside_entered call)
  | @rings i r call pick was here =>
      exact Runner.asleep_of_set (Runner.asleep_of_rouse got asleep) asleep rfl
  | @acts i r acted pick was act =>
      refine Runner.asleep_of_set (Runner.asleep_of_rouse got asleep) asleep ?_
      cases (shows.found r (List.mem_of_getElem? was)).progress act with
      | goesOn inside quiet same found => exact Runner.awake_of_inside inside
      | leaves reply here gone =>
          subst gone
          rfl
      | commits due turn found =>
          -- The turn would have to leave the flag down.
          unfold Runner.asleep
          split
          · rename_i sleeper here
            have down := (Call.goes_of_turn turn (congrArg Point.state here)).1
            cases down.symm.trans (Point.flag_of_act act up)
          · rfl

/-- The flag is up: nobody is about to fall asleep, nobody does, and if there are sleepers left, the
one that has the lock is about to wake them all. -/
structure Dismissed (s : Scene σ) : Prop where
  upright : ∀ r ∈ s.runners, ∀ call, r.point ≠ .falls call
  awake : ∀ {t : Scene σ}, s.Step t → ∀ {j : Nat} {q : Runner σ}, t.runners[j]? = some q →
    q.asleep = true → s.runners[j]? = some q
  woken : (∀ r ∈ s.runners, r.asleep = false) ∨
    ∃ i r call, s.holder = some i ∧ s.runners[i]? = some r ∧ r.point = .notifies call

theorem Run.dismissed (run : Run start s) (up : s.monitor.terminated = true) : s.Dismissed := by
  obtain ⟨visits, c, turns, shows⟩ := run.shown
  have upright : ∀ r ∈ s.runners, ∀ call, r.point ≠ .falls call := by
    intro r mem call here
    have found := shows.found r mem
    rw [here] at found
    cases found.1.symm.trans up
  refine ⟨upright, fun step _ _ => shows.awake up step, ?_⟩
  · cases down : c.monitor.terminated with
    | true =>
        refine .inl fun r mem => ?_
        cases asleep : r.asleep with
        | false => rfl
        | true =>
            have seen : r.caller ∈ c.callers := by
              rw [shows.callers]
              exact List.mem_map_of_mem mem
            have slept := Runner.asleep_caller asleep (shows.found r mem)
            exact absurd (turns.unflagged down _ seen) (by simp [slept])
    | false =>
        cases holder : s.holder with
        | none =>
            rw [shows.idle holder, up] at down
            cases down
        | some i =>
            obtain ⟨r, got, inside⟩ := shows.held i holder
            obtain ⟨call, here⟩ :=
              (shows.found r (List.mem_of_getElem? got)).eq_notifies inside down up
            exact .inr ⟨i, r, call, rfl, got, here⟩

/-- What a call says as it gives the lock back is true of the monitor. -/
theorem Run.holds (run : Run start s) {r : Runner σ} (mem : r ∈ s.runners) {reply : Reply σ}
    (here : r.point = .leaves reply) : reply.Holds s.monitor := by
  obtain ⟨visits, c, turns, shows⟩ := run.shown
  have found := shows.found r mem
  rw [here] at found
  exact found.2

end Scene

end Monitor

variable {α : Type}

theorem Op.of_sleepsAt_monitor {op : Op α} {place : Nat} (bell : op.sleepsAt = some (.monitor place)) :
    ∃ call, op = .monitor place call ∧ call.asleep = true := by
  cases op with
  | monitor p call =>
      obtain ⟨asleep, same⟩ := Option.ite_none_right_eq_some.mp bell
      obtain rfl := Bell.monitor.inj (Option.some.inj same)
      exact ⟨call, rfl, asleep⟩
  | channel p call | latch p call waiter | backlog p call =>
      cases (Option.ite_none_right_eq_some.mp bell).2
  | submit sub phase =>
      cases phase with
      | send call => cases (Option.ite_none_right_eq_some.mp bell).2
      | _ => cases bell
  | work p i phase =>
      cases phase with
      | receive call => cases (Option.ite_none_right_eq_some.mp bell).2
      | _ => cases bell
  | _ => cases bell

namespace World

variable {w v : World α} {place : Nat} {m : Monitor Int}

/-- The same of a monitor of the program. -/
theorem Reachable.monitor_terminated (h : w.Reachable) (found : w.store.monitors[place]? = some m)
    (up : m.terminated = true) (later : w.Later v) :
    (∃ m', v.store.monitors[place]? = some m' ∧ m'.terminated = true) ∧
      ∀ t ∈ v.threads, t.sleepsAt ≠ some (.monitor place) := by
  obtain ⟨m', found', stays⟩ := later.monitor h found
  refine ⟨⟨m', found', stays up⟩, fun t ht asleep => ?_⟩
  obtain ⟨op, front, bell⟩ := Option.bind_eq_some_iff.mp asleep
  obtain ⟨rest, ops⟩ : ∃ rest, t.ops = op :: rest := List.head?_eq_some_iff.mp front
  obtain ⟨call, rfl, dozing⟩ := Op.of_sleepsAt_monitor bell
  obtain ⟨m'', found'', down⟩ := (h.later later).unflagged place t ht call rest ops dozing
  obtain rfl := Option.some.inj (found'.symm.trans found'')
  exact absurd ((stays up).symm.trans down) nofun

end World

namespace Monitor

/-- No sleeper misses the termination of a monitor. Once the flag is up it stays up, and nobody is
asleep at the monitor or falls asleep there. A single wait reports a termination if and only if the
flag is up when it returns. A termination that its condition declines leaves the monitor and all
other callers as they are. One instruction at a time, what a wait says is true while it still has the
lock, and nobody falls asleep while the flag is up; if there are sleepers left, the one that has the
lock is about to wake them all. And the monitors of the program are no exception. -/
theorem no_sleeper_missed :
    (∀ {σ : Type} {start : Monitor σ} {visits : List (Visit σ)} {c : Crowd σ},
      Crowd.Run start visits c →
        (c.monitor.terminated = true → ∀ {d : Crowd σ}, c.Later d →
          d.monitor.terminated = true ∧ ∀ a ∈ d.callers, a.asleep = false) ∧
        ∀ {visit : Visit σ} {d : Crowd σ} {i : Nat} {a : Caller σ}, c.Step (some visit) d →
          visit.caller = i → c.callers[i]? = some a →
            (∀ {stage : Stage}, a.state = .goes (.wait stage) → Paused c i a stage d) ∧
            ∀ {holds : σ → Except Payload Bool}, a.state = .goes (.terminateIf holds) →
              holds c.monitor.value = .ok false →
                d = { c with
                  callers := c.callers.set i { a with state := .returns (.decided false) } }) ∧
    (∀ {σ : Type} {start : Monitor σ} {s : Scene σ}, Scene.Run start s →
      (s.monitor.terminated = true → s.Dismissed ∧
        ∀ {t : Scene σ}, s.Later t → t.monitor.terminated = true) ∧
      ∀ {r : Runner σ} {reply : Reply σ}, r ∈ s.runners → r.point = .leaves reply →
        reply.Holds s.monitor) ∧
    ∀ {α : Type} {w v : World α} {place : Nat} {m : Monitor Int}, w.Reachable →
      w.store.monitors[place]? = some m → m.terminated = true → w.Later v →
        (∃ m', v.store.monitors[place]? = some m' ∧ m'.terminated = true) ∧
          ∀ t ∈ v.threads, t.sleepsAt ≠ some (.monitor place) :=
  ⟨fun run => ⟨fun up _ later => run.terminated up later, fun step own got =>
    ⟨fun due => step.paused got due own, fun due clear => step.declined got due own clear⟩⟩,
    fun run => ⟨fun up => ⟨run.dismissed up, fun later => later.flag up⟩,
      fun mem here => run.holds mem here⟩,
    fun h found up later => h.monitor_terminated found up later⟩

/-- One caller sleeps, one is about to terminate the monitor if the value is positive, which it is
not, and one is about to terminate it in any case. -/
def dozing : List (Visit Int) × Crowd Int :=
  Crowd.follow [
    .comes (.wait .arriving) rfl, .turns 0 0,
    .comes (.terminateIf fun value => .ok (decide (0 < value))) trivial,
    .comes .terminate trivial] [] { monitor := { value := 0 } }

/-- The monitor has been terminated, and the caller that was asleep is about to return. -/
def roused : List (Visit Int) × Crowd Int :=
  Crowd.follow [.turns 1 0, .turns 2 0] dozing.1 dozing.2

/-- One caller sleeps, and the other, which has raised the flag, has yet to wake it. -/
def raised : Scene Int :=
  Scene.follow [
    .comes (.wait .arriving) rfl, .turns 0 0, .turns 0 0, .turns 0 0,
    .comes .terminate trivial, .turns 1 0, .turns 1 0, .turns 1 0] { monitor := { value := 0 } }

/-- The sleeper has been woken, and is about to return. -/
def released : Scene Int :=
  Scene.follow [.turns 1 0, .turns 1 0, .turns 0 0, .turns 0 0] raised

/-- A step of the program has terminated a monitor. -/
def shut : World Unit :=
  World.follow 40 [.newMonitor "m" 0, .onMonitor "m" .terminate] (.start [])

theorem no_sleeper_missed_of_dozing :
    (∃ visit d, dozing.2.Step (some visit) d ∧ visit.caller = 1 ∧
      d.monitor = dozing.2.monitor ∧ d.callers = dozing.2.callers.set 1
        ⟨.terminateIf (fun value => .ok (decide (0 < value))), .returns (.decided false), 0⟩) ∧
    (∃ visit d, roused.2.Step (some visit) d ∧ visit.caller = 0 ∧
      Paused roused.2 0 ⟨.wait .arriving, .goes (.wait .woken), 1⟩ .woken d) ∧
    (∀ a ∈ roused.2.callers, a.asleep = false) ∧
    (raised.runners.map Runner.asleep = [true, false] ∧ raised.Dismissed) ∧
    (Reply.waited .terminated (0 : Int)).Holds released.monitor ∧
    ∀ t ∈ shut.threads, t.sleepsAt ≠ some (.monitor 0) := by
  have run : Crowd.Run (⟨0, false⟩ : Monitor Int) dozing.1 dozing.2 := Crowd.Run.start.follow _
  have next : Crowd.Run (⟨0, false⟩ : Monitor Int) roused.1 roused.2 := run.follow _
  have raises : Scene.Run (⟨0, false⟩ : Monitor Int) raised := Scene.Run.start.follow _
  have releases : Scene.Run (⟨0, false⟩ : Monitor Int) released := raises.follow _
  have reachable : shut.Reachable := World.reachable_follow 40 _ (.start [])
  have declines : ∃ visit d, dozing.2.Step (some visit) d ∧ visit.caller = 1 :=
    ⟨_, _, .turns (i := 1) 0 rfl rfl rfl, rfl⟩
  have returns : ∃ visit d, roused.2.Step (some visit) d ∧ visit.caller = 0 :=
    ⟨_, _, .turns (i := 0) 0 rfl rfl rfl, rfl⟩
  obtain ⟨visit, d, step, own⟩ := declines
  obtain ⟨visit', d', step', own'⟩ := returns
  obtain rfl := ((no_sleeper_missed.1 run).2 step own rfl).2 rfl rfl
  refine ⟨⟨visit, _, step, own, rfl, rfl⟩,
    ⟨visit', d', step', own', ((no_sleeper_missed.1 next).2 step' own' rfl).1 rfl⟩, ?_, ?_, ?_, ?_⟩
  · exact ((no_sleeper_missed.1 next).1 rfl .refl).2
  · exact ⟨rfl, ((no_sleeper_missed.2.1 raises).1 rfl).1⟩
  · have here : ∃ r, released.runners[0]? = some r ∧ r.point = .leaves (.waited .terminated 0) :=
      ⟨_, rfl, rfl⟩
    obtain ⟨r, got, leaves⟩ := here
    exact (no_sleeper_missed.2.1 releases).2 (List.mem_of_getElem? got) leaves
  · exact (no_sleeper_missed.2.2 reachable rfl rfl .refl).2

end Monitor

end WorkerPool
