import WorkerPool.Proofs.Crowd

/-! The calls on a monitor one instruction at a time. The flag is not part of the value that the lock
guards: a waiter reads it before it falls asleep and after it has been woken, a termination raises it
in one instruction and wakes the sleepers in the next, and others act in between. But they cannot have
the lock in between, for a call gives it back only when it leaves or falls asleep. So what a call does
while it has the lock comes to one turn, which it takes with its last instruction but leaving. A
waiter that has found the flag down has the lock until it sleeps, and therefore the flag cannot go up
before; and if somebody sleeps while the flag is up, the one who has raised it has yet to wake them. -/

namespace WorkerPool

namespace Monitor

variable {σ : Type}

/-! ### The code of a call -/

namespace Call

def stage : Call σ → Stage
  | .wait stage | .waitWhile _ stage => stage
  | _ => .arriving

/-- The call as it falls asleep. -/
def fall : Call σ → Call σ
  | .wait _ => .wait .asleep
  | .waitWhile holds _ => .waitWhile holds .asleep
  | call => call

/-- Whom a call wakes that does not need the lock. -/
def rung : Call σ → Wake
  | .signal => .one
  | _ => .everyone

/-- The answer of a wait that finds the flag up before it sleeps. -/
def refusal (m : Monitor σ) : Call σ → Reply σ
  | .wait _ => .waited .terminated m.value
  | _ => .refused

/-- The answer of a termination that has raised the flag. -/
def told : Call σ → Reply σ
  | .terminateIf _ => .decided true
  | _ => .done

end Call

/-- What a call does next: it takes the lock, reads the flag after a wake, checks or changes the
value, reads the flag before it sleeps, falls asleep, is asleep, raises the flag, wakes the sleepers,
or gives the lock back. A signal or a broadcast rings without the lock. -/
inductive Point (σ : Type)
  | locks (call : Call σ)
  | rereads (call : Call σ)
  | checks (call : Call σ)
  | reads (call : Call σ)
  | falls (call : Call σ)
  | sleeps (call : Call σ)
  | raises (call : Call σ)
  | notifies (call : Call σ)
  | leaves (reply : Reply σ)
  | rings (call : Call σ)
  | out (reply : Reply σ)

/-- What an instruction leaves: the monitor, what the call does next, and whom it wakes. -/
structure Acted (σ : Type) where
  monitor : Monitor σ
  point : Point σ
  wake : Wake := .nobody

namespace Point

/-- Where the code of a call begins. -/
def start : Call σ → Point σ
  | .signal => .rings .signal
  | .broadcast => .rings .broadcast
  | call => .locks call

/-- What a call does first when it has the lock. -/
def entered (call : Call σ) : Point σ :=
  if call.stage = .woken then .rereads call
  else match call with
    | .wait _ => .reads call
    | _ => .checks call

/-- One instruction of a call that has the lock. -/
def act (m : Monitor σ) : Point σ → Option (Acted σ)
  | .rereads (.wait _) =>
    some { monitor := m,
           point := .leaves (.waited (if m.terminated then .terminated else .signalled) m.value) }
  | .rereads (.waitWhile holds stage) =>
    some { monitor := m,
           point := if m.terminated then .leaves .refused else .checks (.waitWhile holds stage) }
  | .checks (.update change) =>
    some { monitor := { m with value := change m.value }, point := .leaves .done }
  | .checks (.waitWhile holds stage) =>
    some (match holds m.value with
      | .ok (value, true) =>
        { monitor := { m with value }, point := .reads (.waitWhile holds stage) }
      | .ok (value, false) => { monitor := { m with value }, point := .leaves (.passed value) }
      | .error payload => { monitor := m, point := .leaves (.panicked payload) })
  | .checks .terminate => some { monitor := m, point := .raises .terminate }
  | .checks (.terminateIf holds) =>
    some (match holds m.value with
      | .ok true => { monitor := m, point := .raises (.terminateIf holds) }
      | .ok false => { monitor := m, point := .leaves (.decided false) }
      | .error payload => { monitor := m, point := .leaves (.panicked payload) })
  | .reads call =>
    some { monitor := m,
           point := if m.terminated then .leaves (call.refusal m) else .falls call }
  | .falls call => some { monitor := m, point := .sleeps call.fall }
  | .raises call => some { monitor := m.terminate, point := .notifies call }
  | .notifies call => some { monitor := m, point := .leaves call.told, wake := .everyone }
  | .leaves reply => some { monitor := m, point := .out reply }
  | _ => none

/-- The call has the lock. -/
def inside : Point σ → Bool
  | .locks _ | .sleeps _ | .rings _ | .out _ => false
  | _ => true

/-- What has become of the call so far. -/
def state : Point σ → Next (Call σ) (Reply σ)
  | .locks call | .rereads call | .checks call | .reads call | .falls call | .sleeps call
  | .raises call | .notifies call | .rings call => .goes call
  | .leaves reply | .out reply => .returns reply

end Point

/-- A caller in the middle of its code. -/
structure Runner (σ : Type) where
  asked : Call σ
  point : Point σ
  wakes : Nat := 0

namespace Runner

def new (call : Call σ) : Runner σ where
  asked := call
  point := .start call

/-- A sleeper that is woken needs the lock again. -/
def wake (r : Runner σ) : Runner σ :=
  match r.point with
  | .sleeps call => { r with point := .locks call.wake, wakes := r.wakes + 1 }
  | _ => r

def asleep (r : Runner σ) : Bool :=
  match r.point with
  | .sleeps _ => true
  | _ => false

/-- The caller as it is seen between turns. -/
def caller (r : Runner σ) : Caller σ where
  asked := r.asked
  state := r.point.state
  wakes := r.wakes

end Runner

/-- A monitor, who has its lock, and everybody who has called it. -/
structure Scene (σ : Type) where
  monitor : Monitor σ
  holder : Option Nat := none
  runners : List (Runner σ) := []

namespace Scene

/-- What can happen next: a new caller comes, a caller takes the lock while it is free, one acts that
has it, one rings, or a sleeper gets up by itself. -/
inductive Step (s : Scene σ) : Scene σ → Prop
  | comes (call : Call σ) (fresh : call.Fresh) :
      Step s { s with runners := s.runners ++ [.new call] }
  | locks {i : Nat} {r : Runner σ} {call : Call σ} (got : s.runners[i]? = some r)
      (here : r.point = .locks call) (free : s.holder = none) :
      Step s { s with
        holder := some i, runners := s.runners.set i { r with point := .entered call } }
  | acts {i : Nat} {r : Runner σ} {acted : Acted σ} (pick : Nat) (got : s.runners[i]? = some r)
      (act : r.point.act s.monitor = some acted) :
      Step s ⟨acted.monitor, if acted.point.inside then s.holder else none,
        rouse Runner.wake acted.wake pick (s.runners.set i { r with point := acted.point })⟩
  | rings {i : Nat} {r : Runner σ} {call : Call σ} (pick : Nat) (got : s.runners[i]? = some r)
      (here : r.point = .rings call) :
      Step s { s with
        runners := rouse Runner.wake call.rung pick (s.runners.set i { r with point := .out .done }) }
  | stirs (i : Nat) : Step s { s with runners := s.runners.modify i Runner.wake }

/-- What can come of a monitor that nobody has called yet. -/
inductive Run (start : Monitor σ) : Scene σ → Prop
  | start : Run start { monitor := start }
  | next {s t : Scene σ} (run : Run start s) (step : s.Step t) : Run start t

/-- What can come of the scene `s` after any number of steps. -/
inductive Later (s : Scene σ) : Scene σ → Prop
  | refl : Later s s
  | next {t u : Scene σ} (later : Later s t) (step : t.Step u) : Later s u

/-! ### Schedules -/

variable {start : Monitor σ} {s t : Scene σ}

/-- What comes of a choice, if it is possible. Who takes a turn does one instruction. -/
def after (s : Scene σ) : Crowd.Move σ → Option (Scene σ)
  | .comes call _ => some { s with runners := s.runners ++ [.new call] }
  | .stirs i => some { s with runners := s.runners.modify i Runner.wake }
  | .turns i pick => s.runners[i]?.bind fun r =>
    match r.point with
    | .locks call =>
      if s.holder = none then
        some { s with
          holder := some i, runners := s.runners.set i { r with point := .entered call } }
      else none
    | .rings call =>
      some { s with
        runners := rouse Runner.wake call.rung pick (s.runners.set i { r with point := .out .done }) }
    | p => (p.act s.monitor).map fun acted =>
      ⟨acted.monitor, if acted.point.inside then s.holder else none,
        rouse Runner.wake acted.wake pick (s.runners.set i { r with point := acted.point })⟩

theorem step_of_after {move : Crowd.Move σ} (h : s.after move = some t) : s.Step t := by
  cases move with
  | comes call fresh =>
      obtain rfl := Option.some.inj h
      exact .comes call fresh
  | stirs i =>
      obtain rfl := Option.some.inj h
      exact .stirs i
  | turns i pick =>
      obtain ⟨r, got, h⟩ := Option.bind_eq_some_iff.mp h
      split at h
      · rename_i call here
        obtain ⟨free, same⟩ := Option.ite_none_right_eq_some.mp h
        obtain rfl := Option.some.inj same
        exact .locks got here free
      · rename_i call here
        obtain rfl := Option.some.inj h
        exact .rings pick got here
      · obtain ⟨acted, act, rfl⟩ := Option.map_eq_some_iff.mp h
        exact .acts pick got act

/-- Where a schedule ends. What is not possible is left out. -/
def follow (moves : List (Crowd.Move σ)) (s : Scene σ) : Scene σ :=
  moves.foldl (fun s move => (s.after move).getD s) s

theorem Run.follow (run : Run start s) (moves : List (Crowd.Move σ)) :
    Run start (Scene.follow moves s) := by
  induction moves generalizing s with
  | nil => exact run
  | cons move moves ih =>
      have next : Run start ((s.after move).getD s) := by
        cases h : s.after move with
        | none => exact run
        | some t => exact run.next (step_of_after h)
      exact ih next

end Scene

/-! ### What holds of a call at each point -/

/-- What an answer says is true of the monitor. -/
def Reply.Holds (m : Monitor σ) : Reply σ → Prop
  | .waited outcome value => (outcome = .terminated ↔ m.terminated = true) ∧ value = m.value
  | .passed value => value = m.value
  | .refused => m.terminated = true
  | .decided terminated => terminated = true → m.terminated = true
  | .done | .panicked _ => True

/-- How far the turn of a call has come that found the monitor as `before`, when it is `now`. -/
def Point.Found (before now : Monitor σ) : Point σ → Prop
  | .locks call => call.stage ≠ .asleep
  | .rereads call => now = before ∧ call.stage = .woken
  | .checks call => now = before ∧ before.dismisses call.stage = some false
  | .reads call => now.terminated = before.terminated ∧ call.turn before =
      some (if now.terminated then ⟨now, .returns (call.refusal now), .nobody⟩
        else ⟨now, .goes call.fall, .nobody⟩)
  | .falls call => now.terminated = false ∧ call.turn before = some ⟨now, .goes call.fall, .nobody⟩
  | .sleeps call => call.asleep = true
  | .raises call =>
    now = before ∧ call.turn before = some ⟨now.terminate, .returns call.told, .everyone⟩
  | .notifies call =>
    now.terminated = true ∧ call.turn before = some ⟨now, .returns call.told, .everyone⟩
  | .leaves reply => now = before ∧ reply.Holds now
  | .rings call => ∀ m, call.turn m = some ⟨m, .returns .done, call.rung⟩
  | .out _ => True

/-- The turn of a waiter that is not dismissed. -/
theorem Call.turn_of_admitted {m : Monitor σ} {holds : σ → Except Payload (σ × Bool)} {stage : Stage}
    (admitted : m.dismisses stage = some false) :
    (Call.waitWhile holds stage).turn m = some (match holds m.value with
      | .ok (value, true) =>
        if m.terminated then ⟨{ m with value }, .returns .refused, .nobody⟩
        else ⟨{ m with value }, .goes (.waitWhile holds .asleep), .nobody⟩
      | .ok (value, false) => ⟨{ m with value }, .returns (.passed value), .nobody⟩
      | .error payload => ⟨m, .returns (.panicked payload), .nobody⟩) := by
  rw [Call.turn, look, admitted]
  cases holds m.value with
  | error payload => rfl
  | ok pair =>
      obtain ⟨value, stays⟩ := pair
      cases stays with
      | false => rfl
      | true => cases up : m.terminated <;> simp [Except.map, verdict, up]

namespace Point

variable {p : Point σ} {before now before' now' : Monitor σ} {acted : Acted σ} {call : Call σ}

/-- The others have not done anything yet with a monitor that they do not have the lock of. -/
theorem Found.outside (found : p.Found before now) (out : p.inside = false) :
    p.Found before' now' := by
  cases p with
  | locks | sleeps | rings | out => exact found
  | rereads | checks | reads | falls | raises | notifies | leaves => cases out

theorem inside_start (call : Call σ) : (start call).inside = false := by
  cases call <;> rfl

theorem state_start (call : Call σ) : (start call).state = .goes call := by
  cases call <;> rfl

theorem found_start (fresh : call.Fresh) : (start call).Found before now := by
  cases call with
  | wait stage | waitWhile holds stage =>
      obtain rfl : stage = .arriving := fresh
      exact nofun
  | signal | broadcast => exact fun _ => rfl
  | update | terminate | terminateIf => exact nofun

theorem inside_entered (call : Call σ) : (entered call).inside = true := by
  unfold entered
  split
  · rfl
  · split <;> rfl

theorem state_entered (call : Call σ) : (entered call).state = .goes call := by
  unfold entered
  split
  · rfl
  · split <;> rfl

theorem found_entered (m : Monitor σ) (awake : call.stage ≠ .asleep) :
    (entered call).Found m m := by
  cases call with
  | wait stage =>
      cases stage with
      | arriving => exact ⟨rfl, rfl⟩
      | asleep => exact absurd rfl awake
      | woken => exact ⟨rfl, rfl⟩
  | waitWhile holds stage =>
      cases stage with
      | arriving => exact ⟨rfl, rfl⟩
      | asleep => exact absurd rfl awake
      | woken => exact ⟨rfl, rfl⟩
  | update | terminate | terminateIf | signal | broadcast => exact ⟨rfl, rfl⟩

/-- What one instruction under the lock comes to: the turn is not over, it is taken with this
instruction, or it was taken before and the call gives the lock back. -/
inductive Progress (before : Monitor σ) (p : Point σ) (acted : Acted σ) : Prop
  | goesOn (inside : acted.point.inside = true) (quiet : acted.wake = .nobody)
      (same : acted.point.state = p.state) (found : acted.point.Found before acted.monitor)
  | commits {call : Call σ} (due : p.state = .goes call)
      (turn : call.turn before = some ⟨acted.monitor, acted.point.state, acted.wake⟩)
      (found : acted.point.Found acted.monitor acted.monitor)
  | leaves (reply : Reply σ) (here : p = .leaves reply)
      (gone : acted = { monitor := before, point := .out reply })

theorem progress_rereads (found : (rereads call).Found before now)
    (act : (rereads call).act now = some acted) : Progress before (.rereads call) acted := by
  obtain ⟨rfl, woken⟩ := found
  cases call with
  | wait stage =>
      obtain rfl : stage = .woken := woken
      obtain rfl := Option.some.inj act
      refine .commits rfl rfl ⟨rfl, ?_, rfl⟩
      cases now.terminated <;> simp
  | waitWhile holds stage =>
      obtain rfl : stage = .woken := woken
      obtain rfl := Option.some.inj act
      cases up : now.terminated with
      | true =>
          refine .commits rfl ?_ ⟨rfl, up⟩
          simp [Call.turn, look, dismisses, up, state]
      | false => exact .goesOn rfl rfl rfl ⟨rfl, congrArg some up⟩
  | update | signal | broadcast | terminate | terminateIf => cases act

theorem progress_checks (found : (checks call).Found before now)
    (act : (checks call).act now = some acted) : Progress before (.checks call) acted := by
  obtain ⟨rfl, admitted⟩ := found
  cases call with
  | update change =>
      obtain rfl := Option.some.inj act
      exact .commits rfl rfl ⟨rfl, trivial⟩
  | waitWhile holds stage =>
      obtain rfl := Option.some.inj act
      have turn : (Call.waitWhile holds stage).turn now = _ := Call.turn_of_admitted admitted
      cases judged : holds now.value with
      | error payload =>
          rw [judged] at turn
          exact .commits rfl turn ⟨rfl, trivial⟩
      | ok pair =>
          obtain ⟨value, stays⟩ := pair
          rw [judged] at turn
          cases stays with
          | false => exact .commits rfl turn ⟨rfl, rfl⟩
          | true => exact .goesOn rfl rfl rfl ⟨rfl, turn⟩
  | terminate =>
      obtain rfl := Option.some.inj act
      exact .goesOn rfl rfl rfl ⟨rfl, rfl⟩
  | terminateIf holds =>
      obtain rfl := Option.some.inj act
      cases judged : holds now.value with
      | error payload =>
          refine .commits rfl ?_ ⟨rfl, trivial⟩
          simp only [Call.turn, judged]
          rfl
      | ok decided =>
          cases decided with
          | false =>
              refine .commits rfl ?_ ⟨rfl, fun claimed => absurd claimed Bool.false_ne_true⟩
              simp only [Call.turn, judged]
              rfl
          | true =>
              refine .goesOn rfl rfl rfl ⟨rfl, ?_⟩
              simp only [Call.turn, judged]
              rfl
  | wait | signal | broadcast => cases act

theorem progress_reads (found : (reads call).Found before now)
    (act : (reads call).act now = some acted) : Progress before (.reads call) acted := by
  obtain ⟨same, turn⟩ := found
  obtain rfl := Option.some.inj act
  cases up : now.terminated with
  | true =>
      rw [up, if_pos rfl] at turn
      refine .commits rfl turn ⟨rfl, ?_⟩
      cases call with
      | wait => exact ⟨iff_of_true rfl up, rfl⟩
      | _ => exact up
  | false =>
      rw [up, if_neg nofun] at turn
      exact .goesOn rfl rfl rfl ⟨up, turn⟩

/-- Of whatever holds the lock. -/
theorem Found.progress (found : p.Found before now) (act : p.act now = some acted) :
    Progress before p acted := by
  cases p with
  | rereads call => exact progress_rereads found act
  | checks call => exact progress_checks found act
  | reads call => exact progress_reads found act
  | falls call =>
      obtain rfl := Option.some.inj act
      exact .commits rfl found.2 (Call.goes_of_turn found.2 rfl).2.1
  | raises call =>
      obtain rfl := Option.some.inj act
      exact .goesOn rfl rfl rfl ⟨rfl, found.2⟩
  | notifies call =>
      obtain rfl := Option.some.inj act
      refine .commits rfl found.2 ⟨rfl, ?_⟩
      cases call with
      | terminateIf holds => exact fun _ => found.1
      | _ => trivial
  | leaves reply =>
      obtain rfl := Option.some.inj act
      exact .leaves reply rfl (by rw [found.1])
  | locks | sleeps | rings | out => cases act

end Point

/-! ### Waking -/

theorem Call.asleep_eq (call : Call σ) : call.asleep = (call.stage == .asleep) := by
  cases call <;> rfl

theorem Call.stage_ne_asleep {call : Call σ} : call.stage ≠ .asleep ↔ call.asleep = false := by
  rw [asleep_eq, beq_eq_false_iff_ne]

/-- Whoever is not at the point where it sleeps is awake. -/
theorem Point.Found.awake {p : Point σ} {before now : Monitor σ} (found : p.Found before now)
    (up : ∀ call, p ≠ .sleeps call) {call : Call σ} (due : p.state = .goes call) :
    call.asleep = false := by
  cases p with
  | sleeps => exact absurd rfl (up _)
  | leaves | out => cases due
  | locks =>
      cases due
      exact Call.stage_ne_asleep.mp found
  | rereads =>
      cases due
      exact Call.stage_ne_asleep.mp (by rw [found.2]; nofun)
  | checks =>
      cases due
      refine Call.stage_ne_asleep.mp fun asleep => ?_
      have admitted := found.2
      rw [asleep] at admitted
      cases admitted
  | reads | falls | raises | notifies =>
      cases due
      exact Call.awake_of_turn found.2
  | rings =>
      cases due
      exact Call.awake_of_turn (found now)

namespace Runner

variable {r : Runner σ} {before now : Monitor σ}

theorem inside_wake (r : Runner σ) : r.wake.point.inside = r.point.inside := by
  obtain ⟨asked, p, wakes⟩ := r
  cases p <;> rfl

theorem found_wake (found : r.point.Found before now) : r.wake.point.Found before now := by
  obtain ⟨asked, p, wakes⟩ := r
  cases p with
  | sleeps call => exact Call.stage_ne_asleep.mpr (Call.asleep_wake call)
  | _ => exact found

theorem caller_wake (found : r.point.Found before now) : r.wake.caller = r.caller.wake := by
  obtain ⟨asked, p, wakes⟩ := r
  have awake : (∀ call, p ≠ .sleeps call) → (caller ⟨asked, p, wakes⟩).asleep = false := by
    intro up
    cases due : p.state with
    | returns reply => simp [Caller.asleep, caller, due]
    | goes call => simp [Caller.asleep, caller, due, found.awake up due]
  cases p with
  | sleeps call => exact (Caller.wake_of_asleep asked wakes found).symm
  | _ => exact (Caller.wake_of_awake (awake nofun)).symm

theorem asleep_wake (r : Runner σ) : r.wake.asleep = false := by
  obtain ⟨asked, p, wakes⟩ := r
  cases p <;> rfl

/-- A call that has the lock is not asleep. -/
theorem awake_of_inside (inside : r.point.inside = true) : r.asleep = false := by
  obtain ⟨asked, p, wakes⟩ := r
  cases p with
  | sleeps => cases inside
  | _ => rfl

/-- Whoever is asleep after a wake has slept on. -/
theorem asleep_of_rouse {wake : Wake} {pick i : Nat} {runners : List (Runner σ)}
    (got : (rouse Runner.wake wake pick runners)[i]? = some r) (asleep : r.asleep = true) :
    runners[i]? = some r := by
  obtain ⟨before, was, rfl | rfl⟩ := getElem?_of_rouse got
  · exact was
  · exact absurd asleep (by simp [asleep_wake])

/-- Whoever is asleep after somebody else has moved was asleep before. -/
theorem asleep_of_set {i j : Nat} {runners : List (Runner σ)} {moved : Runner σ}
    (got : (runners.set i moved)[j]? = some r) (asleep : r.asleep = true)
    (awake : moved.asleep = false) : runners[j]? = some r := by
  by_cases same : i = j
  · subst same
    have inside := (List.getElem?_eq_some_iff.mp got).1
    rw [List.length_set] at inside
    rw [List.getElem?_set_self inside] at got
    obtain rfl := Option.some.inj got
    cases awake.symm.trans asleep
  · rwa [List.getElem?_set_ne same] at got

theorem asleep_caller (asleep : r.asleep = true) (found : r.point.Found before now) :
    r.caller.asleep = true := by
  obtain ⟨asked, p, wakes⟩ := r
  cases p with
  | sleeps call => exact found
  | _ => cases asleep

end Runner

namespace Scene

/-! ### Each section comes to a turn -/

/-- The scene is what the crowd is while somebody has the lock: everybody has come as far as the
turns say, but the turn of the one that has the lock may not be over. -/
structure Shows (s : Scene σ) (c : Crowd σ) : Prop where
  callers : c.callers = s.runners.map Runner.caller
  found : ∀ r ∈ s.runners, r.point.Found c.monitor s.monitor
  inside : ∀ i r, s.runners[i]? = some r → r.point.inside = true → s.holder = some i
  held : ∀ i, s.holder = some i → ∃ r, s.runners[i]? = some r ∧ r.point.inside = true
  idle : s.holder = none → c.monitor = s.monitor

variable {s t : Scene σ} {c : Crowd σ} {start : Monitor σ} {i : Nat} {r : Runner σ}

theorem Shows.caller (shows : s.Shows c) (got : s.runners[i]? = some r) :
    c.callers[i]? = some r.caller := by
  rw [shows.callers, List.getElem?_map, got]
  rfl

theorem Shows.rouse (shows : s.Shows c) (wake : Wake) (pick : Nat) :
    Shows { s with runners := Monitor.rouse Runner.wake wake pick s.runners }
      { c with callers := Monitor.rouse Caller.wake wake pick c.callers } where
  callers := by
    rw [shows.callers]
    exact (map_rouse fun r mem => Runner.caller_wake (shows.found r mem)).symm
  found := by
    intro r mem
    obtain ⟨i, got⟩ := List.getElem?_of_mem mem
    obtain ⟨before, was, rfl | rfl⟩ := getElem?_of_rouse got
    · exact shows.found _ (List.mem_of_getElem? was)
    · exact Runner.found_wake (shows.found _ (List.mem_of_getElem? was))
  inside := by
    intro i r got inside
    obtain ⟨before, was, rfl | rfl⟩ := getElem?_of_rouse got
    · exact shows.inside i _ was inside
    · exact shows.inside i _ was (before.inside_wake ▸ inside)
  held := by
    intro i own
    obtain ⟨r, got, inside⟩ := shows.held i own
    rcases getElem?_rouse Runner.wake wake pick got with same | woken
    · exact ⟨r, same, inside⟩
    · exact ⟨r.wake, woken, r.inside_wake.trans inside⟩
  idle := shows.idle

/-- Somebody has moved on to the point `p`. Whoever else has the lock keeps it, and then the monitor
is as it was. -/
theorem Shows.set (shows : s.Shows c) (got : s.runners[i]? = some r) {p : Point σ}
    {before now : Monitor σ} {holder : Option Nat} (found : p.Found before now)
    (self : holder = some i ↔ p.inside = true)
    (others : ∀ j, j ≠ i → (holder = some j ↔ s.holder = some j))
    (kept : ∀ j, j ≠ i → s.holder = some j → before = c.monitor ∧ now = s.monitor)
    (idle : holder = none → before = now) :
    Shows ⟨now, holder, s.runners.set i { r with point := p }⟩
      ⟨before, c.callers.set i { r.caller with state := p.state }⟩ where
  callers := by
    rw [shows.callers, List.map_set]
    rfl
  found := by
    intro q mem
    obtain ⟨j, there⟩ := List.getElem?_of_mem mem
    by_cases same : i = j
    · subst same
      rw [List.getElem?_set_self (List.getElem?_eq_some_iff.mp got).1] at there
      obtain rfl := Option.some.inj there
      exact found
    · rw [List.getElem?_set_ne same] at there
      have was := shows.found q (List.mem_of_getElem? there)
      cases inside : q.point.inside with
      | false => exact was.outside inside
      | true =>
          obtain ⟨rfl, rfl⟩ := kept j (Ne.symm same) (shows.inside j q there inside)
          exact was
  inside := by
    intro j q there inside
    by_cases same : i = j
    · subst same
      rw [List.getElem?_set_self (List.getElem?_eq_some_iff.mp got).1] at there
      obtain rfl := Option.some.inj there
      exact self.mpr inside
    · rw [List.getElem?_set_ne same] at there
      exact (others j (Ne.symm same)).mpr (shows.inside j q there inside)
  held := by
    intro j holds
    by_cases same : i = j
    · subst same
      exact ⟨_, List.getElem?_set_self (List.getElem?_eq_some_iff.mp got).1, self.mp holds⟩
    · rw [List.getElem?_set_ne same]
      exact shows.held j ((others j (Ne.symm same)).mp holds)
  idle := idle

/-- Somebody has moved on while nobody else had the lock. -/
theorem Shows.moves (shows : s.Shows c) (got : s.runners[i]? = some r)
    (alone : ∀ j, s.holder = some j → j = i) {p : Point σ} {before now : Monitor σ}
    (found : p.Found before now) (left : p.inside = false → before = now) :
    Shows ⟨now, if p.inside then some i else none, s.runners.set i { r with point := p }⟩
      ⟨before, c.callers.set i { r.caller with state := p.state }⟩ := by
  refine shows.set got found ?_ ?_ ?_ ?_
  · cases p.inside <;> simp
  · intro j other
    have theirs : s.holder ≠ some j := fun own => other (alone j own)
    cases p.inside <;> simp [theirs, Ne.symm other]
  · exact fun j other own => absurd (alone j own) other
  · intro free
    cases inside : p.inside with
    | false => exact left inside
    | true => simp [inside] at free

/-- A point that says the same of a caller leaves the crowd as it is. -/
theorem Shows.set_caller (shows : s.Shows c) (got : s.runners[i]? = some r) {p : Point σ}
    (same : p.state = r.point.state) : c.callers.set i { r.caller with state := p.state } = c.callers := by
  obtain ⟨inside, here⟩ := List.getElem?_eq_some_iff.mp (shows.caller got)
  rw [same, show ({ r.caller with state := r.point.state } : Caller σ) = c.callers[i] from here.symm]
  exact List.set_getElem_self inside

theorem Shows.comes (shows : s.Shows c) {call : Call σ} (fresh : call.Fresh) :
    Shows { s with runners := s.runners ++ [.new call] } { c with callers := c.callers ++ [.new call] }
    where
  callers := by
    rw [shows.callers, List.map_append]
    simp [Runner.caller, Runner.new, Caller.new, Point.state_start]
  found := by
    intro r mem
    rcases List.mem_append.mp mem with old | new
    · exact shows.found r old
    · rw [List.mem_singleton.mp new]
      exact Point.found_start fresh
  inside := by
    intro i r got inside
    rcases Nat.lt_or_ge i s.runners.length with old | new
    · rw [List.getElem?_append_left old] at got
      exact shows.inside i r got inside
    · rw [List.getElem?_append_right new] at got
      have mem := List.mem_of_getElem? got
      rw [List.mem_singleton.mp mem, Runner.new, Point.inside_start] at inside
      cases inside
  held := by
    intro i holds
    obtain ⟨r, got, inside⟩ := shows.held i holds
    refine ⟨r, ?_, inside⟩
    rw [List.getElem?_append_left (List.getElem?_eq_some_iff.mp got).1, got]
  idle := shows.idle

/-- Only who has the lock acts. -/
theorem Point.inside_of_act {p : Point σ} {m : Monitor σ} {acted : Acted σ}
    (act : p.act m = some acted) : p.inside = true := by
  cases p with
  | locks | sleeps | rings | out => cases act
  | rereads | checks | reads | falls | raises | notifies | leaves => rfl

/-- A signal is a turn, and it needs no lock. -/
theorem Shows.rings (shows : s.Shows c) (got : s.runners[i]? = some r) {call : Call σ}
    (here : r.point = .rings call) (pick : Nat) :
    ∃ visit d, c.Step visit d ∧
      Shows { s with
        runners := Monitor.rouse Runner.wake call.rung pick
          (s.runners.set i { r with point := .out .done }) } d := by
  have rung := shows.found r (List.mem_of_getElem? got)
  rw [here] at rung
  have apart : s.holder ≠ some i := by
    intro own
    obtain ⟨q, there, inside⟩ := shows.held i own
    obtain rfl := Option.some.inj (got.symm.trans there)
    rw [here] at inside
    cases inside
  have due : r.caller.state = .goes call := by rw [Runner.caller, here]; rfl
  have moved : Shows ⟨s.monitor, s.holder, s.runners.set i { r with point := .out .done }⟩
      ⟨c.monitor, c.callers.set i { r.caller with state := .returns .done }⟩ := by
    refine shows.set got (p := .out .done) trivial ?_ ?_ ?_ shows.idle
    · exact iff_of_false apart nofun
    · exact fun j _ => Iff.rfl
    · exact fun j _ _ => ⟨rfl, rfl⟩
  exact ⟨_, _, .turns pick (shows.caller got) due (rung c.monitor), moved.rouse call.rung pick⟩

/-- To take the lock is no turn. -/
theorem Shows.locks (shows : s.Shows c) (got : s.runners[i]? = some r) {call : Call σ}
    (here : r.point = .locks call) (free : s.holder = none) :
    Shows { s with
      holder := some i, runners := s.runners.set i { r with point := .entered call } } c := by
  have awake := shows.found r (List.mem_of_getElem? got)
  rw [here] at awake
  have same : (Point.entered call).state = r.point.state := by
    rw [Point.state_entered, here]
    rfl
  have found : (Point.entered call).Found c.monitor s.monitor := by
    rw [shows.idle free]
    exact Point.found_entered s.monitor awake
  have moved := shows.moves got (by rw [free]; nofun) found fun _ => shows.idle free
  rwa [shows.set_caller got same, Point.inside_entered, if_pos rfl] at moved

/-- Of the instructions under the lock one is the turn. -/
theorem Shows.acts (shows : s.Shows c) (got : s.runners[i]? = some r) {acted : Acted σ}
    (act : r.point.act s.monitor = some acted) (pick : Nat) :
    let t : Scene σ := ⟨acted.monitor, if acted.point.inside then s.holder else none,
      Monitor.rouse Runner.wake acted.wake pick (s.runners.set i { r with point := acted.point })⟩
    t.Shows c ∨ ∃ visit d, c.Step visit d ∧ t.Shows d := by
  intro t
  have own := shows.inside i r got (Point.inside_of_act act)
  have alone : ∀ j, s.holder = some j → j = i := fun j other =>
    Option.some.inj (other.symm.trans own)
  subst t
  rw [own]
  cases (shows.found r (List.mem_of_getElem? got)).progress act with
  | goesOn inside quiet same found =>
      have moved := shows.moves got alone found fun out => absurd inside (by simp [out])
      rw [shows.set_caller got same] at moved
      rw [quiet]
      exact .inl moved
  | commits due turn found =>
      have moved := shows.moves got alone found fun _ => rfl
      exact .inr ⟨_, _, .turns pick (shows.caller got) due turn, moved.rouse acted.wake pick⟩
  | leaves reply here gone =>
      have same : (Point.out reply).state = r.point.state := by rw [here]; rfl
      have found : (Point.out reply).Found c.monitor c.monitor := trivial
      have moved := shows.moves got alone found fun _ => rfl
      rw [shows.set_caller got same] at moved
      subst gone
      exact .inl moved

/-- An instruction is a turn, or there is no turn in it. -/
theorem Step.shown (step : s.Step t) (shows : s.Shows c) :
    t.Shows c ∨ ∃ visit d, c.Step visit d ∧ t.Shows d := by
  cases step with
  | comes call fresh => exact .inr ⟨_, _, .comes call fresh, shows.comes fresh⟩
  | stirs i => exact .inr ⟨_, _, .stirs i, shows.rouse .one i⟩
  | rings pick got here => exact .inr (shows.rings got here pick)
  | locks got here free => exact .inl (shows.locks got here free)
  | acts pick got act => exact shows.acts got act pick

/-- Nobody has come yet. -/
theorem shows_start (m : Monitor σ) : Shows { monitor := m } { monitor := m } where
  callers := rfl
  found := fun r mem => absurd mem List.not_mem_nil
  inside := by
    intro i r got
    cases got
  held := by
    intro i own
    cases own
  idle := fun _ => rfl

theorem Run.shown (run : Run start s) : ∃ visits c, Crowd.Run start visits c ∧ s.Shows c := by
  induction run with
  | start => exact ⟨[], _, .start, shows_start start⟩
  | next run step ih =>
      obtain ⟨visits, c, turns, shows⟩ := ih
      rcases step.shown shows with same | ⟨visit, d, turn, shows'⟩
      · exact ⟨visits, c, turns, same⟩
      · exact ⟨_, d, turns.next turn, shows'⟩

end Scene

end Monitor

end WorkerPool
