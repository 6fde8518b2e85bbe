import WorkerPool.Proofs.Monitors

/-! A monitor and the calls on it. Any number of callers call the monitor, and whoever is not asleep
may take the next turn, in any order; a sleeper may also get up without having been woken, and a
signal may go to any of them or be lost. Nothing but a turn changes the monitor, so the turns hand it
on from one to the next. A turn that raises the flag wakes all sleepers, and nobody falls asleep while
the flag is up; so once the flag has been raised there is no sleeper, and there never will be one
again. The value behind the lock may be of any type. -/

namespace WorkerPool

namespace Monitor

/-- A caller: what it asked for, what has become of that, and how often it has been woken. -/
structure Caller (σ : Type) where
  asked : Call σ
  state : Next (Call σ) (Reply σ)
  wakes : Nat := 0

/-- A monitor and everybody who has called it. -/
structure Crowd (σ : Type) where
  monitor : Monitor σ
  callers : List (Caller σ) := []

/-- A turn of one caller: the call that took it, and the monitor as the turn found it and left it. -/
structure Visit (σ : Type) where
  caller : Nat
  call : Call σ
  found : Monitor σ
  left : Monitor σ

variable {σ : Type}

/-- A sleeper has no turn. -/
theorem Call.awake_of_turn {m : Monitor σ} {call : Call σ} {turned : Turned σ (Call σ) (Reply σ)}
    (turn : call.turn m = some turned) : call.asleep = false := by
  cases call with
  | wait stage | waitWhile holds stage =>
      cases stage with
      | asleep => cases turn
      | arriving | woken => rfl
  | _ => rfl

theorem Call.asleep_wake (call : Call σ) : call.wake.asleep = false := by
  cases call with
  | wait stage | waitWhile holds stage => cases stage <;> rfl
  | _ => rfl

theorem Call.wake_of_awake {call : Call σ} (awake : call.asleep = false) : call.wake = call := by
  cases call with
  | wait stage | waitWhile holds stage =>
      cases stage with
      | asleep => cases awake
      | arriving | woken => rfl
  | _ => rfl

namespace Caller

/-- A caller that begins a call. -/
def new (call : Call σ) : Caller σ where
  asked := call
  state := .goes call

def asleep (a : Caller σ) : Bool :=
  match a.state with
  | .goes call => call.asleep
  | .returns _ => false

/-- Only who is asleep can be woken. -/
def wake (a : Caller σ) : Caller σ :=
  match a.state with
  | .goes call =>
    if call.asleep then { a with state := .goes call.wake, wakes := a.wakes + 1 } else a
  | .returns _ => a

/-- The number of turns that the caller may take before it sleeps or has returned. -/
def due (a : Caller σ) : Nat :=
  match a.state with
  | .goes call => if call.asleep then 0 else 1
  | .returns _ => 0

/-- The caller has returned from a wait for a condition with the value that it got. -/
def passed (a : Caller σ) : Bool :=
  match a.state with
  | .returns (.passed _) => true
  | _ => false

theorem wake_of_asleep (asked : Call σ) {call : Call σ} (wakes : Nat) (asleep : call.asleep = true) :
    wake ⟨asked, .goes call, wakes⟩ = ⟨asked, .goes call.wake, wakes + 1⟩ :=
  if_pos asleep

theorem wake_of_goes (asked : Call σ) {call : Call σ} (wakes : Nat) (awake : call.asleep = false) :
    wake ⟨asked, .goes call, wakes⟩ = ⟨asked, .goes call, wakes⟩ :=
  if_neg (ne_true_of_eq_false awake)

theorem wake_of_awake {a : Caller σ} (awake : a.asleep = false) : a.wake = a := by
  obtain ⟨asked, state, wakes⟩ := a
  cases state with
  | returns reply => rfl
  | goes call => exact wake_of_goes asked wakes awake

/-- A wake is a turn more to take. -/
theorem due_wake (a : Caller σ) : a.wake.due + a.wakes = a.due + a.wake.wakes := by
  obtain ⟨asked, state, wakes⟩ := a
  cases state with
  | returns reply => rfl
  | goes call =>
      cases asleep : call.asleep with
      | false => rw [wake_of_goes asked wakes asleep]
      | true =>
          rw [wake_of_asleep asked wakes asleep]
          simp only [due, asleep, Call.asleep_wake, if_true, Bool.false_eq_true, if_false]
          omega

@[simp] theorem asked_wake (a : Caller σ) : a.wake.asked = a.asked := by
  unfold Caller.wake
  split
  · split <;> rfl
  · rfl

theorem asleep_wake (a : Caller σ) : a.wake.asleep = false := by
  cases asleep : a.asleep with
  | false => rw [wake_of_awake asleep, asleep]
  | true =>
      obtain ⟨asked, state, wakes⟩ := a
      cases state with
      | returns reply => cases asleep
      | goes call =>
          rw [wake_of_asleep asked wakes asleep]
          exact Call.asleep_wake call

end Caller

/-! ### Waking -/

section

variable {β γ : Type} (up : β → β) (wake : Wake) (pick : Nat)

/-- Those who may be asleep at an object after some have been woken. Of them all, `pick` says which
one a signal goes to. -/
def rouse (xs : List β) : List β :=
  match wake with
  | .nobody => xs
  | .one => xs.modify pick up
  | .everyone => xs.map up

theorem getElem?_rouse {i : Nat} {xs : List β} {x : β} (got : xs[i]? = some x) :
    (rouse up wake pick xs)[i]? = some x ∨ (rouse up wake pick xs)[i]? = some (up x) := by
  cases wake with
  | nobody => exact .inl got
  | everyone => exact .inr (by rw [rouse, List.getElem?_map, got]; rfl)
  | one =>
      rw [rouse, List.getElem?_modify, got]
      split
      · exact .inr rfl
      · exact .inl rfl

theorem length_rouse (xs : List β) : (rouse up wake pick xs).length = xs.length := by
  cases wake with
  | nobody => rfl
  | one => exact List.length_modify ..
  | everyone => exact List.length_map ..

variable {up wake pick}

theorem getElem?_of_rouse {i : Nat} {xs : List β} {x : β} (got : (rouse up wake pick xs)[i]? = some x) :
    ∃ y, xs[i]? = some y ∧ (x = y ∨ x = up y) := by
  obtain ⟨inside, -⟩ := List.getElem?_eq_some_iff.mp got
  rw [length_rouse] at inside
  have was := List.getElem?_eq_getElem inside
  refine ⟨_, was, ?_⟩
  rcases getElem?_rouse up wake pick was with same | woken
  · exact .inl (Option.some.inj (got.symm.trans same))
  · exact .inr (Option.some.inj (got.symm.trans woken))

theorem map_rouse {up' : γ → γ} {g : β → γ} {xs : List β} (h : ∀ x ∈ xs, g (up x) = up' (g x)) :
    (rouse up wake pick xs).map g = rouse up' wake pick (xs.map g) := by
  cases wake with
  | nobody => rfl
  | everyone =>
      simp only [rouse, List.map_map]
      exact List.map_congr_left h
  | one =>
      apply List.ext_getElem?
      intro i
      simp only [rouse, List.getElem?_map, List.getElem?_modify]
      cases got : xs[i]? with
      | none => rfl
      | some x =>
          by_cases here : pick = i
          · simp [here, h x (List.mem_of_getElem? got)]
          · simp [here]

end

namespace Crowd

/-- What can happen: a new caller comes, a caller takes a turn, or one gets up by itself. -/
inductive Step (c : Crowd σ) : Option (Visit σ) → Crowd σ → Prop
  | comes (call : Call σ) (fresh : call.Fresh) :
      Step c none { c with callers := c.callers ++ [.new call] }
  | turns {i : Nat} {a : Caller σ} {call : Call σ} {turned : Turned σ (Call σ) (Reply σ)}
      (pick : Nat) (got : c.callers[i]? = some a) (due : a.state = .goes call)
      (turn : call.turn c.monitor = some turned) :
      Step c (some ⟨i, call, c.monitor, turned.object⟩)
        ⟨turned.object,
          rouse Caller.wake turned.wake pick (c.callers.set i { a with state := turned.next })⟩
  | stirs (i : Nat) : Step c none { c with callers := c.callers.modify i Caller.wake }

/-- What can come of a monitor that nobody has called yet, with all turns in order. -/
inductive Run (start : Monitor σ) : List (Visit σ) → Crowd σ → Prop
  | start : Run start [] { monitor := start }
  | next {visits : List (Visit σ)} {c d : Crowd σ} {visit : Option (Visit σ)}
      (run : Run start visits c) (step : c.Step visit d) : Run start (visits ++ visit.toList) d

/-- What can come of the crowd `c` after any number of steps. -/
inductive Later (c : Crowd σ) : Crowd σ → Prop
  | refl : Later c c
  | next {d e : Crowd σ} {visit : Option (Visit σ)} (later : Later c d) (step : d.Step visit e) :
      Later c e

variable {start : Monitor σ} {visits : List (Visit σ)} {visit : Option (Visit σ)} {c d : Crowd σ}

theorem Run.later (run : Run start visits c) (later : c.Later d) :
    ∃ visits', Run start visits' d := by
  induction later with
  | refl => exact ⟨visits, run⟩
  | next later step ih =>
      obtain ⟨visits', run'⟩ := ih
      exact ⟨_, run'.next step⟩

/-! ### Schedules -/

/-- One choice of a scheduler. -/
inductive Move (σ : Type)
  | comes (call : Call σ) (fresh : call.Fresh)
  | turns (i : Nat) (pick : Nat)
  | stirs (i : Nat)

/-- What comes of a choice, if it is possible. -/
def after (c : Crowd σ) : Move σ → Option (Option (Visit σ) × Crowd σ)
  | .comes call _ => some (none, { c with callers := c.callers ++ [.new call] })
  | .stirs i => some (none, { c with callers := c.callers.modify i Caller.wake })
  | .turns i pick => c.callers[i]?.bind fun a =>
    match a.state with
    | .returns _ => none
    | .goes call => (call.turn c.monitor).map fun turned =>
      (some ⟨i, call, c.monitor, turned.object⟩,
        ⟨turned.object,
          rouse Caller.wake turned.wake pick (c.callers.set i { a with state := turned.next })⟩)

theorem step_of_after {move : Move σ} (h : c.after move = some (visit, d)) : c.Step visit d := by
  cases move with
  | comes call fresh =>
      obtain ⟨rfl, rfl⟩ := Prod.mk.inj (Option.some.inj h)
      exact .comes call fresh
  | stirs i =>
      obtain ⟨rfl, rfl⟩ := Prod.mk.inj (Option.some.inj h)
      exact .stirs i
  | turns i pick =>
      obtain ⟨a, got, h⟩ := Option.bind_eq_some_iff.mp h
      cases due : a.state with
      | returns reply =>
          rw [due] at h
          cases h
      | goes call =>
          rw [due] at h
          obtain ⟨turned, turn, same⟩ := Option.map_eq_some_iff.mp h
          obtain ⟨rfl, rfl⟩ := Prod.mk.inj same
          exact .turns pick got due turn

/-- The turns of a schedule and where it ends. What is not possible is left out. -/
def follow (moves : List (Move σ)) (visits : List (Visit σ)) (c : Crowd σ) :
    List (Visit σ) × Crowd σ :=
  match moves with
  | [] => (visits, c)
  | move :: moves =>
    match c.after move with
    | some (visit, d) => follow moves (visits ++ visit.toList) d
    | none => follow moves visits c

theorem Run.follow (run : Run start visits c) (moves : List (Move σ)) :
    Run start (Crowd.follow moves visits c).1 (Crowd.follow moves visits c).2 := by
  induction moves generalizing visits c with
  | nil => exact run
  | cons move moves ih =>
      unfold Crowd.follow
      split
      · rename_i visit d h
        exact ih (run.next (step_of_after h))
      · exact ih run

/-! ### The monitor is handed on -/

theorem Step.handed (step : c.Step visit d) :
    visit.toList.map (·.found) ++ [d.monitor] = c.monitor :: visit.toList.map (·.left) := by
  cases step <;> rfl

/-- Every turn finds the monitor as the turn before it has left it, and the last one leaves it as it
is now. -/
theorem Run.handed (run : Run start visits c) :
    visits.map (·.found) ++ [c.monitor] = start :: visits.map (·.left) := by
  induction run with
  | start => rfl
  | @next visits c d visit run step ih =>
      rw [List.map_append, List.map_append, List.append_assoc, step.handed, List.append_cons, ih,
        List.cons_append]

/-! ### The callers -/

/-- Nobody leaves the crowd. -/
theorem Step.length_le (step : c.Step visit d) : c.callers.length ≤ d.callers.length := by
  cases step with
  | comes => simp
  | turns pick => rw [length_rouse, List.length_set]
  | stirs i => rw [List.length_modify]

/-- A caller after a step: it is new, it has taken the turn, or it has been woken at most. -/
inductive Moved (c : Crowd σ) (visit : Option (Visit σ)) (d : Crowd σ) (i : Nat)
    (after : Caller σ) : Prop
  | came (new : i = c.callers.length) (call : Call σ) (fresh : call.Fresh)
      (calls : after = .new call) (quiet : visit = none)
  | turned {before : Caller σ} {call : Call σ} {turned : Turned σ (Call σ) (Reply σ)}
      (was : c.callers[i]? = some before) (due : before.state = .goes call)
      (turn : call.turn c.monitor = some turned) (left : d.monitor = turned.object)
      (took : visit = some ⟨i, call, c.monitor, turned.object⟩)
      (now : after = { before with state := turned.next } ∨
        after = Caller.wake { before with state := turned.next })
  | waited {before : Caller σ} (was : c.callers[i]? = some before)
      (apart : ∀ v ∈ visit, v.caller ≠ i) (now : after = before ∨ after = before.wake)

theorem Step.moved (step : c.Step visit d) {i : Nat} {after : Caller σ}
    (got : d.callers[i]? = some after) : Moved c visit d i after := by
  cases step with
  | comes call fresh =>
      rcases Nat.lt_or_ge i c.callers.length with old | new
      · rw [List.getElem?_append_left old] at got
        exact .waited got nofun (.inl rfl)
      · rw [List.getElem?_append_right new] at got
        obtain ⟨here, rfl⟩ := List.getElem?_eq_some_iff.mp got
        rw [List.length_singleton] at here
        exact .came (by omega) call fresh (by simp) rfl
  | stirs j =>
      rw [List.getElem?_modify] at got
      obtain ⟨before, was, rfl⟩ := Option.map_eq_some_iff.mp got
      refine .waited was nofun ?_
      split
      · exact .inr rfl
      · exact .inl rfl
  | @turns j a call turned pick was due turn =>
      obtain ⟨before, there, now⟩ := getElem?_of_rouse got
      by_cases self : j = i
      · subst self
        rw [List.getElem?_set_self (List.getElem?_eq_some_iff.mp was).1] at there
        obtain rfl := Option.some.inj there
        exact .turned was due turn rfl rfl now
      · rw [List.getElem?_set_ne self] at there
        exact .waited there (by simpa using self) now

/-- The caller at a place stays the one who asked. -/
theorem Moved.asked {i : Nat} {after : Caller σ} (moved : Moved c visit d i after)
    {before : Caller σ} (was : c.callers[i]? = some before) : after.asked = before.asked := by
  cases moved with
  | came new =>
      have := (List.getElem?_eq_some_iff.mp was).1
      omega
  | turned was' due turn left took now =>
      obtain rfl := Option.some.inj (was.symm.trans was')
      rcases now with rfl | rfl
      · rfl
      · exact Caller.asked_wake _
  | waited was' apart now =>
      obtain rfl := Option.some.inj (was.symm.trans was')
      rcases now with rfl | rfl
      · rfl
      · exact Caller.asked_wake _

/-! ### The flag and the sleepers -/

theorem Step.flag (step : c.Step visit d) (up : c.monitor.terminated = true) :
    d.monitor.terminated = true := by
  cases step with
  | comes => exact up
  | stirs => exact up
  | turns pick got due turn =>
      rcases Call.flag_of_turn turn with same | ⟨raised, -⟩
      · exact same.trans up
      · exact raised

/-- Nobody sleeps before a flag that is up. -/
def Unflagged (c : Crowd σ) : Prop :=
  c.monitor.terminated = true → ∀ a ∈ c.callers, a.asleep = false

theorem Step.unflagged (step : c.Step visit d) (h : c.Unflagged) : d.Unflagged := by
  intro up after mem
  obtain ⟨i, got⟩ := List.getElem?_of_mem mem
  cases step.moved got with
  | came new call fresh calls quiet =>
      subst calls
      exact fresh.awake
  | waited was apart now =>
      rcases now with rfl | rfl
      · cases step with
        | comes => exact h up _ (List.mem_of_getElem? was)
        | stirs => exact h up _ (List.mem_of_getElem? was)
        | @turns j a call turned pick got' due turn =>
            rcases Call.flag_of_turn turn with same | ⟨-, loud⟩
            · exact h (same.symm.trans up) _ (List.mem_of_getElem? was)
            · rw [loud, rouse] at mem
              obtain ⟨sleeper, -, woken⟩ := List.mem_map.mp mem
              rw [← woken]
              exact Caller.asleep_wake sleeper
      · exact Caller.asleep_wake _
  | @turned before call turned was due turn left took now =>
      rcases now with rfl | rfl
      · cases next : turned.next with
        | returns reply => rfl
        | goes sleeper =>
            rw [left, (Call.goes_of_turn turn next).1] at up
            cases up
      · exact Caller.asleep_wake _

theorem Run.unflagged (run : Run start visits c) : c.Unflagged := by
  induction run with
  | start => exact fun _ => nofun
  | next run step ih => exact step.unflagged ih

theorem Later.flag (later : c.Later d) (up : c.monitor.terminated = true) :
    d.monitor.terminated = true := by
  induction later with
  | refl => exact up
  | next later step ih => exact step.flag ih

end Crowd

end Monitor

end WorkerPool
