import Mathlib.Algebra.BigOperators.Group.List.Basic
import Mathlib.Algebra.Ring.Int.Defs
import Mathlib.Data.List.Nodup
import WorkerPool.Proofs.Attendance
import WorkerPool.Proofs.Sections

/-! A wait whose condition changes the value. The call looks at the value when it comes and once more
after every wake, unless it was woken into a terminated monitor; and a look is one application of the
condition, in one turn. As long as the condition holds, the call goes on waiting. The first look that
finds it false is the last, and the call returns what that look has left; a call that is refused has
only made looks at which the condition held. So if the condition takes a unit off the value when it
is false, the units taken are exactly as many as the calls that have passed, whoever else changes the
value in between. -/

namespace WorkerPool

namespace Monitor

variable {σ : Type} {f : σ → σ × Bool}

/-- A wait for a condition that does not panic. -/
def waiting (f : σ → σ × Bool) (stage : Stage) : Call σ :=
  .waitWhile (fun value => .ok (f value)) stage

/-- The turn is one application of the condition to the value, and nothing else; `stays` is what the
condition says. A call that has been woken makes it only if the flag is down. -/
structure Visit.Checks (f : σ → σ × Bool) (stage : Stage) (stays : Bool) (visit : Visit σ) : Prop where
  call : visit.call = waiting f stage
  asked : stage = .woken → visit.found.terminated = false
  left : visit.left = { visit.found with value := (f visit.found.value).1 }
  judged : (f visit.found.value).2 = stays

/-- The stage of a call at its next turn: it is on its way in before the first one, and woken before
every other. -/
def entry (own : List (Visit σ)) : Stage :=
  if own.isEmpty then .arriving else .woken

/-- The turns of a call that has been held back in all of them: one application on entry and one
after each wake. -/
inductive Held (f : σ → σ × Bool) : List (Visit σ) → Prop
  | none : Held f []
  | again {own : List (Visit σ)} {visit : Visit σ} (held : Held f own)
      (check : visit.Checks f (entry own) true) : Held f (own ++ [visit])

/-- The turns of a call that waits for `f`, and what has become of it with them. -/
inductive Waited (f : σ → σ × Bool) : List (Visit σ) → Next (Call σ) (Reply σ) → Prop
  | waits {own : List (Visit σ)} {stage : Stage} (held : Held f own)
      (here : stage = .arriving ↔ own = []) : Waited f own (.goes (waiting f stage))
  | passed {own : List (Visit σ)} {visit : Visit σ} (held : Held f own)
      (check : visit.Checks f (entry own) false) :
      Waited f (own ++ [visit]) (.returns (.passed visit.left.value))
  | refused {visit : Visit σ} (check : visit.Checks f .arriving true)
      (up : visit.found.terminated = true) : Waited f [visit] (.returns .refused)
  | dismissed {own : List (Visit σ)} {visit : Visit σ} (held : Held f own) (slept : own ≠ [])
      (call : visit.call = waiting f .woken) (kept : visit.left = visit.found)
      (up : visit.found.terminated = true) : Waited f (own ++ [visit]) (.returns .refused)

theorem entry_eq {own : List (Visit σ)} {stage : Stage} (awake : stage ≠ .asleep)
    (here : stage = .arriving ↔ own = []) : entry own = stage := by
  cases own with
  | nil => exact (here.mpr rfl).symm
  | cons visit own =>
      cases stage with
      | arriving => exact absurd (here.mp rfl) (List.cons_ne_nil _ _)
      | asleep => exact absurd rfl awake
      | woken => rfl

/-- One more turn of the call. -/
theorem Waited.turn {own : List (Visit σ)} {call : Call σ} {m : Monitor σ}
    {turned : Turned σ (Call σ) (Reply σ)} (waited : Waited f own (.goes call))
    (turn : call.turn m = some turned) (i : Nat) :
    Waited f (own ++ [⟨i, call, m, turned.object⟩]) turned.next := by
  cases waited with
  | @waits _ stage held here =>
      obtain ⟨outcome, look, rfl⟩ := Option.map_eq_some_iff.mp turn
      have awake : stage ≠ .asleep := by
        rintro rfl
        cases look
      have stageEq := entry_eq awake here
      have flag : ∀ {dismissed : Bool}, m.dismisses stage = some dismissed →
          stage = .woken → m.terminated = dismissed := by
        rintro dismissed due rfl
        exact Option.some.inj due
      rcases look_eq look with ⟨dismissed, rfl⟩ |
        ⟨asked, ⟨payload, raised, rfl⟩ | ⟨value, stays, judged, rfl⟩⟩
      · have woken : stage = .woken := by
          cases stage with
          | woken => rfl
          | arriving | asleep => cases dismissed
        refine .dismissed held (fun none => ?_) (by rw [woken]) rfl (flag dismissed woken)
        cases woken.symm.trans (here.mpr none)
      · cases raised
      · have applied : f m.value = (value, stays) := Except.ok.inj judged
        have check : Visit.Checks f (entry own) stays
            ⟨i, waiting f stage, m, { m with value := value }⟩ := by
          rw [stageEq]
          exact ⟨rfl, flag asked, by rw [applied], by rw [applied]⟩
        cases stays with
        | false => exact .passed held check
        | true =>
            by_cases down : m.terminated = true
            · have refused : m.verdict true = .refused := by simp [verdict, down]
              have arriving : stage = .arriving := by
                cases stage with
                | arriving => rfl
                | asleep => exact absurd rfl awake
                | woken => cases down.symm.trans (flag asked rfl)
              rw [here.mp arriving] at check ⊢
              simp only [refused]
              exact .refused check down
            · have sleeps : m.verdict true = .sleeps := by simp [verdict, down]
              simp only [sleeps]
              exact .waits (.again held check) (by simp)

theorem Waited.wake {own : List (Visit σ)} {a : Caller σ} (waited : Waited f own a.state) :
    Waited f own a.wake.state := by
  cases asleep : a.asleep with
  | false => rwa [Caller.wake_of_awake asleep]
  | true =>
      obtain ⟨asked, state, wakes⟩ := a
      cases waited with
      | @waits _ stage held here =>
          obtain rfl : stage = .asleep := eq_of_beq asleep
          rw [Caller.wake_of_asleep asked wakes rfl]
          refine .waits held ?_
          rw [← here]
          exact ⟨nofun, nofun⟩
      | _ => cases asleep

/-- The turns that a caller has taken, in order. -/
def visitsOf (i : Nat) (visits : List (Visit σ)) : List (Visit σ) :=
  visits.filter (·.caller == i)

namespace Crowd

variable {start : Monitor σ} {visits : List (Visit σ)} {c : Crowd σ}

/-- Only somebody who has come takes turns. -/
theorem Run.caller_lt (run : Run start visits c) : ∀ v ∈ visits, v.caller < c.callers.length := by
  induction run with
  | start => nofun
  | next run step ih =>
      intro v mem
      rcases List.mem_append.mp mem with old | new
      · exact Nat.lt_of_lt_of_le (ih v old) step.length_le
      · cases step with
        | comes => cases new
        | stirs => cases new
        | turns pick got due turn =>
            obtain rfl := List.mem_singleton.mp new
            have inside := (List.getElem?_eq_some_iff.mp got).1
            rwa [length_rouse, List.length_set]

theorem Run.visitsOf_eq_nil (run : Run start visits c) {i : Nat} (new : c.callers.length ≤ i) :
    visitsOf i visits = [] := by
  rw [visitsOf, List.filter_eq_nil_iff]
  intro v mem own
  have := run.caller_lt v mem
  rw [beq_iff_eq] at own
  omega

/-- The turns that a step adds to those of a caller. -/
theorem visitsOf_append {i : Nat} {visits : List (Visit σ)} {visit : Option (Visit σ)}
    (apart : ∀ v ∈ visit, v.caller ≠ i) :
    visitsOf i (visits ++ visit.toList) = visitsOf i visits := by
  have others : visit.toList.filter (·.caller == i) = [] := by
    rw [List.filter_eq_nil_iff]
    intro v mem own
    exact apart v (by simpa using mem) (by simpa using own)
  rw [visitsOf, List.filter_append, others, List.append_nil, visitsOf]

theorem visitsOf_concat (i : Nat) (visits : List (Visit σ)) (call : Call σ)
    (found left : Monitor σ) :
    visitsOf i (visits ++ [⟨i, call, found, left⟩]) =
      visitsOf i visits ++ [⟨i, call, found, left⟩] := by
  simp [visitsOf]

/-- A call has one turn when it comes and one more after each wake. -/
theorem Run.turns_eq (run : Run start visits c) {i : Nat} {a : Caller σ}
    (got : c.callers[i]? = some a) : (visitsOf i visits).length + a.due = a.wakes + 1 := by
  induction run generalizing a with
  | start => cases got
  | @next visits c d visit run step ih =>
      cases step.moved got with
      | came new call fresh calls quiet =>
          subst calls quiet
          rw [Option.toList_none, List.append_nil, run.visitsOf_eq_nil (Nat.le_of_eq new.symm)]
          simp [Caller.due, Caller.new, fresh.awake]
      | @turned before call turned was due turn left took now =>
          have count := ih was
          have one : before.due = 1 := by simp [Caller.due, due, Call.awake_of_turn turn]
          have gone : Caller.due { before with state := turned.next } = 0 := by
            cases next : turned.next with
            | returns reply => rfl
            | goes sleeper => simp [Caller.due, (Call.goes_of_turn turn next).2.1]
          subst took
          rw [Option.toList_some, visitsOf_concat, List.length_append, List.length_singleton]
          rcases now with rfl | rfl
          · rw [gone]
            simp only
            omega
          · have woken := Caller.due_wake { before with state := turned.next }
            rw [gone] at woken
            simp only at woken count
            omega
      | @waited before was apart now =>
          have count := ih was
          rw [visitsOf_append apart]
          rcases now with rfl | rfl
          · exact count
          · have woken := before.due_wake
            omega

/-- What every wait for a condition has done so far. -/
theorem Run.waited (run : Run start visits c) {i : Nat} {a : Caller σ}
    (got : c.callers[i]? = some a) (asked : a.asked = waiting f .arriving) :
    Waited f (visitsOf i visits) a.state := by
  induction run generalizing a with
  | start => cases got
  | @next visits c d visit run step ih =>
      have same : ∀ {before : Caller σ}, c.callers[i]? = some before →
          before.asked = waiting f .arriving :=
        fun was => ((step.moved got).asked was).symm.trans asked
      cases step.moved got with
      | came new call fresh calls quiet =>
          subst calls quiet
          rw [Option.toList_none, List.append_nil, run.visitsOf_eq_nil (Nat.le_of_eq new.symm),
            show call = waiting f .arriving from asked]
          exact .waits .none (by simp)
      | @turned before call turned was due turn left took now =>
          have waited := ih was (same was)
          rw [due] at waited
          have next := waited.turn turn i
          subst took
          rw [Option.toList_some, visitsOf_concat]
          rcases now with rfl | rfl
          · exact next
          · exact Waited.wake (a := { before with state := turned.next }) next
      | @waited before was apart now =>
          have waited := ih was (same was)
          rw [visitsOf_append apart]
          rcases now with rfl | rfl
          · exact waited
          · exact waited.wake

end Crowd

/-! ### Taking units off a number -/

/-- What `take` does to a number. -/
def taking (value : Int) : Int × Bool :=
  if value ≤ 0 then (value, true) else (value - 1, false)

/-- How much a turn adds to the value. -/
def Visit.change (v : Visit Int) : Int :=
  v.left.value - v.found.value

/-- The turn has taken something. -/
def Visit.took (v : Visit Int) : Bool :=
  v.change ≠ 0

variable {v : Visit Int} {own : List (Visit Int)} {stage : Stage}

theorem Visit.Checks.idle (check : v.Checks taking stage true) : v.change = 0 := by
  have judged := check.judged
  rw [change, check.left]
  unfold taking at judged ⊢
  split at judged
  · simp [*]
  · cases judged

theorem Visit.Checks.takes (check : v.Checks taking stage false) : v.change = -1 := by
  have judged := check.judged
  rw [change, check.left]
  unfold taking at judged ⊢
  split at judged
  · cases judged
  · simp [*]

theorem Held.idle (held : Held taking own) : ∀ v ∈ own, v.change = 0 := by
  induction held with
  | none => nofun
  | again held check ih =>
      intro v mem
      rcases List.mem_append.mp mem with old | new
      · exact ih v old
      · rw [List.mem_singleton.mp new]
        exact check.idle

theorem Held.countP_took (held : Held taking own) : own.countP Visit.took = 0 := by
  rw [List.countP_eq_zero]
  intro v mem
  simp [Visit.took, held.idle v mem]

/-- A call that waits to take has taken one unit if it has passed, and otherwise none. -/
theorem Waited.countP_took {a : Caller Int} (waited : Waited taking own a.state) :
    own.countP Visit.took = if a.passed then 1 else 0 := by
  obtain ⟨asked, state⟩ := a
  cases waited with
  | waits held here => exact held.countP_took
  | passed held check =>
      rw [List.countP_append, held.countP_took, List.countP_singleton, Visit.took, check.takes]
      rfl
  | refused check up =>
      rw [List.countP_singleton, Visit.took, check.idle]
      rfl
  | @dismissed before last held slept call kept up =>
      have none : last.change = 0 := by rw [Visit.change, kept, sub_self]
      rw [List.countP_append, held.countP_took, List.countP_singleton, Visit.took, none]
      rfl

/-- It takes one unit at a time. -/
theorem Waited.change {a : Caller Int} (waited : Waited taking own a.state) :
    ∀ v ∈ own, v.change = if v.took then -1 else 0 := by
  have zero : ∀ {v : Visit Int}, v.change = 0 → v.change = if v.took then -1 else 0 := by
    intro v none
    simp [Visit.took, none]
  obtain ⟨asked, state⟩ := a
  intro v mem
  cases waited with
  | waits held here => exact zero (held.idle v mem)
  | passed held check =>
      rcases List.mem_append.mp mem with old | new
      · exact zero (held.idle v old)
      · rw [List.mem_singleton.mp new, Visit.took, check.takes]
        rfl
  | refused check up =>
      rw [List.mem_singleton.mp mem]
      exact zero check.idle
  | @dismissed before last held slept call kept up =>
      rcases List.mem_append.mp mem with old | new
      · exact zero (held.idle v old)
      · rw [List.mem_singleton.mp new]
        exact zero (by rw [Visit.change, kept, sub_self])

namespace Crowd

variable {start : Monitor Int} {visits : List (Visit Int)} {c : Crowd Int}

/-- The caller has returned from a wait for a condition with the value that it got. -/
def passed (c : Crowd Int) (i : Nat) : Bool :=
  c.callers[i]?.any Caller.passed

/-- The value is what all turns have made of it. -/
theorem Run.value_eq (run : Run start visits c) :
    c.monitor.value = start.value + (visits.map Visit.change).sum := by
  induction run with
  | start => simp
  | next run step ih =>
      rw [List.map_append, List.sum_append, ← add_assoc, ← ih]
      cases step with
      | comes | stirs => simp
      | turns => simp [Visit.change]

/-- The turns of those who take one unit at a time, apart from those of everybody else. -/
theorem sum_change_add (takers : Nat → Bool) (visits : List (Visit Int))
    (units : ∀ v ∈ visits, takers v.caller = true → v.change = if v.took then -1 else 0) :
    (visits.map Visit.change).sum + (visits.countP fun v => takers v.caller && v.took) =
      ((visits.filter fun v => !takers v.caller).map Visit.change).sum := by
  induction visits with
  | nil => rfl
  | cons v visits ih =>
      have rest := ih fun v mem => units v (List.mem_cons_of_mem _ mem)
      have front := units v List.mem_cons_self
      cases taker : takers v.caller with
      | false => simp [taker, ← rest, add_assoc]
      | true =>
          cases took : v.took with
          | false => simp [taker, took, ← rest, front taker]
          | true =>
              have unit : v.change = -1 := by rw [front taker, took, if_pos rfl]
              have counted : ((v :: visits).countP fun v => takers v.caller && v.took) =
                  (visits.countP fun v => takers v.caller && v.took) + 1 := by simp [taker, took]
              have others : ((v :: visits).filter fun v => !takers v.caller) =
                  visits.filter fun v => !takers v.caller := by simp [taker]
              rw [counted, others, ← rest, List.map_cons, List.sum_cons, unit]
              omega

variable {takers : Nat → Bool}

/-- The turns in which one of the takers has taken something belong to the takers that have passed,
one to each. -/
theorem Run.taken_perm (run : Run start visits c)
    (asked : ∀ i a, takers i = true → c.callers[i]? = some a → a.asked = waiting taking .arriving) :
    ((visits.filter fun v => takers v.caller && v.took).map (·.caller)).Perm
      ((List.range c.callers.length).filter fun i => takers i && c.passed i) := by
  rw [List.perm_iff_count]
  intro i
  rw [(List.nodup_range.filter _).count, List.count, List.countP_map, List.countP_filter]
  by_cases taker : takers i = true
  · have own : visits.countP (fun v => v.caller == i && (takers v.caller && v.took)) =
        (visitsOf i visits).countP Visit.took := by
      rw [visitsOf, List.countP_filter]
      apply List.countP_congr
      intro v _
      simp only [Bool.and_eq_true, beq_iff_eq]
      constructor
      · rintro ⟨rfl, -, took⟩
        exact ⟨took, rfl⟩
      · rintro ⟨took, rfl⟩
        exact ⟨rfl, taker, took⟩
    rw [show ((fun j => j == i) ∘ fun v : Visit Int => v.caller) = fun v => v.caller == i from rfl, own]
    cases got : c.callers[i]? with
    | none =>
        rw [run.visitsOf_eq_nil (List.getElem?_eq_none_iff.mp got)]
        simp [passed, got]
    | some a =>
        have inside := (List.getElem?_eq_some_iff.mp got).1
        have here : c.passed i = a.passed := by rw [passed, got, Option.any_some]
        rw [(run.waited got (asked i a taker got)).countP_took]
        simp [here, taker, inside]
  · have none : visits.countP (fun v => ((fun j => j == i) ∘ fun v : Visit Int => v.caller) v &&
        (takers v.caller && v.took)) = 0 := by
      rw [List.countP_eq_zero]
      rintro v - own
      simp only [Function.comp_apply, Bool.and_eq_true, beq_iff_eq] at own
      exact taker (own.1 ▸ own.2.1)
    rw [none, if_neg]
    simp [taker]

/-- The units that the takers take one at a time go to those of them that pass, one to each, and the
value is short of exactly these: it is what everybody else has made of it, less one for each taker
that has passed. -/
structure Conserves (c : Crowd Int) (takers : Nat → Bool) (start : Monitor Int)
    (visits : List (Visit Int)) : Prop where
  single : ∀ v ∈ visits, takers v.caller = true → v.change = if v.took then -1 else 0
  paired : ((visits.filter fun v => takers v.caller && v.took).map (·.caller)).Perm
    ((List.range c.callers.length).filter fun i => takers i && c.passed i)
  counted : (visits.countP fun v => takers v.caller && v.took) =
    (List.range c.callers.length).countP fun i => takers i && c.passed i
  ledger : c.monitor.value +
      ((List.range c.callers.length).countP fun i => takers i && c.passed i) =
    start.value + ((visits.filter fun v => !takers v.caller).map Visit.change).sum

theorem Run.conserves (run : Run start visits c)
    (asked : ∀ i a, takers i = true → c.callers[i]? = some a → a.asked = waiting taking .arriving) :
    c.Conserves takers start visits := by
  have single : ∀ v ∈ visits, takers v.caller = true → v.change = if v.took then -1 else 0 := by
    intro v mem taker
    have got := List.getElem?_eq_getElem (run.caller_lt v mem)
    apply (run.waited got (asked _ _ taker got)).change
    rw [visitsOf, List.mem_filter]
    exact ⟨mem, beq_self_eq_true _⟩
  have paired := run.taken_perm asked
  have counted : (visits.countP fun v => takers v.caller && v.took) =
      (List.range c.callers.length).countP fun i => takers i && c.passed i := by
    have length := paired.length_eq
    rwa [List.length_map, ← List.countP_eq_length_filter, ← List.countP_eq_length_filter] at length
  refine ⟨single, paired, counted, ?_⟩
  rw [run.value_eq, ← counted, add_assoc, sum_change_add takers visits single]

end Crowd

/-- A wait for a condition applies it once on entry and once after each wake that finds the flag
down, each time in one turn, and does nothing else to the value. It passes with the first application
that yields false and returns what that has left; a call that is refused, or that still waits, has
made no such application. So of the units that are waited for with `take` each goes to one call that
passes. The turns are what the calls come to that do one instruction at a time and only have the lock
one after the other; and the calls on a monitor of the program are such calls. -/
theorem applied_once :
    (∀ {σ : Type} {start : Monitor σ} {visits : List (Visit σ)} {c : Crowd σ},
      Crowd.Run start visits c →
        visits.map (·.found) ++ [c.monitor] = start :: visits.map (·.left) ∧
        ∀ {f : σ → σ × Bool} {i : Nat} {a : Caller σ}, c.callers[i]? = some a →
          a.asked = .waitWhile (fun value => .ok (f value)) .arriving →
            Waited f (visitsOf i visits) a.state ∧
              (visitsOf i visits).length + a.due = a.wakes + 1) ∧
    (∀ {start : Monitor Int} {visits : List (Visit Int)} {c : Crowd Int} {takers : Nat → Bool},
      Crowd.Run start visits c →
        (∀ i a, takers i = true → c.callers[i]? = some a →
          a.asked = .waitWhile Condition.take.judge .arriving) →
            c.Conserves takers start visits) ∧
    (∀ {σ : Type} {start : Monitor σ} {s : Scene σ}, Scene.Run start s →
      ∃ visits c, Crowd.Run start visits c ∧ s.Shows c) ∧
    ∀ {α : Type} {w : World α} {place : Nat} {m : Monitor Int}, w.Reachable →
      w.store.monitors[place]? = some m → Attended place m w.threads :=
  ⟨fun run => ⟨run.handed, fun got asked => ⟨run.waited got asked, run.turns_eq got⟩⟩,
    fun run asked => run.conserves asked, fun run => run.shown, fun h found => h.attended found⟩

/-- Two callers wait for a unit. One is stored and both are woken; the second takes it, and the first
gets its turn only after the monitor has been terminated. -/
def contended : List (Visit Int) × Crowd Int :=
  Crowd.follow [
    .comes (waiting taking .arriving) rfl, .turns 0 0,
    .comes (waiting taking .arriving) rfl, .turns 1 0,
    .comes (.update fun _ => 1) trivial, .turns 2 0,
    .comes .broadcast trivial, .turns 3 0,
    .turns 1 0,
    .comes .terminate trivial, .turns 4 0,
    .turns 0 0] [] { monitor := { value := 0 } }

/-- A caller has slept until there was a unit, has taken it, and still has the lock. -/
def served : Scene Int :=
  Scene.follow [
    .comes (waiting taking .arriving) rfl, .turns 0 0, .turns 0 0, .turns 0 0, .turns 0 0,
    .comes (.update fun _ => 1) trivial, .turns 1 0, .turns 1 0, .turns 1 0,
    .comes .signal trivial, .turns 2 0,
    .turns 0 0, .turns 0 0, .turns 0 0] { monitor := { value := 0 } }

/-- A step of the program that waits for a unit. -/
def wanting : World Unit :=
  World.follow 40 [.newMonitor "m" 0, .onMonitor "m" (.waitWhile .take)] (.start [])

theorem applied_once_of_contended :
    contended.2.monitor = { value := 0, terminated := true } ∧
    (List.range 5).map contended.2.passed = [false, true, false, false, false] ∧
    Waited taking (visitsOf 0 contended.1) (.returns .refused) ∧
    (visitsOf 0 contended.1).length = 2 ∧
    contended.2.Conserves (fun i => decide (i < 2)) { value := 0 } contended.1 ∧
    (served.runners.map (·.caller.passed) = [true, false, false] ∧ served.monitor.value = 0) ∧
    (∃ visits c, Crowd.Run (⟨0, false⟩ : Monitor Int) visits c ∧ served.Shows c) ∧
    Attended 0 { value := 0 } wanting.threads := by
  have run : Crowd.Run (⟨0, false⟩ : Monitor Int) contended.1 contended.2 :=
    Crowd.Run.start.follow _
  have asked : ∀ i a, decide (i < 2) = true → contended.2.callers[i]? = some a →
      a.asked = .waitWhile Condition.take.judge .arriving := by
    intro i a taker got
    match i, taker, got with
    | 0, _, got =>
        obtain rfl := Option.some.inj got
        rfl
    | 1, _, got =>
        obtain rfl := Option.some.inj got
        rfl
    | i + 2, taker, _ => exact absurd (of_decide_eq_true taker) (by omega)
  obtain ⟨a, got, refused⟩ : ∃ a, contended.2.callers[0]? = some a ∧ a.state = .returns .refused :=
    ⟨_, rfl, rfl⟩
  obtain ⟨waited, turns⟩ := (applied_once.1 run).2 got (asked 0 a rfl got)
  rw [refused] at waited
  have reachable : wanting.Reachable := World.reachable_follow 40 _ (.start [])
  have serves : Scene.Run (⟨0, false⟩ : Monitor Int) served := Scene.Run.start.follow _
  exact ⟨rfl, rfl, waited, rfl, applied_once.2.1 run asked, ⟨rfl, rfl⟩, applied_once.2.2.1 serves,
    applied_once.2.2.2 reachable rfl⟩

end Monitor

end WorkerPool
