import WorkerPool.Proofs.Inert
import WorkerPool.Proofs.Wakeups

/-! What a turn does to a monitor. A monitor is changed by the calls on it, and by a command that
panics while it holds the lock; every other turn leaves it as it is. No call takes the flag of a
monitor down again, and a call that raises it wakes all sleepers in the same turn, while nobody
falls asleep at a monitor whose flag is up. So nobody sleeps at a monitor that has been terminated.
-/

namespace WorkerPool

variable {α : Type}

/-- The operation is a call on the monitor at `place`. -/
def Op.Enters (place : Nat) : Op α → Prop
  | .monitor p _ => p = place
  | _ => False

theorem Op.Enters.outer {place : Nat} {op : Op α} (enters : op.Enters place) : op.Outer := by
  cases op with
  | monitor => trivial
  | _ => exact enters.elim

/-- The effect leaves all monitors as they are and calls none of them. -/
structure Effect.Unwatched (s : Store α) (e : Effect α) : Prop where
  monitors : e.store.monitors = s.monitors
  quiet : ∀ op ∈ e.ops, ∀ place, ¬op.Enters place

theorem Effect.Inert.unwatched {s : Store α} {e : Effect α} (inert : Effect.Inert s e) :
    Effect.Unwatched s e :=
  ⟨inert.retains.monitors, fun op hop _ enters => inert.quiet op hop enters.outer⟩

namespace Monitor

section

variable {σ : Type}

/-- A call on a monitor as a caller begins it. -/
def Call.Fresh : Call σ → Prop
  | .wait stage | .waitWhile _ stage => stage = .arriving
  | _ => True

theorem Call.Fresh.awake {call : Call σ} (fresh : call.Fresh) : call.asleep = false := by
  cases call with
  | wait stage | waitWhile holds stage =>
      rw [show stage = .arriving from fresh]
      rfl
  | _ => rfl

variable {m : Monitor σ} {call sleeper : Call σ} {turned : Turned σ (Call σ) (Reply σ)}

/-- A look of a waiter changes the value at most. -/
theorem look_eq {holds : σ → Except Payload (σ × Bool)} {stage : Stage}
    {outcome : Except Payload (Monitor σ × Verdict)}
    (look : m.look holds stage = some outcome) :
    (m.dismisses stage = some true ∧ outcome = .ok (m, .refused)) ∨
      (m.dismisses stage = some false ∧ ((∃ payload, holds m.value = .error payload ∧
          outcome = .error payload) ∨
        ∃ value stays, holds m.value = .ok (value, stays) ∧
          outcome = .ok ({ m with value }, m.verdict stays))) := by
  obtain ⟨dismissed, hstage, rfl⟩ := Option.map_eq_some_iff.mp look
  cases dismissed with
  | true => exact .inl ⟨hstage, rfl⟩
  | false =>
      refine .inr ⟨hstage, ?_⟩
      cases judged : holds m.value with
      | error payload => exact .inl ⟨payload, rfl, rfl⟩
      | ok pair => exact .inr ⟨pair.1, pair.2, rfl, rfl⟩

/-- What a call does to the flag: it leaves it as it is, or it raises it and wakes everybody. -/
theorem Call.flag_of_turn (turn : call.turn m = some turned) :
    turned.object.terminated = m.terminated ∨
      (turned.object.terminated = true ∧ turned.wake = .everyone) := by
  cases call with
  | wait stage =>
      cases stage with
      | asleep => cases turn
      | woken =>
          obtain rfl := Option.some.inj turn
          exact .inl rfl
      | arriving =>
          obtain rfl := Option.some.inj turn
          split <;> exact .inl rfl
  | waitWhile holds stage =>
      obtain ⟨outcome, look, rfl⟩ := Option.map_eq_some_iff.mp turn
      rcases look_eq look with ⟨-, rfl⟩ | ⟨-, ⟨payload, -, rfl⟩ | ⟨value, stays, -, rfl⟩⟩
      · exact .inl rfl
      · exact .inl rfl
      · cases m.verdict stays <;> exact .inl rfl
  | terminateIf holds =>
      obtain rfl := Option.some.inj turn
      split
      · exact .inr ⟨rfl, rfl⟩
      · exact .inl rfl
      · exact .inl rfl
  | terminate =>
      obtain rfl := Option.some.inj turn
      exact .inr ⟨rfl, rfl⟩
  | update change | signal | broadcast =>
      obtain rfl := Option.some.inj turn
      exact .inl rfl

/-- Whoever goes on after its turn has fallen asleep, at a monitor whose flag is down, and has woken
nobody. -/
theorem Call.goes_of_turn (turn : call.turn m = some turned) (next : turned.next = .goes sleeper) :
    turned.object.terminated = false ∧ sleeper.asleep = true ∧ turned.wake = .nobody := by
  cases call with
  | wait stage =>
      cases stage with
      | asleep => cases turn
      | woken =>
          obtain rfl := Option.some.inj turn
          cases next
      | arriving =>
          cases down : m.terminated with
          | true =>
              simp only [Call.turn, down, if_true, Option.some.injEq] at turn
              subst turn
              cases next
          | false =>
              simp only [Call.turn, down, Bool.false_eq_true, if_false, Option.some.injEq] at turn
              subst turn
              cases next
              exact ⟨down, rfl, rfl⟩
  | waitWhile holds stage =>
      obtain ⟨outcome, look, rfl⟩ := Option.map_eq_some_iff.mp turn
      rcases look_eq look with ⟨-, rfl⟩ | ⟨-, ⟨payload, -, rfl⟩ | ⟨value, stays, -, rfl⟩⟩
      · cases next
      · cases next
      · cases verdict : m.verdict stays with
        | passed | refused =>
            simp only [verdict] at next
            cases next
        | sleeps =>
            simp only [verdict] at next
            cases next
            cases down : m.terminated with
            | false => exact ⟨rfl, rfl, rfl⟩
            | true => cases stays <;> simp [Monitor.verdict, down] at verdict
  | terminateIf holds =>
      obtain rfl := Option.some.inj turn
      revert next
      cases holds m.value with
      | error payload => rintro ⟨⟩
      | ok decided => cases decided <;> rintro ⟨⟩
  | terminate | update change | signal | broadcast =>
      obtain rfl := Option.some.inj turn
      cases next

end

/-- What is left of a call on the monitor at `place`. -/
def left (place : Nat) : Next (Call Int) (Reply Int) → List (Op α)
  | .goes call => [.monitor place call]
  | .returns _ => []

/-- What the caller is told. -/
def told : Next (Call Int) (Reply Int) → Option (Answer α)
  | .goes _ => none
  | .returns reply => some reply.answer

end Monitor

/-! ### Turns -/

/-- What the first turn of a command does to the monitors: nothing, or it begins a call on one of
them, or it changes the value of one and panics under the lock, or it makes a new one. -/
inductive Command.Monitors (s : Store α) : Command α → Effect α → Prop
  | apart (command : Command α) {e : Effect α} (apart : Effect.Unwatched s e) :
      Monitors s command e
  | begun (command : Command α) {e : Effect α} (place : Nat) (call : Monitor.Call Int)
      (there : place < s.monitors.length) (fresh : call.Fresh)
      (monitors : e.store.monitors = s.monitors) (ops : e.ops = [.monitor place call]) :
      Monitors s command e
  | poisoned (name : String) {e : Effect α} (place : Nat) (m : Monitor Int) (value : Int)
      (found : s.monitors[place]? = some m) (next : successor m.value = .ok value)
      (monitors : e.store.monitors = s.monitors.set place { m with value := value })
      (ops : e.ops = []) :
      Monitors s (.onMonitor name .poison) e
  | made (name : String) (value : Int) {e : Effect α}
      (monitors : e.store.monitors = s.monitors ++ [Monitor.mk value false]) (ops : e.ops = []) :
      Monitors s (.newMonitor name value) e

theorem Command.monitors {around : Around} {s : Store α} (command : Command α) :
    Command.Monitors s command (command.effect around s) := by
  by_cases outer : command.Outer
  case neg => exact .apart _ (command.inert outer).unwatched
  cases command with
  | newMonitor name value => exact .made name value rfl rfl
  | onMonitor name request =>
      simp only [effect]
      cases s.names.monitors.find? name with
      | none => exact .apart _ (inert_fail _ [] (.refl s)).unwatched
      | some place =>
          simp only [Effect.withObject]
          cases found : s.monitors[place]? with
          | none => exact .apart _ (inert_fail _ [] (.refl s)).unwatched
          | some m =>
              have there := (List.getElem?_eq_some_iff.mp found).1
              cases request with
              | poison =>
                  simp only [MonitorRequest.effect]
                  cases next : successor m.value with
                  | ok value => exact .poisoned name place m value found next rfl rfl
                  | error payload => exact .apart _ (inert_fail _ [] (.refl s)).unwatched
              | _ => exact .begun _ place _ there (by trivial) rfl rfl
  | newChannel name capacity =>
      simp only [effect]
      split
      · exact .apart _ (inert_fail _ [] (.refl s)).unwatched
      · split
        · exact .apart _ (inert_fail _ [] (.refl s)).unwatched
        · exact .apart _ ⟨rfl, by simp [Effect.succeed]⟩
  | onChannel name request =>
      refine .apart _ ?_
      simp only [effect]
      cases s.names.channels.find? name with
      | none => exact (inert_fail _ [] (.refl s)).unwatched
      | some place =>
          simp only [Effect.withObject]
          cases s.channels[place]? with
          | none => exact (inert_fail _ [] (.refl s)).unwatched
          | some c =>
              cases request <;>
                exact ⟨rfl, by simp [ChannelRequest.effect, Effect.succeed, Op.Enters]⟩
  | _ => exact outer.elim

/-- Only commands and calls on monitors have anything to do with monitors. -/
theorem Op.unwatched {around : Around} {s : Store α} {who : Who} {e : Effect α} {op : Op α}
    (h : op.effect around s who = some e) (deed : Deed around s who op e)
    (still : ∀ command, op ≠ .command command) (calm : ∀ place, ¬op.Enters place) :
    Effect.Unwatched s e := by
  by_cases active : op.Active
  case neg => exact (op.inert h deed active).unwatched
  cases op with
  | command given => exact absurd rfl (still given)
  | monitor place call => exact absurd rfl (calm place)
  | channel place call =>
      obtain ⟨c, -, hcall⟩ := Option.bind_eq_some_iff.mp h
      obtain ⟨turned, -, rfl⟩ := Option.map_eq_some_iff.mp hcall
      split <;> exact ⟨rfl, by simp [Op.Enters]⟩
  | code origin position current later =>
      obtain ⟨index, value, rest, rfl⟩ := Op.Active.write active
      obtain ⟨ops, ⟨-, store, -⟩ | ⟨-, store, -⟩⟩ := Op.effect_write h <;>
        exact ⟨by rw [store], by simp [ops, Op.Enters]⟩
  | _ => exact active.elim

namespace World

/-- What a turn does to the monitor at `place`. A turn that neither calls nor poisons it leaves it
as it is, if it does not make it. -/
inductive Visits (place : Nat) (s : Store α) : List (Op α) → Effect α → Prop
  | called {m : Monitor Int} {call : Monitor.Call Int}
      {turned : Turned Int (Monitor.Call Int) (Monitor.Reply Int)} {e : Effect α}
      (found : s.monitors[place]? = some m) (turn : call.turn m = some turned)
      (after : e.store.monitors[place]? = some turned.object)
      (ops : e.ops = Monitor.left place turned.next) (answer : e.answer = Monitor.told turned.next)
      (alarm : e.alarm = .of (.monitor place) turned.wake) :
      Visits place s [.monitor place call] e
  | begun (command : Command α) {call : Monitor.Call Int} {e : Effect α}
      (there : place < s.monitors.length) (fresh : call.Fresh)
      (kept : e.store.monitors[place]? = s.monitors[place]?) (ops : e.ops = [.monitor place call]) :
      Visits place s [.command command] e
  | poisoned (name : String) {m : Monitor Int} {value : Int} {e : Effect α}
      (found : s.monitors[place]? = some m) (next : successor m.value = .ok value)
      (after : e.store.monitors[place]? = some { m with value := value }) (ops : e.ops = []) :
      Visits place s [.command (.onMonitor name .poison)] e
  | made (name : String) (value : Int) {e : Effect α} (new : s.monitors.length = place)
      (after : e.store.monitors[place]? = some (Monitor.mk value false)) (ops : e.ops = []) :
      Visits place s [.command (.newMonitor name value)] e
  | apart {old : List (Op α)} {e : Effect α} (kept : e.store.monitors[place]? = s.monitors[place]?)
      (left : ∀ op ∈ old, ¬op.Enters place) (quiet : ∀ op ∈ e.ops, ¬op.Enters place) :
      Visits place s old e

variable {w v : World α} {index place : Nat} {t : Thread α} {old tail : List (Op α)} {e : Effect α}

theorem visits_of_command {around : Around} {s : Store α} (given : Command α) (place : Nat) :
    Visits place s [.command given] (given.effect around s) := by
  have monitors : Command.Monitors s given (given.effect around s) := given.monitors
  generalize given.effect around s = e at monitors
  have left : ∀ command : Command α, ∀ op ∈ [Op.command command], ¬op.Enters place := by
    simp [Op.Enters]
  cases monitors with
  | apart _ apart =>
      exact .apart (by rw [apart.monitors]) (left given) fun op hop => apart.quiet op hop place
  | begun _ p call there fresh monitors ops =>
      by_cases hp : p = place
      · subst hp
        exact .begun given there fresh (by rw [monitors]) ops
      · exact .apart (by rw [monitors]) (left given) (by simpa [ops, Op.Enters] using hp)
  | poisoned name p m value found next monitors ops =>
      by_cases hp : p = place
      · subst hp
        refine .poisoned name found next ?_ ops
        rw [monitors, List.getElem?_set_self (List.getElem?_eq_some_iff.mp found).1]
      · refine .apart ?_ (left _) (by simp [ops])
        rw [monitors, List.getElem?_set_ne hp]
  | made name value monitors ops =>
      by_cases new : s.monitors.length = place
      · refine .made name value new ?_ ops
        rw [monitors, ← new, List.getElem?_concat_length]
      · refine .apart ?_ (left _) (by simp [ops])
        rw [monitors]
        rcases Nat.lt_or_gt_of_ne new with hlt | hlt
        · rw [List.getElem?_eq_none (by rw [List.length_append]; exact hlt),
            List.getElem?_eq_none (Nat.le_of_lt hlt)]
        · exact List.getElem?_append_left hlt

theorem visits_of_call {around : Around} {s : Store α} {who : Who} {p : Nat}
    {call : Monitor.Call Int} {e : Effect α}
    (h : (Op.monitor p call).effect around s who = some e) (place : Nat) :
    Visits place s [.monitor p call] e := by
  obtain ⟨m, found, hcall⟩ := Option.bind_eq_some_iff.mp h
  obtain ⟨turned, hturn, rfl⟩ := Option.map_eq_some_iff.mp hcall
  have there := (List.getElem?_eq_some_iff.mp found).1
  by_cases hp : p = place
  · subst hp
    refine .called found hturn ?_ ?_ ?_ ?_
    · cases turned.next <;> exact List.getElem?_set_self there
    · cases turned.next <;> rfl
    · cases turned.next <;> rfl
    · cases turned.next <;> rfl
  · refine .apart ?_ (by simpa [Op.Enters] using hp) ?_
    · cases turned.next <;> exact List.getElem?_set_ne hp
    · cases turned.next <;> simp [Op.Enters, hp]

/-- Every turn is of one of these kinds. -/
theorem visits_of_turn (orderly : w.Orderly) {pick : Nat} (h : w.turn index pick = some v)
    (place : Nat) :
    ∃ t old tail e, w.Took v index t old tail e ∧ Visits place w.store old e := by
  obtain ⟨t, got, due⟩ := Option.bind_eq_some_iff.mp h
  split at due
  · cases due
  rename_i op rest hops
  obtain ⟨e, heffect, -, deed, ⟨-, took⟩ |
    ⟨payload, above, old, new, notes, tail, hpanic, loose, lands, -, took⟩⟩ :=
    took_cases orderly got hops h
  · refine ⟨t, [op], rest, e, took, ?_⟩
    by_cases given : ∃ command, op = .command command
    · obtain ⟨command, rfl⟩ := given
      obtain rfl := Option.some.inj heffect
      exact visits_of_command command place
    by_cases calls : ∃ p call, op = .monitor p call
    · obtain ⟨p, call, rfl⟩ := calls
      exact visits_of_call heffect place
    push Not at given calls
    have calm : ∀ p, ¬op.Enters p := by
      intro p enters
      cases op with
      | monitor q call => exact calls q call rfl
      | _ => exact enters
    have unwatched := Op.unwatched heffect deed given calm
    exact .apart (by rw [unwatched.monitors]) (by simpa using calm place) fun op hop =>
      unwatched.quiet op hop place
  · refine ⟨t, above ++ old, tail, _, took,
      .apart rfl (fun op hop enters => ?_) fun op hop enters =>
        lands.not_outer.2 op hop enters.outer⟩
    rcases List.mem_append.mp hop with hop | hop
    · exact (loose op hop).not_outer enters.outer
    · exact lands.not_outer.1 op hop enters.outer

/-! ### The flag and the sleepers -/

/-- What a turn leaves of a monitor that is there: its flag as it was, or up, with all sleepers
woken. -/
theorem Visits.flag (kind : Visits place w.store old e) {m : Monitor Int}
    (found : w.store.monitors[place]? = some m) :
    ∃ m', e.store.monitors[place]? = some m' ∧ (m'.terminated = m.terminated ∨
      (m'.terminated = true ∧ e.alarm = .everyone (.monitor place))) := by
  cases kind with
  | called found' turn after ops answer alarm =>
      obtain rfl := Option.some.inj (found.symm.trans found')
      refine ⟨_, after, (Monitor.Call.flag_of_turn turn).imp_right fun ⟨down, loud⟩ => ⟨down, ?_⟩⟩
      rw [alarm, loud]
      rfl
  | begun command there fresh kept => exact ⟨m, kept.trans found, .inl rfl⟩
  | poisoned name found' next after =>
      obtain rfl := Option.some.inj (found.symm.trans found')
      exact ⟨_, after, .inl rfl⟩
  | made name value new =>
      rw [List.getElem?_eq_none (Nat.le_of_eq new)] at found
      cases found
  | apart kept => exact ⟨m, kept.trans found, .inl rfl⟩

/-- A monitor that has been terminated stays so. -/
theorem Later.monitor (later : w.Later v) (h : w.Reachable) {m : Monitor Int}
    (found : w.store.monitors[place]? = some m) :
    ∃ m', v.store.monitors[place]? = some m' ∧ (m.terminated = true → m'.terminated = true) := by
  induction later with
  | refl => exact ⟨m, found, id⟩
  | tail earlier step ih =>
      obtain ⟨m', found', down⟩ := ih
      cases step with
      | issue command => exact ⟨m', found', down⟩
      | turn index pick took =>
          obtain ⟨t, old, tail, e, took, kind⟩ :=
            visits_of_turn (h.later earlier).orderly took place
          obtain ⟨m'', after, same | ⟨up, -⟩⟩ := kind.flag found'
          · exact ⟨m'', took.store ▸ after, fun h => same.trans (down h)⟩
          · exact ⟨m'', took.store ▸ after, fun _ => up⟩

/-- Every sleeper at the monitor at `place` sleeps before a flag that is down. -/
def Unflagged (place : Nat) (w : World α) : Prop :=
  ∀ t ∈ w.threads, ∀ call rest, t.ops = .monitor place call :: rest → call.asleep = true →
    ∃ m, w.store.monitors[place]? = some m ∧ m.terminated = false

theorem Took.unflagged (took : w.Took v index t old tail e) (kind : Visits place w.store old e)
    (orderly : w.Orderly) (h : w.Unflagged place) : v.Unflagged place := by
  intro u hu call rest hops asleep
  obtain ⟨unrung, was | fell⟩ := took.asleep orderly hu hops
    (show (Op.monitor place call).sleepsAt = some (.monitor place) from if_pos asleep)
  · obtain ⟨u', hu', rest', hops'⟩ := was
    obtain ⟨m, found, up⟩ := h u' hu' call rest' hops' asleep
    obtain ⟨m', after, same | ⟨-, loud⟩⟩ := kind.flag found
    · exact ⟨m', took.store ▸ after, same.trans up⟩
    · exact absurd loud unrung
  · cases kind with
    | @called m call' turned _ found turn after ops answer alarm =>
        rw [ops] at fell
        cases next : turned.next with
        | returns reply =>
            rw [next] at fell
            cases fell
        | goes sleeper =>
            exact ⟨turned.object, took.store ▸ after, (Monitor.Call.goes_of_turn turn next).1⟩
    | begun command there fresh kept ops =>
        rw [ops] at fell
        obtain ⟨-, rfl⟩ := Op.monitor.inj (List.mem_singleton.mp fell)
        rw [fresh.awake] at asleep
        cases asleep
    | poisoned name found next after ops | made name value new after ops =>
        rw [ops] at fell
        cases fell
    | apart kept left quiet => exact absurd rfl (quiet _ fell)

/-- Nobody sleeps at a monitor that has been terminated. -/
theorem Reachable.unflagged (h : w.Reachable) (place : Nat) : w.Unflagged place := by
  induction h with
  | start cells => simp [Unflagged, World.start]
  | @next w v reachable step ih =>
      cases step with
      | turn index pick took =>
          obtain ⟨t, old, tail, e, took, kind⟩ := visits_of_turn reachable.orderly took place
          exact took.unflagged kind reachable.orderly ih
      | issue command =>
          intro t ht call rest hops asleep
          rcases List.mem_append.mp ht with ht | ht
          · exact ih t ht call rest hops asleep
          · obtain rfl := List.mem_singleton.mp ht
            cases hops

end World

end WorkerPool
