import WorkerPool.Proofs.Monitors
import WorkerPool.Proofs.Moments

/-! Waiting for a condition. A waiter looks at the value under the lock when it arrives and again
after every wake, with one exception: whoever is woken into a monitor that has been terminated is
sent away without a look. So a wait passes only with a value that satisfies it, and a wait that has
not slept is refused only while its condition still holds it back; but a termination dismisses
everybody who sleeps at the time, also those who have nothing to wait for any more. -/

namespace WorkerPool

variable {α : Type}

/-- The condition reads the value and does not change it. -/
def Monitor.Reads (holds : Int → Except Payload (Int × Bool)) : Prop :=
  ∀ value value' stays, holds value = .ok (value', stays) → value' = value

/-- What becomes of a wait whose turn it is at the monitor `m`: how it leaves the monitor, what it
has left to do and what its caller is told. -/
inductive Monitor.Looked (place : Nat) (m : Monitor Int)
    (holds : Int → Except Payload (Int × Bool)) (stage : Stage) :
    Monitor Int → List (Op α) → Option (Answer α) → Prop
  | passed (value : Int) (clear : holds m.value = .ok (value, false))
      (asked : stage = .woken → m.terminated = false) :
      Looked place m holds stage { m with value } [] (some (.ok (.number value)))
  | refused (value : Int) (held : holds m.value = .ok (value, true)) (fresh : stage = .arriving)
      (down : m.terminated = true) :
      Looked place m holds stage { m with value } [] (some (.error .waitTerminated))
  | dismissed (woken : stage = .woken) (down : m.terminated = true) :
      Looked place m holds stage m [] (some (.error .waitTerminated))
  | sleeps (value : Int) (held : holds m.value = .ok (value, true)) (up : m.terminated = false)
      (answer : Option (Answer α)) :
      Looked place m holds stage { m with value } [.monitor place (.waitWhile holds .asleep)] answer
  | broke (payload : Payload) (raised : holds m.value = .error payload)
      (asked : stage = .woken → m.terminated = false) :
      Looked place m holds stage m [] (some (.error (.panicked payload)))

namespace Monitor

variable {place : Nat} {m m' : Monitor Int} {holds : Int → Except Payload (Int × Bool)}
  {stage : Stage} {turned : Turned Int (Call Int) (Reply Int)}

/-- A turn of a wait is a look, and wakes nobody. -/
theorem looked_of_turn (turn : (Call.waitWhile holds stage).turn m = some turned)
    (answer : Option (Answer α)) :
    turned.wake = .nobody ∧ Looked place m holds stage turned.object (left place turned.next)
      ((told turned.next).or answer) := by
  obtain ⟨outcome, look, rfl⟩ := Option.map_eq_some_iff.mp turn
  have woken : ∀ {dismissed : Bool}, m.dismisses stage = some dismissed →
      stage = .woken → m.terminated = dismissed := by
    rintro dismissed h rfl
    exact Option.some.inj h
  rcases look_eq look with ⟨dismissed, rfl⟩ |
    ⟨asked, ⟨payload, raised, rfl⟩ | ⟨value, stays, judged, rfl⟩⟩
  · have hstage : stage = .woken := by
      cases stage with
      | woken => rfl
      | arriving | asleep => cases dismissed
    exact ⟨rfl, .dismissed hstage (woken dismissed hstage)⟩
  · exact ⟨rfl, .broke payload raised (woken asked)⟩
  · cases stays with
    | false => exact ⟨rfl, .passed value judged (woken asked)⟩
    | true =>
        by_cases down : m.terminated = true
        · have refused : m.verdict true = .refused := by simp [verdict, down]
          rw [refused]
          refine ⟨rfl, .refused value judged ?_ down⟩
          cases stage with
          | arriving => rfl
          | asleep => cases asked
          | woken => exact absurd (woken asked rfl) (by simp [down])
        · have sleeps : m.verdict true = .sleeps := by simp [verdict, down]
          rw [sleeps]
          exact ⟨rfl, .sleeps value judged (Bool.eq_false_iff.mpr down) _⟩

/-- A condition that only reads the value leaves the monitor as it is. -/
theorem Looked.kept {ops : List (Op α)} {answer : Option (Answer α)}
    (looked : Looked place m holds stage m' ops answer) (reads : Reads holds) : m' = m := by
  cases looked with
  | passed value judged | refused value judged | sleeps value judged =>
      rw [reads _ _ _ judged]
  | dismissed | broke => rfl

/-- Whoever is woken into a monitor that has been terminated leaves without a look. -/
theorem Looked.dismissed_of_woken {ops : List (Op α)} {answer : Option (Answer α)}
    (looked : Looked place m holds .woken m' ops answer) (down : m.terminated = true) :
    ops = [] ∧ answer = some (.error .waitTerminated) := by
  cases looked with
  | passed _ _ asked | broke _ _ asked => exact absurd (down.symm.trans (asked rfl)) nofun
  | refused _ _ fresh => cases fresh
  | dismissed => exact ⟨rfl, rfl⟩
  | sleeps _ _ up => exact absurd (down.symm.trans up) nofun

end Monitor

namespace World

variable {u w v : World α} {index place : Nat} {t : Thread α} {m : Monitor Int}
  {holds : Int → Except Payload (Int × Bool)} {stage : Stage}

/-- A step that calls a monitor has nothing else to do. -/
theorem Orderly.monitor_alone (orderly : w.Orderly) (ht : t ∈ w.threads) {call : Monitor.Call Int}
    {rest : List (Op α)} (ops : t.ops = .monitor place call :: rest) : rest = [] := by
  have stack := orderly.ordered t ht
  rw [ops] at stack
  have before := stack.1
  rw [List.append_nil] at before
  cases before
  rfl

/-- The turn of a wait for a condition. -/
theorem Reachable.looked (h : w.Reachable) (found : w.store.monitors[place]? = some m)
    (got : w.threads[index]? = some t) {rest : List (Op α)}
    (ops : t.ops = .monitor place (.waitWhile holds stage) :: rest) {pick : Nat}
    (turn : w.turn index pick = some v) :
    ∃ m' t', v.store.monitors[place]? = some m' ∧ v.threads[index]? = some t' ∧
      Monitor.Looked place m holds stage m' t'.ops t'.answer := by
  obtain rfl := h.orderly.monitor_alone (List.mem_of_getElem? got) ops
  obtain ⟨e, heffect, rfl, -, -⟩ := took_of_effect h.orderly got ops (by rintro ⟨⟩) turn
  obtain ⟨m', found', hcall⟩ := Option.bind_eq_some_iff.mp heffect
  obtain rfl := Option.some.inj (found.symm.trans found')
  obtain ⟨turned, hturn, rfl⟩ := Option.map_eq_some_iff.mp hcall
  obtain ⟨silent, looked⟩ := @Monitor.looked_of_turn _ place _ _ _ _ hturn t.answer
  have hlt := (List.getElem?_eq_some_iff.mp got).1
  have there := (List.getElem?_eq_some_iff.mp found).1
  refine ⟨turned.object, { t with ops := Monitor.left place turned.next,
                                  answer := (Monitor.told turned.next).or t.answer },
    ?_, ?_, looked⟩
  · cases turned.next <;> simp [apply, Store.setMonitor, there]
  · cases turned.next <;>
      simp [apply, continued, silent, Alarm.of, rouse, hlt, Monitor.left, Monitor.told]

/-- A sleeper has no turn. -/
theorem turn_eq_none_of_asleep (got : w.threads[index]? = some t) {rest : List (Op α)}
    (ops : t.ops = .monitor place (.waitWhile holds .asleep) :: rest) (pick : Nat) :
    w.turn index pick = none := by
  rw [turn_eq got ops]
  simp only [Option.map_eq_none_iff, Op.effect, Option.bind_eq_none_iff]
  intro m found
  rfl

/-- The thread at `index` was dismissed from the monitor at `place`: it has been told so, or it will
be in its next turn. -/
def Dismissed (place : Nat) (holds : Int → Except Payload (Int × Bool)) (index : Nat)
    (w : World α) : Prop :=
  (∃ m, w.store.monitors[place]? = some m ∧ m.terminated = true) ∧
    ∃ t, w.threads[index]? = some t ∧ (t.ops = [.monitor place (.waitWhile holds .woken)] ∨
      (t.ops = [] ∧ t.answer = some (.error .waitTerminated)))

/-- The turn that terminates a monitor dismisses everyone who sleeps there. -/
theorem Reachable.dismisses (h : w.Reachable) (got : w.threads[index]? = some t)
    {rest : List (Op α)} (ops : t.ops = .monitor place (.waitWhile holds .asleep) :: rest)
    (step : w.Step v) (found : v.store.monitors[place]? = some m) (down : m.terminated = true) :
    v.Dismissed place holds index := by
  have ht := List.mem_of_getElem? got
  obtain rfl := h.orderly.monitor_alone ht ops
  obtain ⟨m', found', up⟩ := h.unflagged place t ht _ _ ops rfl
  cases step with
  | issue command =>
      obtain rfl := Option.some.inj (found'.symm.trans found)
      exact absurd (up.symm.trans down) nofun
  | turn i pick took =>
      have apart : i ≠ index := by
        rintro rfl
        rw [turn_eq_none_of_asleep got ops] at took
        cases took
      obtain ⟨t', old, tail, e, took, kind⟩ := visits_of_turn h.orderly took place
      obtain ⟨m'', after, same | ⟨-, loud⟩⟩ := kind.flag found'
      · rw [took.store, after] at found
        obtain rfl := Option.some.inj found
        exact absurd (up.symm.trans (same.symm.trans down)) nofun
      · obtain ⟨pick, answer, -, threads⟩ := took.threads
        refine ⟨⟨m, found, down⟩, t.wake, ?_, .inl (by rw [Thread.wake, ops]; rfl)⟩
        have asleep : t.sleepsAt = some (.monitor place) := by rw [Thread.sleepsAt, ops]; rfl
        have woken : (wakeAll (.monitor place)
            (w.threads.set i { t' with ops := e.ops ++ tail, answer }))[index]? = some t.wake := by
          rw [wakeAll, List.getElem?_map, List.getElem?_set_ne apart, got]
          simp [asleep]
        rw [threads, loud, rouse, List.getElem?_append_left (List.getElem?_eq_some_iff.mp woken).1,
          woken]

/-- Whoever has been dismissed stays so. -/
theorem Later.dismissed (later : w.Later u) (h : w.Reachable)
    (dismissed : w.Dismissed place holds index) : u.Dismissed place holds index := by
  induction later with
  | refl => exact dismissed
  | @tail x y earlier step ih =>
      obtain ⟨⟨m, found, down⟩, t, got, state⟩ := ih
      have reachable := h.later earlier
      obtain ⟨m', found', stays⟩ := Later.monitor (.single step) reachable found
      refine ⟨⟨m', found', stays down⟩, ?_⟩
      cases step with
      | issue command =>
          have bound := (List.getElem?_eq_some_iff.mp got).1
          exact ⟨t, by rw [issue, List.getElem?_append_left bound, got], state⟩
      | turn i pick turn =>
          by_cases self : i = index
          · subst self
            rcases state with ops | ⟨ops, -⟩
            · obtain ⟨m'', t', -, got', looked⟩ := reachable.looked found got ops turn
              exact ⟨t', got', .inr (looked.dismissed_of_woken down)⟩
            · exact absurd ops (not_ended_of_turn got turn)
          · obtain ⟨t', old, tail, e, took⟩ := took_of_turn reachable.orderly turn
            obtain ⟨t'', got', -, -⟩ := took.stays got
            refine ⟨t'', got', ?_⟩
            rcases took.thread_at got got' with ⟨-, rfl | rfl⟩ | ⟨rfl, -⟩
            · exact state
            · rcases state with ops | ⟨ops, told⟩
              · refine .inl ?_
                rw [Thread.wake, ops]
                rfl
              · refine .inr ⟨?_, told⟩
                rw [Thread.wake, ops]
                rfl
            · exact absurd rfl self

/-- A wait for a condition that only reads the value. It passes only with a value that satisfies it,
and a wait that has not slept yet passes whenever its condition does not hold it back, however the
flag stands. But a wait that sleeps when the monitor is terminated is refused without another look,
whatever the value is by then. -/
theorem Reachable.waiters_decided (h : w.Reachable) (found : w.store.monitors[place]? = some m)
    (reads : Monitor.Reads holds) :
    (∀ {index : Nat} {t : Thread α} {stage : Stage} {rest : List (Op α)} {pick : Nat}
      {v : World α}, w.threads[index]? = some t →
        t.ops = .monitor place (.waitWhile holds stage) :: rest → w.turn index pick = some v →
          v.store.monitors[place]? = some m ∧ ∃ t', v.threads[index]? = some t' ∧
            Monitor.Looked place m holds stage m t'.ops t'.answer) ∧
    (∀ {index : Nat} {t : Thread α} {rest : List (Op α)}, w.threads[index]? = some t →
      t.ops = .monitor place (.waitWhile holds .asleep) :: rest →
        m.terminated = false ∧ ∀ {v u : World α} {m' : Monitor Int}, w.Step v →
          v.store.monitors[place]? = some m' → m'.terminated = true → v.Later u →
            u.Dismissed place holds index) := by
  constructor
  · intro index t stage rest pick v got ops turn
    obtain ⟨m', t', found', got', looked⟩ := h.looked found got ops turn
    obtain rfl := looked.kept reads
    exact ⟨found', t', got', looked⟩
  · intro index t rest got ops
    obtain ⟨m', found', up⟩ := h.unflagged place t (List.mem_of_getElem? got) _ _ ops rfl
    obtain rfl := Option.some.inj (found.symm.trans found')
    exact ⟨up, fun step after down later =>
      later.dismissed (.next h step) (h.dismisses got ops step after down)⟩

/-- Step 1 sleeps until a number is not smaller than one. The number has been set to five without a
wake, and step 3 is about to wait for the same. -/
def satisfied : World Unit :=
  ((follow 40 [
    .newMonitor "m" 0,
    .onMonitor "m" (.waitWhile (.less 1)),
    .onMonitor "m" (.store 5)] (.start [])).issue (.onMonitor "m" (.waitWhile (.less 1)))).settle 1 3

theorem waiters_decided_of_satisfied :
    (∃ v t', satisfied.turn 3 0 = some v ∧ v.threads[3]? = some t' ∧ t'.ops = [] ∧
      t'.answer = some (.ok (.number 5))) ∧
    ∀ {v u : World Unit} {m : Monitor Int}, satisfied.Step v → v.store.monitors[0]? = some m →
      m.terminated = true → v.Later u → u.Dismissed 0 (Condition.less 1).judge 1 := by
  have reachable : satisfied.Reachable :=
    reachable_settle (.next (reachable_follow 40 _ (.start [])) (.issue _ _)) 1 3
  have reads : Monitor.Reads (Condition.less 1).judge := by
    rintro value value' stays ⟨⟩
    rfl
  have found : satisfied.store.monitors[0]? = some { value := 5 } := rfl
  obtain ⟨decided, dismissed⟩ := reachable.waiters_decided found reads
  refine ⟨?_, fun step found down later => (dismissed rfl rfl).2 step found down later⟩
  obtain ⟨v, turn⟩ := Option.isSome_iff_exists.mp
    (show (satisfied.turn 3 0).isSome = true from rfl)
  have waiting : satisfied.threads[3]? =
      some ⟨.step 3, [.monitor 0 (.waitWhile (Condition.less 1).judge .arriving)], none⟩ := rfl
  obtain ⟨-, t', got, looked⟩ := decided waiting rfl turn
  refine ⟨v, t', turn, got, ?_⟩
  generalize t'.ops = ops, t'.answer = answer at looked ⊢
  cases looked with
  | passed value clear => exact ⟨rfl, rfl⟩
  | refused value held | sleeps value held => cases held
  | dismissed woken => cases woken
  | broke payload raised => cases raised

/-- The monitor is then terminated, and step 5 waits for the same once more. -/
def overruled : World Unit :=
  follow 40 [
    .onMonitor "m" .terminate,
    .onMonitor "m" (.waitWhile (.less 1))] satisfied

/-- Step 1 has been refused with a number that satisfies its condition; those that have asked for
the same without having slept have passed with it. -/
theorem overruled_refused_satisfied :
    overruled.answers = [(0, .ok .nothing), (1, .error .waitTerminated), (2, .ok .nothing),
      (3, .ok (.number 5)), (4, .ok .nothing), (5, .ok (.number 5))] ∧
    overruled.store.monitors = [⟨5, true⟩] ∧ (Condition.less 1).judge 5 = .ok (5, false) :=
  ⟨rfl, rfl, rfl⟩

end World

end WorkerPool
