import WorkerPool.Proofs.Crowd
import WorkerPool.Proofs.Moments
import WorkerPool.Proofs.Waiters

/-! The calls on a monitor in a run of the whole program. Every thread that calls a monitor is one of
the callers of a crowd, and a turn of the world is a turn of that caller, or has nothing to do with
the monitor. So whatever holds of every crowd holds of every monitor in every world that a run can
come to. A command that panics under the lock takes part as a caller who changes the value and
returns. Since a crowd leaves it open whom a signal reaches, and lets sleepers get up by themselves,
it can always follow the world in whom it wakes. -/

namespace WorkerPool

variable {α : Type}

/-- The thread calls the monitor at `place`. -/
def Thread.Calls (place : Nat) (t : Thread α) : Prop :=
  ∃ op ∈ t.ops, op.Enters place

theorem Op.enters_wake {place : Nat} (op : Op α) : op.wake.Enters place ↔ op.Enters place := by
  cases op with
  | submit sub phase => cases phase <;> rfl
  | work p i phase => cases phase <;> rfl
  | _ => rfl

theorem Thread.calls_wake {place : Nat} (t : Thread α) : t.wake.Calls place ↔ t.Calls place := by
  unfold Calls wake
  cases t.ops with
  | nil => rfl
  | cons op rest => simp [Op.enters_wake]

namespace Monitor

open Crowd

namespace Crowd

variable {σ : Type} {start : Monitor σ} {visits : List (Visit σ)} {c : Crowd σ}

/-- Of the callers in front, any may get up one after the other. -/
theorem Run.stirred (run : Run start visits c) (stirs : Nat → Bool) (count : Nat) :
    Run start visits { c with
      callers := c.callers.mapIdx fun k a => if k < count ∧ stirs k = true then a.wake else a } := by
  induction count with
  | zero =>
      have same : (c.callers.mapIdx fun k a => if k < 0 ∧ stirs k = true then a.wake else a) =
          c.callers := by
        apply List.ext_getElem?
        intro k
        simp
      rwa [same]
  | succ count ih =>
      by_cases up : stirs count = true
      · have next := ih.next (.stirs count)
        rw [Option.toList_none, List.append_nil] at next
        convert next using 2
        apply List.ext_getElem?
        intro k
        rw [List.getElem?_modify, List.getElem?_mapIdx, List.getElem?_mapIdx]
        by_cases here : count = k
        · subst here
          simp [up]
        · have front : k < count + 1 ↔ k < count := by omega
          simp [here, front]
      · convert ih using 4 with k a
        have front : k < count + 1 ∧ stirs k = true ↔ k < count ∧ stirs k = true := by
          constructor
          · rintro ⟨near, stirred⟩
            have : k ≠ count := by
              rintro rfl
              exact up stirred
            exact ⟨by omega, stirred⟩
          · rintro ⟨near, stirred⟩
            exact ⟨by omega, stirred⟩
        simp only [front]

end Crowd

/-- The thread is where the caller is: it has the same call to go on with, or the same answer. -/
structure Caller.Is (place : Nat) (a : Caller Int) (t : Thread α) : Prop where
  ops : t.ops = left place a.state
  answer : ∀ reply, a.state = .returns reply → t.answer = some reply.answer

/-- Where each thread that has called the monitor at `place` sits among the callers. -/
structure Seated (place : Nat) (threads : List (Thread α)) (callers : List (Caller Int))
    (seat : Nat → Option Nat) : Prop where
  apart : ∀ i j k, seat i = some k → seat j = some k → i = j
  seated : ∀ i k, seat i = some k →
    ∃ t a, threads[i]? = some t ∧ callers[k]? = some a ∧ a.Is place t
  calling : ∀ i t, threads[i]? = some t → t.Calls place → ∃ k, seat i = some k

variable {place : Nat} {a : Caller Int} {t : Thread α} {threads threads' : List (Thread α)}
  {callers : List (Caller Int)} {seat : Nat → Option Nat}

theorem Caller.Is.wake (is : a.Is place t) : a.wake.Is place t.wake := by
  obtain ⟨asked, state, wakes⟩ := a
  cases state with
  | returns reply => exact ⟨by rw [Thread.wake, is.ops]; rfl, is.answer⟩
  | goes call =>
      have ops : t.wake.ops = [.monitor place call.wake] := by rw [Thread.wake, is.ops]; rfl
      cases asleep : call.asleep with
      | true =>
          rw [Caller.wake_of_asleep asked wakes asleep]
          exact ⟨ops, fun _ returned => by cases returned⟩
      | false =>
          rw [Call.wake_of_awake asleep] at ops
          rw [Caller.wake_of_goes asked wakes asleep]
          exact ⟨ops, fun _ returned => by cases returned⟩

theorem Caller.Is.awake (is : a.Is place t)
    (up : ∀ op rest, t.ops = op :: rest → op.sleepsAt ≠ some (.monitor place)) :
    a.asleep = false := by
  obtain ⟨asked, state, wakes⟩ := a
  cases state with
  | returns reply => rfl
  | goes call =>
      have awake := up _ _ is.ops
      simpa [Op.sleepsAt, Caller.asleep] using awake

/-- A seated thread that has a turn is calling the monitor. -/
theorem Caller.Is.calls (is : a.Is place t) {op : Op α} {rest : List (Op α)}
    (ops : t.ops = op :: rest) : ∃ call, a.state = .goes call ∧ op = .monitor place call := by
  have has := is.ops.symm.trans ops
  cases state : a.state with
  | goes call =>
      rw [state] at has
      exact ⟨call, rfl, (List.cons.inj has).1.symm⟩
  | returns reply =>
      rw [state] at has
      cases has

/-- Callers that have not noticed yet that their threads have been woken get up. -/
theorem Seated.of_stirred {start : Monitor Int} {visits : List (Visit Int)} {m : Monitor Int}
    (run : Run start visits ⟨m, callers⟩) (apart : ∀ i j k, seat i = some k → seat j = some k → i = j)
    (near : ∀ i k, seat i = some k → ∃ t a, threads[i]? = some t ∧ callers[k]? = some a ∧
      (a.Is place t ∨ a.wake.Is place t))
    (calling : ∀ i t, threads[i]? = some t → t.Calls place → ∃ k, seat i = some k) :
    ∃ callers', Run start visits ⟨m, callers'⟩ ∧ Seated place threads callers' seat := by
  classical
  let stirs (k : Nat) : Bool :=
    decide (∃ i t a, seat i = some k ∧ threads[i]? = some t ∧ callers[k]? = some a ∧ ¬a.Is place t)
  refine ⟨_, run.stirred stirs callers.length, apart, ?_, calling⟩
  intro i k sits
  obtain ⟨t, a, got, caller, is⟩ := near i k sits
  refine ⟨t, if k < callers.length ∧ stirs k = true then a.wake else a, got, ?_, ?_⟩
  · rw [List.getElem?_mapIdx, caller]
    rfl
  · have inside : k < callers.length := (List.getElem?_eq_some_iff.mp caller).1
    by_cases here : a.Is place t
    · have still : ¬stirs k = true := by
        rw [decide_eq_true_eq]
        rintro ⟨j, t', a', sits', got', caller', isNot⟩
        obtain rfl := apart i j k sits sits'
        obtain rfl := Option.some.inj (got.symm.trans got')
        obtain rfl := Option.some.inj (caller.symm.trans caller')
        exact isNot here
      rwa [if_neg fun h => still h.2]
    · have stirred : stirs k = true := decide_eq_true ⟨i, t, a, sits, got, caller, here⟩
      rw [if_pos ⟨inside, stirred⟩]
      exact is.resolve_left here

/-- The monitor at `place` and the threads that have called it are a crowd. -/
def Attended (place : Nat) (m : Monitor Int) (threads : List (Thread α)) : Prop :=
  ∃ (start : Monitor Int) (visits : List (Visit Int)) (callers : List (Caller Int))
    (seat : Nat → Option Nat), start.terminated = false ∧ Crowd.Run start visits ⟨m, callers⟩ ∧
      Seated place threads callers seat

end Monitor

namespace World

open Monitor

variable {u w v : World α} {index place : Nat} {t : Thread α} {m : Monitor Int} {old tail : List (Op α)} {e : Effect α}

theorem Orderly.command_alone (orderly : w.Orderly) (ht : t ∈ w.threads) {command : Command α}
    {rest : List (Op α)} (ops : t.ops = .command command :: rest) : rest = [] := by
  have stack := orderly.ordered t ht
  rw [ops] at stack
  have before := stack.1
  rw [List.append_nil] at before
  cases before
  rfl

/-- A thread that calls a monitor after a turn did so before, or the turn has left it that to do. -/
theorem Took.calling (took : w.Took v index t old tail e) {i : Nat} {u : Thread α}
    (got : v.threads[i]? = some u) (calls : u.Calls place) :
    (∃ u', w.threads[i]? = some u' ∧ u'.Calls place) ∨
      (i = index ∧ ∃ op ∈ e.ops, op.Enters place) := by
  rcases Nat.lt_or_ge i w.threads.length with there | new
  · have was := List.getElem?_eq_getElem there
    rcases took.thread_at was got with ⟨-, rfl | rfl⟩ | ⟨rfl, same, answer, -, after⟩
    · exact .inl ⟨_, was, calls⟩
    · exact .inl ⟨_, was, (Thread.calls_wake _).mp calls⟩
    · have calls : Thread.Calls place { t with ops := e.ops ++ tail, answer } := by
        rcases after with rfl | rfl
        · exact calls
        · exact (Thread.calls_wake _).mp calls
      obtain ⟨op, mem, enters⟩ := calls
      rcases List.mem_append.mp mem with fresh | kept
      · exact .inr ⟨rfl, op, fresh, enters⟩
      · exact .inl ⟨t, took.got, op, by rw [took.ops]; exact List.mem_append_right _ kept, enters⟩
  · obtain ⟨pick, answer, -, threads⟩ := took.threads
    have birth : u ∈ e.births := by
      have length : (rouse e.alarm pick (w.threads.set index
          { t with ops := e.ops ++ tail, answer })).length = w.threads.length := by
        simpa using congrArg List.length (map_who_rouse e.alarm pick
          (w.threads.set index { t with ops := e.ops ++ tail, answer }))
      rw [threads, List.getElem?_append_right (by omega)] at got
      exact List.mem_of_getElem? got
    obtain ⟨p, j, name, rfl, -⟩ := took.birth birth
    obtain ⟨op, mem, enters⟩ := calls
    rw [List.mem_singleton.mp mem] at enters
    exact enters.elim

/-- What a turn of another thread makes of the threads that have called the monitor. -/
theorem Took.near (took : w.Took v index t old tail e) {callers : List (Caller Int)}
    {seat : Nat → Option Nat} (seated : Seated place w.threads callers seat) {i k : Nat}
    (sits : seat i = some k) (apart : i ≠ index) :
    ∃ t a, v.threads[i]? = some t ∧ callers[k]? = some a ∧ (a.Is place t ∨ a.wake.Is place t) := by
  obtain ⟨u, a, got, caller, is⟩ := seated.seated i k sits
  obtain ⟨u', got', -⟩ := took.stays got
  refine ⟨u', a, got', caller, ?_⟩
  rcases took.thread_at got got' with ⟨-, rfl | rfl⟩ | ⟨here, -⟩
  · exact .inl is
  · exact .inr is.wake
  · exact absurd here apart

variable {start : Monitor Int} {visits : List (Monitor.Visit Int)} {callers callers' : List (Caller Int)}
  {seat : Nat → Option Nat} {m' : Monitor Int} {call : Call Int}

/-- A turn that calls the monitor neither before nor afterwards leaves everybody where he sits. -/
theorem Took.attended_of_calm (took : w.Took v index t old tail e)
    (seated : Seated place w.threads callers seat) (calm : ∀ op ∈ t.ops.head?, ¬op.Enters place)
    (ready : t.ops ≠ []) (quiet : ∀ op ∈ e.ops, ¬op.Enters place)
    (fair : start.terminated = false) (run : Crowd.Run start visits ⟨m', callers'⟩)
    (kept : ∀ (k : Nat) (a : Caller Int), callers[k]? = some a → callers'[k]? = some a) :
    Attended place m' v.threads := by
  have aside : ∀ i k, seat i = some k → i ≠ index := by
    rintro i k sits rfl
    obtain ⟨u, a, got, -, is⟩ := seated.seated i k sits
    obtain rfl := Option.some.inj (took.got.symm.trans got)
    obtain ⟨op, rest, ops⟩ := List.exists_cons_of_ne_nil ready
    obtain ⟨call, -, rfl⟩ := is.calls ops
    have head : t.ops.head? = some (.monitor place call) := by rw [ops, List.head?_cons]
    exact calm _ head rfl
  obtain ⟨callers'', run', seated'⟩ := Seated.of_stirred run seated.apart
    (fun i k sits => by
      obtain ⟨u, a, got, caller, is⟩ := took.near seated sits (aside i k sits)
      exact ⟨u, a, got, kept k a caller, is⟩)
    (fun i u got calls => by
      rcases took.calling got calls with ⟨u', got', calls'⟩ | ⟨-, op, mem, enters⟩
      · exact seated.calling i u' got' calls'
      · exact absurd enters (quiet op mem))
  exact ⟨start, visits, callers'', seat, fair, run', seated'⟩

/-- Everybody stays where he sits, and the thread at `index` sits down at the end. -/
theorem of_update {seat : Nat → Option Nat} {index last i k : Nat}
    (sits : Function.update seat index (some last) i = some k) :
    (i = index ∧ k = last) ∨ (i ≠ index ∧ seat i = some k) := by
  by_cases here : i = index
  · rw [here, Function.update_self] at sits
    exact .inl ⟨here, (Option.some.inj sits).symm⟩
  · rw [Function.update_of_ne here] at sits
    exact .inr ⟨here, sits⟩

/-- A thread that begins a call takes the next seat. -/
theorem Took.attended_of_begun (took : w.Took v index t old [] e)
    (seated : Seated place w.threads callers seat) (ops : e.ops = [.monitor place call])
    (fresh : call.Fresh) (fair : start.terminated = false)
    (run : Crowd.Run start visits ⟨m, callers⟩) : Attended place m v.threads := by
  have next := run.next (.comes call fresh)
  have inside : ∀ {i k}, seat i = some k → k < callers.length := by
    intro i k sits
    obtain ⟨-, a, -, caller, -⟩ := seated.seated i k sits
    exact (List.getElem?_eq_some_iff.mp caller).1
  have apart : ∀ i j k, Function.update seat index (some callers.length) i = some k →
      Function.update seat index (some callers.length) j = some k → i = j := by
    intro i j k left right
    rcases of_update left with ⟨rfl, rfl⟩ | ⟨-, left⟩
    · rcases of_update right with ⟨rfl, -⟩ | ⟨-, right⟩
      · rfl
      · exact absurd (inside right) (Nat.lt_irrefl _)
    · rcases of_update right with ⟨-, rfl⟩ | ⟨-, right⟩
      · exact absurd (inside left) (Nat.lt_irrefl _)
      · exact seated.apart i j k left right
  have near : ∀ i k, Function.update seat index (some callers.length) i = some k →
      ∃ t a, v.threads[i]? = some t ∧ (callers ++ [Caller.new call])[k]? = some a ∧
        (a.Is place t ∨ a.wake.Is place t) := by
    intro i k sits
    rcases of_update sits with ⟨rfl, rfl⟩ | ⟨apart, sits⟩
    · obtain ⟨u, got, -⟩ := took.stays took.got
      refine ⟨u, Caller.new call, got, by simp, ?_⟩
      rcases took.thread_at took.got got with ⟨apart, -⟩ | ⟨-, -, answer, -, rfl | rfl⟩
      · exact absurd rfl apart
      · exact .inl ⟨by rw [ops]; rfl, nofun⟩
      · refine .inr (Caller.Is.wake ⟨?_, nofun⟩)
        rw [ops]
        rfl
    · obtain ⟨u, a, got, caller, is⟩ := took.near seated sits apart
      exact ⟨u, a, got, (List.getElem?_append_left (inside sits)).trans caller, is⟩
  have calling : ∀ i u, v.threads[i]? = some u → u.Calls place →
      ∃ k, Function.update seat index (some callers.length) i = some k := by
    intro i u got calls
    by_cases here : i = index
    · exact ⟨callers.length, by rw [here, Function.update_self]⟩
    · rcases took.calling got calls with ⟨u', got', calls'⟩ | ⟨same, -⟩
      · obtain ⟨k, sits⟩ := seated.calling i u' got' calls'
        exact ⟨k, by rwa [Function.update_of_ne here]⟩
      · exact absurd same here
  obtain ⟨callers', run', seated'⟩ := Seated.of_stirred next apart near calling
  exact ⟨start, _, callers', _, fair, run', seated'⟩

/-- The caller whose turn it is, after the turn. -/
theorem Took.near_self (took : w.Took v index t old [] e) {a : Caller Int}
    {turned : Turned Int (Call Int) (Reply Int)} (turn : call.turn m = some turned)
    (ops : e.ops = Monitor.left place turned.next) (answer : e.answer = told turned.next) {k pick : Nat}
    (here : (callers.set k { a with state := turned.next })[k]? =
      some { a with state := turned.next }) :
    ∃ t b, v.threads[index]? = some t ∧
      (Monitor.rouse Caller.wake turned.wake pick
          (callers.set k { a with state := turned.next }))[k]? = some b ∧
        (b.Is place t ∨ b.wake.Is place t) := by
  obtain ⟨u, got, -⟩ := took.stays took.got
  have is : ({ a with state := turned.next } : Caller Int).Is place u ∨
      (Caller.wake { a with state := turned.next }).Is place u := by
    rcases took.thread_at took.got got with ⟨apart, -⟩ | ⟨-, -, told, given, now⟩
    · exact absurd rfl apart
    · have is : ({ a with state := turned.next } : Caller Int).Is place
          { t with ops := e.ops ++ [], answer := told } := by
        refine ⟨by rw [ops, List.append_nil], fun reply next => given _ ?_⟩
        rw [answer, show turned.next = .returns reply from next]
        rfl
      rcases now with rfl | rfl
      · exact .inl is
      · exact .inr is.wake
  -- Whoever goes on has woken nobody, and whoever returns is not asleep.
  cases next : turned.next with
  | returns reply =>
      rw [next] at is here
      refine ⟨u, _, got, ?_, is⟩
      rcases Monitor.getElem?_rouse Caller.wake turned.wake pick here with same | same <;> exact same
  | goes sleeper =>
      rw [next] at is here
      rw [(Call.goes_of_turn turn next).2.2]
      exact ⟨u, _, got, here, is⟩

/-- Another caller after a turn on the monitor. -/
theorem Took.near_other (took : w.Took v index t old tail e) (orderly : w.Orderly)
    (seated : Seated place w.threads callers seat)
    {turned : Turned Int (Call Int) (Reply Int)} (alarm : e.alarm = .of (.monitor place) turned.wake)
    {a : Caller Int} {i j k : Nat} (sits : seat i = some j) (apart : i ≠ index) (other : k ≠ j) :
    ∃ t b, v.threads[i]? = some t ∧
      (Monitor.rouse Caller.wake turned.wake callers.length (callers.set k a))[j]? = some b ∧
        (b.Is place t ∨ b.wake.Is place t) := by
  obtain ⟨u, b, got, caller, is⟩ := took.near seated sits apart
  have kept : (callers.set k a)[j]? = some b := by rw [List.getElem?_set_ne other, caller]
  cases wake : turned.wake with
  | nobody => exact ⟨u, b, got, kept, is⟩
  | one =>
      refine ⟨u, b, got, ?_, is⟩
      have outside : callers.length ≠ j := Nat.ne_of_gt (List.getElem?_eq_some_iff.mp caller).1
      rw [Monitor.rouse, List.getElem?_modify, kept]
      simp only [outside, if_false, id_map']
  | everyone =>
      have woken : (Monitor.rouse Caller.wake .everyone callers.length (callers.set k a))[j]? =
          some b.wake := by
        rw [Monitor.rouse, List.getElem?_map, kept]
        rfl
      refine ⟨u, b.wake, got, woken, ?_⟩
      rcases is with is | is
      · have awake : b.asleep = false := by
          apply is.awake
          intro op rest ops asleep
          refine (took.asleep orderly (List.mem_of_getElem? got) ops asleep).1 ?_
          rw [alarm, wake]
          rfl
        rw [Caller.wake_of_awake awake]
        exact .inl is
      · exact .inl is

/-- A turn of a call on the monitor is a turn of the caller who sits there. -/
theorem Took.attended_of_called (took : w.Took v index t [.monitor place call] [] e)
    (orderly : w.Orderly) {turned : Turned Int (Call Int) (Reply Int)}
    (turn : call.turn m = some turned) (ops : e.ops = Monitor.left place turned.next)
    (answer : e.answer = told turned.next) (alarm : e.alarm = .of (.monitor place) turned.wake)
    (attended : Attended place m w.threads) : Attended place turned.object v.threads := by
  obtain ⟨start, visits, callers, seat, fair, run, seated⟩ := attended
  have front : t.ops = [.monitor place call] := took.ops
  have calls : t.Calls place := by
    refine ⟨.monitor place call, ?_, rfl⟩
    rw [front]
    exact List.mem_cons_self
  obtain ⟨k, here⟩ := seated.calling index t took.got calls
  obtain ⟨u, a, got, caller, is⟩ := seated.seated index k here
  obtain rfl := Option.some.inj (took.got.symm.trans got)
  obtain ⟨call', due, same⟩ := is.calls front
  obtain ⟨-, rfl⟩ := Op.monitor.inj same
  have next := run.next (.turns callers.length caller due turn)
  have near : ∀ i j, seat i = some j → ∃ t b, v.threads[i]? = some t ∧
      (Monitor.rouse Caller.wake turned.wake callers.length
          (callers.set k { a with state := turned.next }))[j]? = some b ∧
        (b.Is place t ∨ b.wake.Is place t) := by
    intro i j sits
    by_cases self : i = index
    · obtain rfl := Option.some.inj (here.symm.trans (self ▸ sits))
      rw [self]
      exact took.near_self turn ops answer
        (List.getElem?_set_self (List.getElem?_eq_some_iff.mp caller).1)
    · refine took.near_other orderly seated alarm sits self ?_
      rintro rfl
      exact self (seated.apart i index k sits here)
  have calling : ∀ i u, v.threads[i]? = some u → u.Calls place → ∃ j, seat i = some j := by
    intro i u got calls
    rcases took.calling got calls with ⟨u', got', calls'⟩ | ⟨rfl, -⟩
    · exact seated.calling i u' got' calls'
    · exact ⟨k, here⟩
  obtain ⟨callers', run', seated'⟩ := Seated.of_stirred next seated.apart near calling
  exact ⟨start, _, callers', seat, fair, run', seated'⟩

theorem attended_issue (attended : Attended place m w.threads) (command : Command α) :
    Attended place m (w.issue command).threads := by
  obtain ⟨start, visits, callers, seat, fair, run, seated⟩ := attended
  refine ⟨start, visits, callers, seat, fair, run, seated.apart, ?_, ?_⟩
  · intro i k sits
    obtain ⟨t, a, got, caller, is⟩ := seated.seated i k sits
    have bound := (List.getElem?_eq_some_iff.mp got).1
    exact ⟨t, a, by rw [World.issue, List.getElem?_append_left bound, got], caller, is⟩
  · intro i u got calls
    rcases Nat.lt_or_ge i w.threads.length with old | new
    · rw [World.issue, List.getElem?_append_left old] at got
      exact seated.calling i u got calls
    · rw [World.issue, List.getElem?_append_right new] at got
      obtain rfl := List.mem_singleton.mp (List.mem_of_getElem? got)
      obtain ⟨op, mem, enters⟩ := calls
      rw [List.mem_singleton.mp mem] at enters
      exact enters.elim

/-- Nobody calls a monitor that is not there, and one that is there is attended by a crowd. -/
def Crowded (place : Nat) (w : World α) : Prop :=
  (w.store.monitors[place]? = none → ∀ t ∈ w.threads, ¬t.Calls place) ∧
    ∀ m, w.store.monitors[place]? = some m → Attended place m w.threads

/-- The turn of a thread that calls the monitor. -/
theorem Reachable.crowded_of_call (h : w.Reachable) (crowded : w.Crowded place)
    (got : w.threads[index]? = some t) {op : Op α} {rest : List (Op α)} (ops : t.ops = op :: rest)
    (enters : op.Enters place) {pick : Nat} (turn : w.turn index pick = some v) :
    v.Crowded place := by
  have mem := List.mem_of_getElem? got
  obtain ⟨call, rfl⟩ : ∃ call, op = .monitor place call := by
    cases op with
    | monitor p call => exact ⟨call, by rw [show p = place from enters]⟩
    | _ => exact enters.elim
  obtain rfl := h.orderly.monitor_alone mem ops
  obtain ⟨e, heffect, -, took, -⟩ := took_of_effect h.orderly got ops (by rintro ⟨⟩) turn
  cases visits_of_call heffect place with
  | @called m call turned _ found turn after left answer alarm =>
      have attended := took.attended_of_called h.orderly turn left answer alarm (crowded.2 m found)
      rw [← took.store] at after
      refine ⟨fun none => absurd (none.symm.trans after) nofun, fun m' found' => ?_⟩
      obtain rfl := Option.some.inj (after.symm.trans found')
      exact attended
  | apart kept left quiet => exact absurd rfl (left _ List.mem_cons_self)

/-- A command that panics while it has the lock is a caller that changes the value. -/
theorem Took.attended_of_poisoned (took : w.Took v index t old tail e)
    (calm : ∀ op ∈ t.ops.head?, ¬op.Enters place) (ready : t.ops ≠ []) (left : e.ops = [])
    (attended : Attended place m w.threads) (value : Int) :
    Attended place { m with value := value } v.threads := by
  obtain ⟨start, visits, callers, seat, fair, run, seated⟩ := attended
  have came := run.next (.comes (.update fun _ => value) trivial)
  have here : (callers ++ [Caller.new (.update fun _ => value)])[callers.length]? =
      some (Caller.new (.update fun _ => value)) := by simp
  have changed := came.next (.turns 0 here rfl rfl)
  have quiet : ∀ op ∈ e.ops, ¬op.Enters place := by
    rw [left]
    exact fun op mem => absurd mem List.not_mem_nil
  refine took.attended_of_calm seated calm ready quiet fair changed ?_
  intro k a caller
  have inside := (List.getElem?_eq_some_iff.mp caller).1
  simp only [Monitor.rouse]
  rw [List.getElem?_set_ne (Nat.ne_of_gt inside), List.getElem?_append_left inside, caller]

/-- Nobody has called a monitor that is new. -/
theorem Took.attended_of_made (took : w.Took v index t old tail e) (left : e.ops = [])
    (nobody : ∀ u ∈ w.threads, ¬u.Calls place) (value : Int) :
    Attended place ⟨value, false⟩ v.threads := by
  refine ⟨⟨value, false⟩, [], [], fun _ => none, rfl, .start, ?_, ?_, ?_⟩
  · intro i j k sits
    cases sits
  · intro i k sits
    cases sits
  · intro i u got calls
    rcases took.calling got calls with ⟨u', was, calls'⟩ | ⟨-, op, mem, -⟩
    · exact absurd calls' (nobody u' (List.mem_of_getElem? was))
    · rw [left] at mem
      cases mem

/-- The turn of a thread that does something else. -/
theorem Reachable.crowded_of_calm (h : w.Reachable) (crowded : w.Crowded place)
    (got : w.threads[index]? = some t) {op : Op α} {rest : List (Op α)} (ops : t.ops = op :: rest)
    (calm : ¬op.Enters place) {pick : Nat} (turn : w.turn index pick = some v) :
    v.Crowded place := by
  have mem := List.mem_of_getElem? got
  have head : ∀ front ∈ t.ops.head?, ¬front.Enters place := by
    rw [ops, List.head?_cons]
    rintro front ⟨⟩
    exact calm
  have ready : t.ops ≠ [] := by rw [ops]; exact List.cons_ne_nil op rest
  obtain ⟨t', old, tail, e, took, kind⟩ := visits_of_turn h.orderly turn place
  obtain rfl := Option.some.inj (got.symm.trans took.got)
  have front := ops.symm.trans took.ops
  rw [Crowded, took.store]
  cases kind with
  | called found turn after left answer alarm =>
      obtain ⟨rfl, -⟩ := List.cons.inj front
      exact absurd rfl calm
  | begun command there fresh kept left =>
      rw [kept]
      obtain rfl := h.orderly.command_alone mem took.ops
      refine ⟨fun none => (by simp [List.getElem?_eq_getElem there] at none), fun m found => ?_⟩
      obtain ⟨start, visits, callers, seat, fair, run, seated⟩ := crowded.2 m found
      exact took.attended_of_begun seated left fresh fair run
  | @poisoned name m value _ found next after left =>
      rw [after]
      refine ⟨fun none => (by cases none), fun m' found' => ?_⟩
      obtain rfl := Option.some.inj found'
      exact took.attended_of_poisoned head ready left (crowded.2 m found) value
  | made name value new after left =>
      rw [after]
      refine ⟨fun none => (by cases none), fun m' found' => ?_⟩
      obtain rfl := Option.some.inj found'
      have absent := List.getElem?_eq_none (Nat.le_of_eq new)
      exact took.attended_of_made left (crowded.1 absent) value
  | apart kept left quiet =>
      rw [kept]
      refine ⟨fun none u hu calls => ?_, fun m found => ?_⟩
      · obtain ⟨i, got'⟩ := List.getElem?_of_mem hu
        rcases took.calling got' calls with ⟨u', was, calls'⟩ | ⟨-, op, hop, enters⟩
        · exact crowded.1 none u' (List.mem_of_getElem? was) calls'
        · exact quiet op hop enters
      · obtain ⟨start, visits, callers, seat, fair, run, seated⟩ := crowded.2 m found
        exact took.attended_of_calm seated head ready quiet fair run fun k a caller => caller

theorem Reachable.crowded (h : w.Reachable) (place : Nat) : w.Crowded place := by
  induction h with
  | start cells => exact ⟨fun _ t mem => absurd mem List.not_mem_nil, nofun⟩
  | @next w v reachable step ih =>
      cases step with
      | issue command =>
          refine ⟨fun none u hu calls => ?_, fun m found => attended_issue (ih.2 m found) command⟩
          rcases List.mem_append.mp hu with hu | hu
          · exact ih.1 none u hu calls
          · obtain rfl := List.mem_singleton.mp hu
            obtain ⟨op, mem, enters⟩ := calls
            rw [List.mem_singleton.mp mem] at enters
            exact enters
      | turn index pick took =>
          obtain ⟨t, got, due⟩ := Option.bind_eq_some_iff.mp took
          split at due
          · cases due
          rename_i op rest ops
          by_cases enters : op.Enters place
          · exact reachable.crowded_of_call ih got ops enters took
          · exact reachable.crowded_of_calm ih got ops enters took

/-- Whoever calls a monitor is one of a crowd. -/
theorem Reachable.attended (h : w.Reachable) (found : w.store.monitors[place]? = some m) :
    Attended place m w.threads :=
  (h.crowded place).2 m found

end World

end WorkerPool
