import WorkerPool.Proofs.Wakeups

/-! Who can hold up a thread. An operation that is due cannot take its turn only if it is asleep, if
it is a function that stands before a gate, or if it waits for another thread to end. Most
operations are urgent: they can take a turn, and whatever stands in front of them is urgent, too. So
where no thread can take a turn there are no urgent operations at all: no bell is about to be rung,
no completion to be counted, no ring to be drained and no worker to be started. -/

namespace WorkerPool

variable {α : Type}

namespace Op

/-- What may not be able to take a turn. Of the calls on objects that no pool has nothing is said.
-/
inductive Waits : Op α → Prop
  | asleep (op : Op α) (bell : Bell) (sleeps : op.sleepsAt = some bell) : Waits op
  | inside (origin : Origin) (position : Nat) (program : Program) (later : List Program) :
      Waits (.code origin position (some program) later)
  | joining (p i : Nat) : Waits (.join p i true)
  | monitor (place : Nat) (call : Monitor.Call Int) : Waits (.monitor place call)
  | channel (place : Nat) (call : Channel.Call α) : Waits (.channel place call)

/-- The operation can take a turn, and nothing but such operations can stand in front of it. -/
def Urgent : Op α → Prop
  | .command _ | .code _ _ none _ | .spawn .. | .shutDown .. => True
  | .latch _ (.running ..) _ => False
  | .latch _ call _ => call.asleep = false
  | .backlog _ call => call.asleep = false
  | .submit _ (.send call) => call.asleep = false
  | .submit .. => True
  | .work _ _ .start | .work _ _ (.begin _) | .work _ _ (.receive (.announce _)) => True
  | _ => False

theorem Urgent.goes {op : Op α} (urgent : op.Urgent) : ¬op.Waits := by
  rintro ⟨op, bell, sleeps⟩
  · cases op with
    | latch l call waiter =>
        cases call with
        | running => exact urgent
        | _ => simp [sleepsAt, show _ = false from urgent] at sleeps
    | backlog p call => simp [sleepsAt, show call.asleep = false from urgent] at sleeps
    | submit sub phase =>
        cases phase with
        | send call => simp [sleepsAt, show call.asleep = false from urgent] at sleeps
        | _ => cases sleeps
    | work p i phase =>
        cases phase with
        | receive call =>
            cases call with
            | announce => cases sleeps
            | _ => exact urgent
        | _ => cases sleeps
    | monitor | channel => exact urgent
    | _ => cases sleeps
  all_goals exact urgent

theorem Resumes.not_urgent {op : Op α} {rest : List (Op α)} (h : Resumes (op :: rest)) :
    ¬op.Urgent := by
  cases h <;> exact id

/-- What stands behind a count that is no failure can be put off. -/
theorem AfterCount.not_urgent {l : Nat} {failed : Bool} {op : Op α} {rest : List (Op α)}
    (h : AfterCount l failed (op :: rest)) (fine : failed = false) : ¬op.Urgent := by
  cases h with
  | called _ back => exact back.not_urgent
  | duty | performed => exact id
  | settled => cases fine

/-- In front of an urgent operation stands another one. -/
theorem Before.urgent {who : Who} {op op' : Op α} {rest : List (Op α)}
    (before : op.Before who (op' :: rest)) (urgent : op'.Urgent) : op.Urgent := by
  cases before with
  | code _ _ current _ after =>
      refine absurd urgent ?_
      cases after with
      | caller back => exact back.not_urgent
      | latchMade | batch | finale | item => exact id
  | count | latchAnnounce | terminate | leave | backlogAnnounce => rfl
  | shutDown => trivial
  | running _ _ _ after => exact absurd urgent (after.not_urgent rfl)
  | waitTicket _ _ _ _ after =>
      rcases after with hnil | ⟨p, hcons⟩
      · cases hnil
      · cases hcons
        exact urgent.elim
  | waitRefused _ _ _ _ _ after | submit _ _ _ _ after =>
      cases after
      exact urgent.elim
  | awaitIdle => exact urgent.elim
  | join _ _ _ after | release _ after =>
      cases after with
      | hand => exact urgent.elim
      | resumes back => exact absurd urgent back.not_urgent
  | hand _ _ after | answer _ after =>
      rcases after with ⟨hnil, -⟩ | ⟨p, rest', hcons⟩
      · cases hnil
      · cases hcons
        exact urgent.elim

/-- Where there is an urgent operation, the one that is due is urgent, too. -/
theorem Leads.urgent {who : Who} {ops : List (Op α)} (stack : Leads who ops []) {op : Op α}
    (hop : op ∈ ops) (urgent : op.Urgent) : ∃ due rest, ops = due :: rest ∧ due.Urgent := by
  induction ops with
  | nil => cases hop
  | cons op' ops ih =>
      rcases List.mem_cons.mp hop with rfl | hop
      · exact ⟨op, ops, rfl, urgent⟩
      · obtain ⟨due, rest, rfl, hdue⟩ := ih stack.2 hop
        refine ⟨op', due :: rest, rfl, ?_⟩
        have before := stack.1
        rw [List.append_nil] at before
        exact before.urgent hdue

end Op

section Calls

variable {σ β : Type}

theorem Monitor.isSome_lookWhile (m : Monitor σ) (holds : σ → Bool) {stage : Stage}
    (awake : (stage == .asleep) = false) : (m.lookWhile holds stage).isSome = true := by
  cases stage with
  | asleep => cases awake
  | arriving | woken => rfl

theorem Channel.Call.isSome_turn (c : Channel β) {call : Channel.Call β}
    (awake : call.asleep = false) : (call.turn c).isSome = true := by
  cases call with
  | send item stage =>
      rw [turn, Option.isSome_map]
      exact Monitor.isSome_lookWhile c _ awake
  | receive stage =>
      rw [turn, Option.isSome_map]
      exact Monitor.isSome_lookWhile c _ awake
  | _ => rfl

theorem Latch.Call.isSome_turn (l : Latch) {call : Latch.Call} (awake : call.asleep = false) :
    (call.turn l).isSome = true := by
  cases call with
  | wait stage =>
      rw [turn, Option.isSome_map]
      exact Monitor.isSome_lookWhile l _ awake
  | _ => rfl

theorem Backlog.Call.isSome_turn (b : Backlog) {call : Backlog.Call} (awake : call.asleep = false) :
    (call.turn b).isSome = true := by
  cases call with
  | awaitIdle stage =>
      rw [turn, Option.isSome_map]
      exact Monitor.isSome_lookWhile b _ awake
  | _ => rfl

end Calls

namespace World

variable {w : World α} {t : Thread α}

/-- Whatever does not wait can take its turn. -/
theorem Reachable.isSome_effect (h : w.Reachable) (ht : t ∈ w.threads) {op : Op α}
    (hop : op ∈ t.ops) (goes : ¬op.Waits) (around : Around) (who : Who) :
    (op.effect around w.store who).isSome = true := by
  have known := h.known.ops t ht op hop
  have hpool : ∀ {p : Nat}, p < w.store.pools.length → ∃ pool, w.store.pools[p]? = some pool :=
    fun hp => ⟨_, List.getElem?_eq_getElem hp⟩
  have hawake : op.sleepsAt = none := by
    cases hbell : op.sleepsAt with
    | none => rfl
    | some bell => exact absurd (.asleep op bell hbell) goes
  cases op with
  | command | answer => rfl
  | hand ticket name => cases name <;> rfl
  | monitor place call => exact absurd (.monitor place call) goes
  | channel place call => exact absurd (.channel place call) goes
  | code origin position current later =>
      cases current with
      | some program => exact absurd (.inside origin position program later) goes
      | none => cases later <;> rfl
  | latch l call waiter =>
      rw [Op.effect, List.getElem?_eq_getElem known.1, Option.bind_some, Latch.Call.effect,
        Option.isSome_map]
      exact Latch.Call.isSome_turn _ (by simpa [Op.sleepsAt] using hawake)
  | backlog p call =>
      obtain ⟨pool, found⟩ := hpool known
      rw [Op.effect, found, Option.bind_some, Backlog.Call.effect, Option.isSome_map]
      exact Backlog.Call.isSome_turn _ (by simpa [Op.sleepsAt] using hawake)
  | submit sub phase =>
      obtain ⟨pool, found⟩ := hpool (h.known.store.pools _ _ known.1)
      rw [Op.effect, found, Option.bind_some]
      cases phase with
      | next =>
          rw [SubmissionPhase.effect]
          cases sub.rest <;> rfl
      | send call =>
          rw [SubmissionPhase.effect, Option.isSome_map]
          exact Channel.Call.isSome_turn _ (by simpa [Op.sleepsAt] using hawake)
      | _ => rfl
  | construct construction succeeded =>
      cases construction with
      | latch => rfl
      | submission p batch id asker =>
          obtain ⟨who', issued⟩ := known
          obtain ⟨pool, found⟩ := hpool (h.known.entries who' _ issued)
          rw [Op.effect, Construction.effect, found]
          rfl
  | work p i phase =>
      obtain ⟨pool, found⟩ := hpool known.1
      rw [Op.effect, found, Option.bind_some]
      cases phase with
      | receive call =>
          rw [WorkerPhase.effect, Option.isSome_map]
          exact Channel.Call.isSome_turn _ (by simpa [Op.sleepsAt] using hawake)
      | running item panic => cases panic <;> rfl
      | _ => rfl
  | shutDown p phase =>
      obtain ⟨pool, found⟩ := hpool known.1
      rw [Op.effect, found, Option.bind_some]
      cases phase with
      | call call =>
          obtain ⟨above, rest, -, before⟩ := (h.orderly.ordered t ht).before hop
          rw [ShutdownPhase.effect, Option.isSome_map]
          have closes : call.Closes := before.proper
          exact Channel.Call.isSome_turn _ (by cases call <;> first | rfl | exact closes.elim)
      | _ => rfl
  | spawn p i name =>
      obtain ⟨pool, found⟩ := hpool known
      rw [Op.effect, found]
      rfl
  | join p i waiting =>
      obtain ⟨pool, found⟩ := hpool known
      cases waiting with
      | true => exact absurd (.joining p i) goes
      | false =>
          rw [Op.effect, found, Option.bind_some, Op.joinEffect]
          split
          · rfl
          · simp only [Bool.false_eq_true, if_false]
            split <;> rfl
  | release p =>
      obtain ⟨pool, found⟩ := hpool known
      rw [Op.effect, found]
      rfl

theorem Reachable.isSome_turn (h : w.Reachable) {index : Nat} (got : w.threads[index]? = some t)
    {op : Op α} {rest : List (Op α)} (ops : t.ops = op :: rest) (goes : ¬op.Waits) (pick : Nat) :
    (w.turn index pick).isSome = true := by
  rw [turn_eq got ops]
  refine Option.isSome_map.trans ?_
  exact h.isSome_effect (List.mem_of_getElem? got) (ops ▸ List.mem_cons_self) goes _ _

/-! ### Where no thread can take a turn -/

/-- Whom a turn wakes does not matter to whether it can be taken. -/
theorem quiescent_iff (w : World α) :
    w.Quiescent ↔ ∀ index < w.threads.length, (w.turn index 0).isNone = true := by
  constructor
  · exact fun quiet index _ => Option.isNone_iff_eq_none.mpr (quiet index 0)
  · intro hnone index pick
    rw [turn]
    cases got : w.threads[index]? with
    | none => rfl
    | some t =>
        have still := hnone index (List.getElem?_eq_some_iff.mp got).1
        rw [turn, got, Option.bind_some, Option.isNone_iff_eq_none] at still
        rw [Option.bind_some]
        cases hops : t.ops with
        | nil => rfl
        | cons op rest =>
            rw [hops] at still
            exact Option.map_eq_none_iff.mpr (Option.map_eq_none_iff.mp still)

instance (w : World α) : Decidable w.Quiescent :=
  decidable_of_iff _ w.quiescent_iff.symm

theorem Quiescent.effect_eq_none (quiet : w.Quiescent) {index : Nat}
    (got : w.threads[index]? = some t) {op : Op α} {rest : List (Op α)} (ops : t.ops = op :: rest) :
    op.effect (w.around index) w.store t.who = none := by
  have hturn := quiet index 0
  rw [turn_eq got ops] at hturn
  exact Option.map_eq_none_iff.mp hturn

/-- The operation that is due in a thread waits. -/
theorem Quiescent.waits (quiet : w.Quiescent) (h : w.Reachable) (ht : t ∈ w.threads) {op : Op α}
    {rest : List (Op α)} (ops : t.ops = op :: rest) : op.Waits := by
  obtain ⟨index, got⟩ := List.mem_iff_getElem?.mp ht
  by_contra goes
  have hop : op ∈ t.ops := ops ▸ List.mem_cons_self
  have hsome := h.isSome_effect ht hop goes (w.around index) t.who
  rw [quiet.effect_eq_none got ops] at hsome
  cases hsome

theorem Quiescent.not_urgent (quiet : w.Quiescent) (h : w.Reachable) (ht : t ∈ w.threads)
    {op : Op α} (hop : op ∈ t.ops) : ¬op.Urgent := by
  intro urgent
  obtain ⟨due, rest, ops, hdue⟩ := (h.orderly.ordered t ht).urgent hop urgent
  exact hdue.goes (quiet.waits h ht ops)

/-- No bell is about to be rung, so every sleeper is held back. -/
theorem Quiescent.held (quiet : w.Quiescent) (h : w.Reachable) (ht : t ∈ w.threads) {op : Op α}
    {rest : List (Op α)} {bell : Bell} (ops : t.ops = op :: rest)
    (asleep : op.sleepsAt = some bell) : op.Held w.store := by
  refine (h.wakeful t ht op rest bell ops asleep).resolve_right fun alarms => ?_
  have silent : w.alarms bell = 0 := by
    refine load_eq_zero _ fun u hu op' hop => ?_
    by_contra rings
    refine quiet.not_urgent h hu hop ?_
    unfold Op.rings at rings
    split at rings
    all_goals first | rfl | trivial
  omega

/-- The ring of a pool that is down is empty. -/
theorem Quiescent.ring_of_down (quiet : w.Quiescent) (h : w.Reachable) {p : Nat}
    (down : w.store.IsDown p) : w.store.ring p = [] := by
  refine (h.closed.drained p down).resolve_right fun draining => ?_
  have through : w.load (fun _ => Op.draining p) = 0 := by
    refine load_eq_zero _ fun u hu op hop => ?_
    by_contra drains
    refine quiet.not_urgent h hu hop ?_
    unfold Op.draining at drains
    split at drains
    · trivial
    · exact absurd rfl drains
  omega

end World

end WorkerPool
