import Mathlib.Tactic.Abel
import WorkerPool.Proofs.Channels

/-! The way of the items through a channel. Every move on a channel hands items on: from the sender
into the ring, from the ring to whoever takes them out, from there to the caller, or back to the
sender. What one move does is said once, as a balance of what was somewhere before and is somewhere
afterwards. From this it follows for every run that nothing gets lost or is there twice, and that
items leave the ring in the order in which they were put in. -/

namespace WorkerPool

variable {α : Type}

namespace Channel

/-- The items that a reply hands over. -/
def Reply.items : Reply α → List α
  | .received (some x) => [x]
  | .drained xs => xs
  | _ => []

/-- The item of a send that has been neither put into the ring nor given back. -/
def Call.brings : Call α → List α
  | .offer x | .send x _ | .announce (.givenBack x) => [x]
  | _ => []

/-- The items that a call has taken out of the ring and has not returned yet. -/
def Call.takes : Call α → List α
  | .announce reply => reply.items
  | _ => []

namespace Move

/-- The item that is given to a send. -/
def offered : Move α → List (Who × α)
  | ⟨who, none, .goes (.offer x)⟩ => [(who, x)]
  | _ => []

/-- The item that a send gives back. -/
def givenBack : Move α → List (Who × α)
  | ⟨who, _, .returns (.givenBack x)⟩ => [(who, x)]
  | _ => []

/-- The item that is put into the ring. -/
def pushed : Move α → List (Who × α)
  | ⟨who, some (.send x _), .goes (.announce .sent)⟩ => [(who, x)]
  | _ => []

/-- The items that are taken out of the ring. -/
def popped : Move α → List (Who × α)
  | ⟨who, _, .goes (.announce reply)⟩ => reply.items.map (who, ·)
  | _ => []

/-- The items that a receive or a drain returns. -/
def returned : Move α → List (Who × α)
  | ⟨who, _, .returns reply⟩ => reply.items.map (who, ·)
  | _ => []

/-- What the call has in its hands before the move. -/
def had (f : Call α → List α) (m : Move α) : List (Who × α) :=
  (m.before.toList.flatMap f).map (m.who, ·)

/-- What the call has in its hands after the move. -/
def has (f : Call α → List α) (m : Move α) : List (Who × α) :=
  match m.after with
  | .goes call => (f call).map (m.who, ·)
  | .returns _ => []

/-- The balance of a move that finds the channel `c` and leaves `c'`. -/
structure Balanced (m : Move α) (c c' : Channel α) : Prop where
  brought : m.offered ++ m.had Call.brings = m.givenBack ++ m.has Call.brings ++ m.pushed
  taken : m.popped ++ m.had Call.takes = m.has Call.takes ++ m.returned
  order : c.value.toList ++ m.pushed.map (·.2) = m.popped.map (·.2) ++ c'.value.toList
  valid : c'.value.Valid
  capacity : c'.value.capacity = c.value.capacity

end Move

/-- Beginning a call moves nothing. -/
theorem Call.Fresh.balanced {call : Call α} (fresh : call.Fresh) (who : Who) {c : Channel α}
    (valid : c.value.Valid) : (Move.mk who none (.goes call)).Balanced c c := by
  rcases fresh with ⟨x, rfl⟩ | rfl | rfl | rfl <;>
    exact ⟨by simp [Move.offered, Move.had, Move.givenBack, Move.has, Move.pushed, brings],
      by simp [Move.popped, Move.had, Move.has, Move.returned, takes],
      by simp [Move.pushed, Move.popped], valid, rfl⟩

/-- Every turn of a call is balanced. -/
theorem Call.Turns.balanced {c : Channel α} {call : Call α}
    {turned : Turned (Ring α) (Call α) (Reply α)} (turns : call.Turns c turned) (who : Who)
    (valid : c.value.Valid) : (Move.mk who (some call) turned.next).Balanced c turned.object := by
  cases turns with
  | pushed item stage awake up room =>
      obtain ⟨valid', order⟩ := valid.push room item
      exact ⟨by simp [Move.offered, Move.had, Move.givenBack, Move.has, Move.pushed, brings],
        by simp [Move.popped, Move.had, Move.has, Move.returned, takes, Reply.items],
        by simp [Move.pushed, Move.popped, Reply.items, order], valid', Ring.capacity_push _ _⟩
  | popped stage awake up stock =>
      obtain ⟨x, left, hpop, valid', order, capacity⟩ := valid.pop stock
      simp only [hpop]
      exact ⟨by simp [Move.offered, Move.had, Move.givenBack, Move.has, Move.pushed, brings],
        by simp [Move.popped, Move.had, Move.has, Move.returned, takes, Reply.items],
        by simp [Move.pushed, Move.popped, Reply.items, order], valid', capacity⟩
  | drained =>
      obtain ⟨left, hdrain, valid', empty, capacity⟩ := valid.drain
      simp only [hdrain]
      exact ⟨by simp [Move.offered, Move.had, Move.givenBack, Move.has, Move.pushed, brings],
        by simp [Move.popped, Move.had, Move.has, Move.returned, takes, Reply.items],
        by simp [Move.pushed, Move.popped, Reply.items, empty, Function.comp_def], valid', capacity⟩
  | announced reply =>
      refine ⟨?_, ?_, by simp [Move.pushed, Move.popped], valid, rfl⟩
      · cases reply <;> simp [Move.offered, Move.had, Move.givenBack, Move.has, Move.pushed, brings]
      · simp [Move.popped, Move.had, Move.has, Move.returned, takes]
  | _ =>
      exact ⟨by simp [Move.offered, Move.had, Move.givenBack, Move.has, Move.pushed, brings],
        by simp [Move.popped, Move.had, Move.has, Move.returned, takes, Reply.items],
        by simp [Move.pushed, Move.popped, Monitor.terminate], valid, rfl⟩

end Channel

/-- What the calls on the channel at `place` come to under `f`. -/
def Op.inCall {β : Type} (place : Nat) (f : Channel.Call α → List β) : Op α → List β
  | .channel p call => if p = place then f call else []
  | _ => []

theorem Op.inCall_of_not_on {β : Type} {place : Nat} {op : Op α} (calm : ¬op.On place)
    (f : Channel.Call α → List β) : op.inCall place f = [] := by
  cases op with
  | channel p call => exact if_neg calm
  | _ => rfl

theorem Op.inCall_wake {β : Type} {place : Nat} {f : Channel.Call α → List β}
    (hwake : ∀ call : Channel.Call α, f call.wake = f call) (op : Op α) :
    op.wake.inCall place f = op.inCall place f := by
  cases op with
  | channel p call => simp [Op.wake, inCall, hwake]
  | submit sub phase => cases phase <;> rfl
  | work p i phase => cases phase <;> rfl
  | _ => rfl

namespace World

/-- The items that are in the hands of the calls on the channel at `place`, each with whose call it
is. -/
def hands (place : Nat) (f : Channel.Call α → List α) (w : World α) : Multiset (Who × α) :=
  w.load fun who op => ((op.inCall place f).map (who, ·) : List (Who × α))

/-- How the items of the channel `c` at `place` stand after some moves that have led to the world
`w`. -/
structure Passes (place : Nat) (moves : List (Channel.Move α)) (w : World α) (c : Channel α) :
    Prop where
  order : (moves.flatMap Channel.Move.pushed).map (·.2) =
    (moves.flatMap Channel.Move.popped).map (·.2) ++ c.value.toList
  brought : (moves.flatMap Channel.Move.offered : Multiset (Who × α)) =
    moves.flatMap Channel.Move.givenBack + w.hands place Channel.Call.brings +
      moves.flatMap Channel.Move.pushed
  taken : (moves.flatMap Channel.Move.popped : Multiset (Who × α)) =
    w.hands place Channel.Call.takes + moves.flatMap Channel.Move.returned
  valid : c.value.Valid

variable {w v : World α} {index : Nat} {t : Thread α} {old tail : List (Op α)} {e : Effect α}
  {place : Nat} {moves : List (Channel.Move α)} {c c' : Channel α}

/-- What a turn does to the items in the hands of calls, where the operations it replaces have `was`
in their hands and those it leaves have `is`. -/
theorem Took.hands (took : w.Took v index t old tail e) {f : Channel.Call α → List α}
    (hwake : ∀ call : Channel.Call α, f call.wake = f call) {was now : List (Who × α)}
    (hold : old.flatMap (fun op => (op.inCall place f).map (t.who, ·)) = was)
    (hnew : e.ops.flatMap (fun op => (op.inCall place f).map (t.who, ·)) = now) :
    ∃ r : Multiset (Who × α), w.hands place f = was + r ∧ v.hands place f = now + r := by
  have sum : ∀ ops : List (Op α),
      (ops.map fun op => (((op.inCall place f).map (t.who, ·) : List (Who × α)) :
        Multiset (Who × α))).sum =
          (ops.flatMap fun op => (op.inCall place f).map (t.who, ·) : List (Who × α)) := by
    intro ops
    induction ops with
    | nil => rfl
    | cons op ops ih => rw [List.map_cons, List.sum_cons, ih, List.flatMap_cons, Multiset.coe_add]
  obtain ⟨r, hbefore, hafter⟩ := took.load_of_start
    (fun who op => (((op.inCall place f).map (who, ·) : List (Who × α)) : Multiset (Who × α)))
    (fun who op => by rw [Op.inCall_wake hwake]) fun _ _ _ => rfl
  rw [sum, hold] at hbefore
  rw [sum, hnew] at hafter
  exact ⟨r, hbefore, hafter⟩

theorem Took.hands_of_calm (took : w.Took v index t old tail e) {f : Channel.Call α → List α}
    (hwake : ∀ call : Channel.Call α, f call.wake = f call) (left : ∀ op ∈ old, ¬op.On place)
    (quiet : ∀ op ∈ e.ops, ¬op.On place) : v.hands place f = w.hands place f := by
  have none : ∀ ops : List (Op α), (∀ op ∈ ops, ¬op.On place) →
      ops.flatMap (fun op => (op.inCall place f).map (t.who, ·)) = [] := by
    intro ops calm
    refine List.flatMap_eq_nil_iff.mpr fun op hop => ?_
    rw [Op.inCall_of_not_on (calm op hop), List.map_nil]
  obtain ⟨r, hbefore, hafter⟩ := took.hands hwake (none old left) (none e.ops quiet)
  rw [hbefore, hafter]

theorem brings_wake (call : Channel.Call α) :
    Channel.Call.brings call.wake = Channel.Call.brings call := by
  cases call <;> rfl

theorem takes_wake (call : Channel.Call α) :
    Channel.Call.takes call.wake = Channel.Call.takes call := by
  cases call <;> rfl

/-- A move that is balanced takes the items on. -/
theorem Passes.move (passes : w.Passes place moves c) (took : w.Took v index t old tail e)
    {m : Channel.Move α} (balanced : m.Balanced c c')
    (hold : ∀ f, old.flatMap (fun op => (op.inCall place f).map (t.who, ·)) = m.had f)
    (hnew : ∀ f, e.ops.flatMap (fun op => (op.inCall place f).map (t.who, ·)) = m.has f) :
    v.Passes place (moves ++ [m]) c' := by
  obtain ⟨r, hbefore, hafter⟩ := took.hands brings_wake (hold _) (hnew _)
  obtain ⟨r', hbefore', hafter'⟩ := took.hands takes_wake (hold _) (hnew _)
  have hbrought := congrArg (fun l : List (Who × α) => (l : Multiset (Who × α))) balanced.brought
  have htaken := congrArg (fun l : List (Who × α) => (l : Multiset (Who × α))) balanced.taken
  simp only [← Multiset.coe_add] at hbrought htaken
  constructor
  · simp only [List.flatMap_append, List.flatMap_singleton, List.map_append, passes.order,
      List.append_assoc, balanced.order]
  · simp only [List.flatMap_append, List.flatMap_singleton, ← Multiset.coe_add, passes.brought,
      hbefore, hafter]
    calc _ = moves.flatMap Channel.Move.givenBack + r + moves.flatMap Channel.Move.pushed +
          ((m.offered : Multiset (Who × α)) + m.had Channel.Call.brings) := by abel
      _ = _ := by rw [hbrought]; abel
  · simp only [List.flatMap_append, List.flatMap_singleton, ← Multiset.coe_add, passes.taken,
      hbefore', hafter']
    calc _ = r' + moves.flatMap Channel.Move.returned +
          ((m.popped : Multiset (Who × α)) + m.had Channel.Call.takes) := by abel
      _ = _ := by rw [htaken]; abel
  · exact balanced.valid

/-- The first turn of a command calls nothing. -/
theorem not_on_command (command : Command α) : ∀ op ∈ [Op.command command], ¬op.On place := by
  simp [Op.On]

/-- The state of the items of a run: as the moves have left it if the channel is there, and nothing
at all if it is not. -/
def Passing (place : Nat) (moves : List (Channel.Move α)) (w : World α) : Prop :=
  match w.store.channels[place]? with
  | some c => w.Passes place moves c
  | none => moves = [] ∧ ∀ t ∈ w.threads, ∀ op ∈ t.ops, ¬op.On place

theorem not_on_wake {op : Op α} (calm : ¬op.On place) : ¬op.wake.On place := by
  cases op with
  | channel p call => exact calm
  | submit sub phase => cases phase <;> exact id
  | work p i phase => cases phase <;> exact id
  | _ => exact id

theorem Took.passing {m? : Option (Channel.Move α)} (took : w.Took v index t old tail e)
    (kind : Moves place w.store t.who old e m?) (passing : w.Passing place moves) :
    v.Passing place (moves ++ m?.toList) := by
  unfold Passing at passing ⊢
  rw [took.store]
  cases kind with
  | called found turns after ops alarm =>
      simp only [found] at passing
      simp only [after]
      refine passing.move took (turns.balanced t.who passing.valid) (fun f => ?_) fun f => ?_
      · simp [Op.inCall, Channel.Move.had]
      · rw [ops]
        generalize Turned.next _ = next
        cases next <;> simp [Channel.left, Op.inCall, Channel.Move.has]
  | begun command there fresh kept ops =>
      simp only [List.getElem?_eq_getElem there] at passing
      simp only [kept, List.getElem?_eq_getElem there]
      refine passing.move took (fresh.balanced t.who passing.valid) (fun f => ?_) fun f => ?_
      · simp [Op.inCall, Channel.Move.had]
      · simp [ops, Op.inCall, Channel.Move.has]
  | made name capacity new pos after ops =>
      simp only [List.getElem?_eq_none (Nat.le_of_eq new)] at passing
      obtain ⟨rfl, calm⟩ := passing
      simp only [after]
      have none : ∀ f : Channel.Call α → List α,
          (∀ call : Channel.Call α, f call.wake = f call) → v.hands place f = 0 := by
        intro f hwake
        rw [took.hands_of_calm hwake (not_on_command _) (by simp [ops])]
        exact load_eq_zero _ fun t ht op hop => by rw [Op.inCall_of_not_on (calm t ht op hop)]; rfl
      exact ⟨by simp [Channel.empty, Ring.toList_empty pos], by simp [none _ brings_wake],
        by simp [none _ takes_wake], Ring.valid_empty pos⟩
  | apart kept left quiet =>
      rw [kept]
      cases found : w.store.channels[place]? with
      | some c =>
          simp only [found] at passing
          simp only [Option.toList_none, List.append_nil]
          exact ⟨passing.order,
            by rw [passing.brought, took.hands_of_calm brings_wake left quiet],
            by rw [passing.taken, took.hands_of_calm takes_wake left quiet], passing.valid⟩
      | none =>
          simp only [found] at passing
          refine ⟨by simp [passing.1], took.forall_ops (P := fun _ op => ¬op.On place)
            (fun _ _ => not_on_wake) passing.2 quiet fun _ _ _ _ => id⟩

/-- The moves on the channel at `place` in the turns of a run. -/
def movesOn (place : Nat) (moments : List (Moment α)) : List (Channel.Move α) :=
  moments.filterMap (Moment.move? place)

theorem movesOn_concat (place : Nat) (moments : List (Moment α)) (m : Moment α) :
    movesOn place (moments ++ [m]) = movesOn place moments ++ (m.move? place).toList :=
  filterMap_concat _ moments m

theorem Run.passing {cells : List Int} {moments : List (Moment α)}
    (run : (World.start cells).Run moments w) (place : Nat) :
    w.Passing place (movesOn place moments) := by
  induction run with
  | nil => exact ⟨rfl, by simp [World.start]⟩
  | @issue moments w run command ih =>
      have hands : ∀ f, (w.issue command).hands place f = w.hands place f := fun f => by
        rw [World.hands, load_issue]
        exact add_zero _
      have same : (w.issue command).store = w.store := rfl
      unfold Passing at ih ⊢
      rw [same]
      split at ih
      · exact ⟨ih.order, by rw [hands]; exact ih.brought, by rw [hands]; exact ih.taken, ih.valid⟩
      · exact ⟨ih.1, forall_ops_issue (P := fun _ op => ¬op.On place) ih.2 id⟩
  | turn run index pick took ih =>
      obtain ⟨t, old, tail, e, took, kind⟩ :=
        moves_of_turn (run.reachable (.start cells)).orderly took place
      rw [movesOn_concat]
      exact took.passing kind ih

/-! ### Senders -/

/-- Who makes a move has something to do. -/
theorem of_move? {m : Moment α} {move : Channel.Move α} (h : m.move? place = some move) :
    ∃ t ∈ m.world.threads, t.who = move.who ∧ t.ops ≠ [] := by
  obtain ⟨w, index⟩ := m
  have due : ∃ op, (Moment.mk w index).due? = some (move.who, op) := by
    unfold Moment.move? at h
    split at h
    · rename_i who given due
      split at h
      · split at h
        · obtain rfl := Option.some.inj h
          exact ⟨_, due⟩
        · cases h
      · cases h
    · rename_i who p call due
      split at h
      · obtain ⟨turned, -, rfl⟩ := Option.map_eq_some_iff.mp h
        exact ⟨_, due⟩
      · cases h
    · cases h
  obtain ⟨op, due⟩ := due
  obtain ⟨t, rest, got, who, ops⟩ := of_due? due
  exact ⟨t, List.mem_of_getElem? got, who, by simp [ops]⟩

theorem who_of_mem_pushed {m : Channel.Move α} {sent : Who × α} (h : sent ∈ m.pushed) :
    sent.1 = m.who := by
  unfold Channel.Move.pushed at h
  split at h
  · obtain rfl := List.mem_singleton.mp h
    rfl
  · cases h

/-- What was pushed in a run was pushed in one of its turns. -/
theorem Run.of_mem_pushed {u : World α} {moments : List (Moment α)} (run : u.Run moments w)
    {sent : Who × α} (h : sent ∈ (movesOn place moments).flatMap Channel.Move.pushed) :
    ∃ x, u.Later x ∧ x.Later w ∧ ∃ t ∈ x.threads, t.who = sent.1 ∧ t.ops ≠ [] := by
  obtain ⟨move, hmove, hsent⟩ := List.mem_flatMap.mp h
  obtain ⟨m, hm, hmove⟩ := List.mem_filterMap.mp hmove
  obtain ⟨before, after, v, pick, -, hbefore, took, hafter⟩ := run.of_mem hm
  obtain ⟨t, ht, who, busy⟩ := of_move? hmove
  refine ⟨m.world, hbefore.later, .head (.turn m.index pick took) hafter.later, t, ht, ?_, busy⟩
  rw [who, who_of_mem_pushed hsent]

/-- Where a step has ended before another one is given, the ring gets the items of the one before
those of the other. -/
theorem Run.pushed_in_order {cells : List Int} {before after : List (Moment α)} {x : World α}
    (run : (World.start cells).Run before x) (run' : x.Run after w) {a b : Nat}
    (ended : ∃ t ∈ x.threads, t.who = .step a ∧ t.ended = true) (later : x.steps ≤ b) :
    ∃ front back,
      (movesOn place (before ++ after)).flatMap Channel.Move.pushed = front ++ back ∧
        (∀ sent ∈ front, sent.1 ≠ .step b) ∧ ∀ sent ∈ back, sent.1 ≠ .step a := by
  have reachable := run.reachable (.start cells)
  refine ⟨(movesOn place before).flatMap Channel.Move.pushed,
    (movesOn place after).flatMap Channel.Move.pushed, by simp [movesOn], ?_, ?_⟩
  · intro sent hsent who
    obtain ⟨y, from', to', t, ht, hwho, -⟩ := run.of_mem_pushed hsent
    have given := ((Reachable.start cells).later from').step_lt ht (hwho.trans who)
    exact absurd (to'.steps_le.trans later) (Nat.not_le_of_lt given)
  · intro sent hsent who
    obtain ⟨y, from', -, t, ht, hwho, busy⟩ := run'.of_mem_pushed hsent
    obtain ⟨t', ht', hwho', through⟩ := ended
    exact busy (from'.ended reachable ht' hwho' (List.isEmpty_iff.mp through) t ht (hwho.trans who))

/-- The step numbered `n` makes no call but one on the channel at `place`. -/
def Busy (place n : Nat) (w : World α) : Prop :=
  n < w.steps ∧ ∀ t ∈ w.threads, t.who = .step n → t.ops = [] ∨ ∃ call, t.ops = [.channel place call]

theorem Moves.not_channel {s : Store α} {who : Who} {m? : Option (Channel.Move α)}
    (kind : Moves place s who old e m?) {call : Channel.Call α}
    (ops : old ++ tail = [.channel place call]) (act : Act (w.around index) s who old e) :
    e.ops ++ tail = [] ∨ ∃ call, e.ops ++ tail = [.channel place call] := by
  cases kind with
  | @called c call' turned _ found turns after ops' alarm =>
      obtain ⟨-, rfl⟩ := List.cons.inj ops
      rw [ops', List.append_nil]
      cases turned.next with
      | goes call => exact .inr ⟨call, rfl⟩
      | returns reply => exact .inl rfl
  | begun | made => cases ops
  | apart kept left quiet =>
      cases old with
      | nil =>
          rw [act.ops_of_nil rfl]
          exact .inr ⟨call, ops⟩
      | cons op old =>
          obtain ⟨rfl, -⟩ := List.cons.inj ops
          exact absurd rfl (left _ List.mem_cons_self)

theorem Took.busy_kept {m? : Option (Channel.Move α)} (took : w.Took v index t old tail e)
    (kind : Moves place w.store t.who old e m?) (steps : v.steps = w.steps) {n : Nat}
    (busy : w.Busy place n) : v.Busy place n := by
  refine ⟨steps ▸ busy.1, took.forall_threads
    (P := fun who ops => who = .step n → ops = [] ∨ ∃ call, ops = [.channel place call])
    (fun who op ops h who' => ?_) busy.2 (fun who => ?_) fun b hb who => ?_⟩
  · rcases h who' with h | ⟨call, h⟩
    · cases h
    · obtain ⟨rfl, rfl⟩ := List.cons.inj h
      exact .inr ⟨call.wake, rfl⟩
  · rcases busy.2 t took.mem_threads who with h | ⟨call, h⟩
    · rw [took.ops] at h
      obtain ⟨rfl, rfl⟩ := List.append_eq_nil_iff.mp h
      exact .inl (by rw [took.act.ops_of_nil rfl]; rfl)
    · exact kind.not_channel (took.ops ▸ h) took.act
  · obtain ⟨p, i, name, rfl, -⟩ := took.birth hb
    cases who

/-- Who has begun a call on a channel does nothing else. -/
theorem Took.busy_of_begun (took : w.Took v index t old tail e) (reachable : w.Reachable)
    (reachable' : v.Reachable) {command : Command α} (hold : old = [.command command])
    {call : Channel.Call α} (ops : e.ops = [.channel place call]) :
    ∃ n, t.who = .step n ∧ v.Busy place n := by
  subst hold
  have stack := reachable.orderly.ordered t took.mem_threads
  rw [took.ops] at stack
  obtain ⟨rfl, n, who⟩ : tail = [] ∧ ∃ n, t.who = .step n := by
    have before := stack.1
    simp only [List.append_eq, List.nil_append, List.append_nil] at before
    cases before with
    | command steps =>
        refine ⟨rfl, ?_⟩
        cases hwho : t.who with
        | step n => exact ⟨n, rfl⟩
        | worker p i =>
            rw [hwho] at steps
            exact steps.elim
  obtain ⟨t', after, same, h⟩ := took.stays took.got
  replace h : t'.ops = e.ops ++ [] ∨ t'.ops = (e.ops ++ []).modifyHead Op.wake := by
    rcases h with ⟨apart, -⟩ | ⟨-, h⟩
    · exact absurd rfl apart
    · exact h
  rw [ops] at h
  refine ⟨n, who, reachable'.step_lt (List.mem_of_getElem? after) (same.trans who),
    fun u hu hu' => ?_⟩
  obtain ⟨j, hj⟩ := List.mem_iff_getElem?.mp hu
  obtain rfl := reachable'.step_unique hj after hu' (same.trans who)
  obtain rfl := Option.some.inj (hj.symm.trans after)
  exact .inr (h.elim (⟨call, ·⟩) (⟨call.wake, ·⟩))

theorem offered_of_called {who : Who} {call : Channel.Call α}
    {next : Next (Channel.Call α) (Channel.Reply α)} :
    Channel.Move.offered ⟨who, some call, next⟩ = [] := rfl

/-- A step gives at most one item to a send. -/
theorem Run.offered_once {cells : List Int} {moments : List (Moment α)}
    (run : (World.start cells).Run moments w) (place : Nat) :
    (((movesOn place moments).flatMap Channel.Move.offered).map (·.1)).Nodup := by
  suffices hall : (((movesOn place moments).flatMap Channel.Move.offered).map (·.1)).Nodup ∧
      ∀ who ∈ ((movesOn place moments).flatMap Channel.Move.offered).map (·.1),
        ∃ n, who = .step n ∧ w.Busy place n from hall.1
  induction run with
  | nil => simp [movesOn]
  | @issue moments w run command ih =>
      refine ⟨ih.1, fun who hwho => ?_⟩
      obtain ⟨n, rfl, given, busy⟩ := ih.2 who hwho
      refine ⟨n, rfl, Nat.lt_succ_of_lt given, fun t ht who => ?_⟩
      rcases List.mem_append.mp ht with ht | ht
      · exact busy t ht who
      · obtain rfl := List.mem_singleton.mp ht
        exact absurd (Who.step.inj who) (Nat.ne_of_gt given)
  | @turn moments w v run index pick took ih =>
      have reachable := run.reachable (.start cells)
      have steps := steps_of_turn took
      have reachable' : v.Reachable := .next reachable (.turn index pick took)
      obtain ⟨t, old, tail, e, took, kind⟩ := moves_of_turn reachable.orderly took place
      obtain ⟨nodup, hbusy⟩ := ih
      have kept : ∀ who ∈ ((movesOn place moments).flatMap Channel.Move.offered).map (·.1),
          ∃ n, who = .step n ∧ v.Busy place n := fun who hwho => by
        obtain ⟨n, hn, busy⟩ := hbusy who hwho
        exact ⟨n, hn, took.busy_kept kind steps busy⟩
      rw [movesOn_concat, List.flatMap_append, List.map_append]
      generalize (Moment.mk w index).move? place = m? at kind
      cases kind with
      | called | made | apart => simpa [offered_of_called] using ⟨nodup, by simpa using kept⟩
      | @begun command call _ there fresh same ops =>
          obtain ⟨n, who, busy⟩ := took.busy_of_begun reachable reachable' rfl ops
          have new : t.who ∉ ((movesOn place moments).flatMap Channel.Move.offered).map (·.1) := by
            intro mem
            obtain ⟨n', who', busy'⟩ := hbusy _ mem
            have ht := took.mem_threads
            rcases busy'.2 t ht who' with h | ⟨call', h⟩ <;> rw [took.ops] at h <;> cases h
          have last : (Channel.Move.mk t.who none (.goes call)).offered.map (·.1) = [] ∨
              (Channel.Move.mk t.who none (.goes call)).offered.map (·.1) = [t.who] := by
            rcases fresh with ⟨x, rfl⟩ | rfl | rfl | rfl
            · exact .inr rfl
            all_goals exact .inl rfl
          simp only [Option.toList_some, List.flatMap_singleton]
          rcases last with last | last <;> rw [last]
          · simpa using ⟨nodup, by simpa using kept⟩
          · refine ⟨List.nodup_append.mpr ⟨nodup, by simp, ?_⟩, fun who' hwho' => ?_⟩
            · rintro who' hwho' _ hlast rfl
              exact new (List.mem_singleton.mp hlast ▸ hwho')
            · rcases List.mem_append.mp hwho' with hwho' | hwho'
              · exact kept who' hwho'
              · obtain rfl := List.mem_singleton.mp hwho'
                exact ⟨n, who, busy⟩

/-! ### Channels -/

/-- A channel was made by a command that asked for its capacity. -/
theorem Run.channel_made {cells : List Int} {moments : List (Moment α)}
    (run : (World.start cells).Run moments w) {place : Nat} {c : Channel α}
    (found : w.store.channels[place]? = some c) :
    ∃ m ∈ moments, m.world.store.channels.length = place ∧
      ∃ who name, m.due? = some (who, .command (.newChannel name c.value.capacity)) := by
  induction run generalizing c with
  | nil => cases found
  | issue run command ih => exact ih found
  | @turn moments w v run index pick took ih =>
      have passing := run.passing place
      obtain ⟨t, old, tail, e, took, kind⟩ :=
        moves_of_turn (run.reachable (.start cells)).orderly took place
      have before : ∀ {c' : Channel α}, w.store.channels[place]? = some c' →
          c.value.capacity = c'.value.capacity →
            ∃ m ∈ moments ++ [⟨w, index⟩], m.world.store.channels.length = place ∧
              ∃ who name, m.due? = some (who, .command (.newChannel name c.value.capacity)) := by
        intro c' found' same
        obtain ⟨m, hm, new, who, name, due⟩ := ih found'
        exact ⟨m, List.mem_append_left _ hm, new, who, name, same ▸ due⟩
      rw [took.store] at found
      generalize (Moment.mk w index).move? place = m? at kind
      cases kind with
      | called found' turns after =>
          obtain rfl := Option.some.inj (after.symm.trans found)
          rw [Passing, found'] at passing
          exact before found' (turns.balanced t.who passing.valid).capacity
      | begun command there fresh kept => exact before (kept.symm.trans found) rfl
      | made name capacity new pos after =>
          obtain rfl := Option.some.inj (after.symm.trans found)
          refine ⟨⟨w, index⟩, by simp, new, t.who, name, ?_⟩
          rw [due?_eq took.got took.ops]
          simp [Channel.empty, Ring.empty, Ring.capacity]
      | apart kept => exact before (kept.symm.trans found) rfl

/-- The channel `c` at `place` is an exact queue in a run that has come to the world `w`. The items
that have been pushed are those that have been popped, in the same order, and behind them those that
the ring holds. Every item that was given to a send is with that send, has been given back, or has
been pushed; every item that was popped is in the hands of whoever popped it or has been returned.
The ring was asked for with its capacity, never holds more, and shows how many items it holds. And
what a step has sent before another one was given stands before what the other one has sent. -/
structure ExactQueue (place : Nat) (moments : List (Moment α)) (w : World α) (c : Channel α) :
    Prop extends w.Passes place (movesOn place moments) c where
  once : (((movesOn place moments).flatMap Channel.Move.offered).map (·.1)).Nodup
  asked : ∃ m ∈ moments, m.world.store.channels.length = place ∧
    ∃ who name, m.due? = some (who, .command (.newChannel name c.value.capacity))
  pos : 0 < c.value.capacity
  bounded : c.value.toList.length ≤ c.value.capacity
  shown : (Channel.view c).size = c.value.toList.length
  inOrder : ∀ cells before after (x : World α) a b, moments = before ++ after →
    (World.start cells).Run before x → x.Run after w →
      (∃ t ∈ x.threads, t.who = .step a ∧ t.ended = true) → x.steps ≤ b →
        ∃ front back, (movesOn place moments).flatMap Channel.Move.pushed = front ++ back ∧
          (∀ sent ∈ front, sent.1 ≠ .step b) ∧ ∀ sent ∈ back, sent.1 ≠ .step a

/-- A channel is an exact queue under every interleaving of calls on it by any number of threads. -/
theorem Run.exact_queue {cells : List Int} {moments : List (Moment α)}
    (run : (World.start cells).Run moments w) {place : Nat} {c : Channel α}
    (found : w.store.channels[place]? = some c) : w.ExactQueue place moments c := by
  have passing := run.passing place
  rw [Passing, found] at passing
  have valid : c.value.Represents c.value.toList := passing.valid
  exact {
    toPasses := passing
    once := run.offered_once place
    asked := run.channel_made found
    pos := passing.valid.capacity_pos
    bounded := valid.length_le
    shown := passing.valid.size_eq
    inOrder := by
      rintro cells before after x a b rfl before' after' ended later
      exact before'.pushed_in_order after' ended later }

/-- A channel with room for one item. The first send goes through, the second one sleeps until the
first item has been taken out, and then its item is drained. -/
def handedOver : List (Command Nat) :=
  [.newChannel "q" 1, .onChannel "q" (.send 7), .onChannel "q" (.send 8), .onChannel "q" .receive,
    .onChannel "q" .drain]

theorem exact_queue_of_handedOver :
    ∃ c, (follow 40 handedOver (.start [])).store.channels[0]? = some c ∧
      (follow 40 handedOver (.start [])).ExactQueue 0 (following 40 handedOver (.start [])) c ∧
      (movesOn 0 (following 40 handedOver (.start []))).flatMap Channel.Move.pushed =
        [(.step 1, 7), (.step 2, 8)] ∧
      (movesOn 0 (following 40 handedOver (.start []))).flatMap Channel.Move.popped =
        [(.step 3, 7), (.step 4, 8)] ∧
      c.value.toList = [] := by
  have there : (follow 40 handedOver (.start [])).store.channels[0]?.isSome = true := by decide
  obtain ⟨c, found⟩ := Option.isSome_iff_exists.mp there
  have queue := (run_following 40 handedOver (.start [])).exact_queue found
  have pushed : (movesOn 0 (following 40 handedOver (.start []))).flatMap Channel.Move.pushed =
      [(.step 1, 7), (.step 2, 8)] := by decide
  have popped : (movesOn 0 (following 40 handedOver (.start []))).flatMap Channel.Move.popped =
      [(.step 3, 7), (.step 4, 8)] := by decide
  refine ⟨c, found, queue, pushed, popped, ?_⟩
  have order := queue.order
  rw [pushed, popped] at order
  simpa using order

end World

end WorkerPool
