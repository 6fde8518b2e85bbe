import Mathlib.Data.List.Perm.Basic
import WorkerPool.Proofs.Rounds
import WorkerPool.Proofs.Succession

/-! The order in which items are dispatched, and how many can be under way. Workers take the items in
the order in which these were pushed. A worker that takes an item has finished the one before: so of
the items taken earlier, all are finished but at most one for each of the other workers. What is
neither finished nor discarded is in the ring or in the hands of a worker. -/

namespace WorkerPool

variable {α : Type}

/-- The item that a worker takes with this. -/
def Duty.taken? : Duty → Option Item
  | .took item => some item
  | _ => none

theorem Duty.taken?_eq_some {duty : Duty} {item : Item} (taken : duty.taken? = some item) :
    duty = .took item := by
  cases duty <;> cases taken
  rfl

/-- The item that a worker has in its hands. -/
def Standing.item? : Standing → Option Item
  | .free => none
  | .holding item | .performing item | .ended item _ | .cleared item _ => some item

/-- The items of the rounds that are whole: the worker has cleared its flag and counted the item
out of the backlog. -/
def finished : List Duty → List Item
  | .cleared item :: .left :: duties => item :: finished duties
  | _ :: duties => finished duties
  | [] => []

theorem finished_rounds (rounds : List Round) (standing : Standing) :
    finished (rounds.flatMap Round.duties ++ standing.duties) = rounds.map (·.item) := by
  induction rounds with
  | nil => cases standing <;> rfl
  | cons r rounds ih => simpa [Round.duties, finished] using ih

theorem taken_rounds (rounds : List Round) (standing : Standing) :
    (rounds.flatMap Round.duties ++ standing.duties).filterMap Duty.taken? =
      rounds.map (·.item) ++ standing.item?.toList := by
  induction rounds with
  | nil => cases standing <;> rfl
  | cons r rounds ih => simpa [Round.duties, Duty.taken?, List.filterMap_cons] using ih

theorem Store.duty?_took {s : Store α} {ops : List (Op α)} {item : Item}
    (duty : s.duty? ops = some (.took item)) :
    ∃ p i stage, ops = [.work p i (.receive (.receive stage))] ∧ s.next? p = some item := by
  unfold Store.duty? at duty
  split at duty
  case h_1 p i stage =>
      obtain ⟨other, hnext, heq⟩ := Option.map_eq_some_iff.mp duty
      cases heq
      exact ⟨p, i, stage, rfl, hnext⟩
  all_goals cases duty

/-- A list falls into the shares of those who have a part in it. -/
theorem perm_flatMap_filter {β : Type} {n : Nat} {l : List β} (seat : β → Nat)
    (h : ∀ x ∈ l, seat x < n) :
    l.Perm ((List.range n).flatMap fun i => l.filter (seat · = i)) := by
  induction n generalizing l with
  | zero =>
      cases l with
      | nil => exact .nil
      | cons x l => exact absurd (h x List.mem_cons_self) (Nat.not_lt_zero _)
  | succ n ih =>
      rw [List.range_succ, List.flatMap_append]
      refine (List.filter_append_perm (seat · < n) l).symm.trans (.append ?_ ?_)
      · have lower : ∀ x ∈ l.filter (seat · < n), seat x < n := fun x hx => by
          simpa using (List.mem_filter.mp hx).2
        refine (ih lower).trans (.of_eq ?_)
        refine List.flatMap_congr fun i hi => ?_
        rw [List.filter_filter]
        refine List.filter_congr fun x _ => ?_
        have := List.mem_range.mp hi
        by_cases hx : seat x = i <;> simp [hx, this]
      · rw [List.flatMap_singleton]
        refine .of_eq (List.filter_congr fun x hx => ?_)
        have := h x hx
        simp only [← decide_not, decide_eq_decide]
        omega

/-- The place of a worker among the workers of its pool. -/
def Who.seat : Who → Nat
  | .worker _ i => i
  | .step _ => 0

namespace World

variable {w v : World α} {index pick : Nat} {t : Thread α} {old tail : List (Op α)} {e : Effect α}
  {p i : Nat} {moments : List (Moment α)}

/-- The items that one worker has taken. -/
def takenBy (w : World α) (who : Who) (p : Nat) : List Item :=
  ((w.takings p).filter (·.1 = who)).map (·.2)

theorem mem_takenBy {who : Who} {item : Item} :
    item ∈ w.takenBy who p ↔ (who, .taken p item) ∈ w.history := by
  simp [takenBy, ← mem_takings]

/-- What a turn adds to the items that have been taken: the item that a worker takes with it. -/
theorem Reachable.takings_turn (h : w.Reachable) (turn : w.turn index pick = some v)
    (got : w.threads[index]? = some t) (p : Nat) :
    v.takings p = w.takings p ++
      if t.who.worksFor p then
        ((w.store.duty? t.ops).bind Duty.taken?).toList.map (t.who, ·)
      else [] := by
  have ordered := h.orderly.ordered t (List.mem_of_getElem? got)
  by_cases receives : ∃ q j stage, t.ops = [.work q j (.receive (.receive stage))]
  · obtain ⟨q, j, stage, hops⟩ := receives
    have hwho : t.who = .worker q j := (hops ▸ ordered).1.self
    obtain ⟨e, took, deed⟩ := took_of_turn_of_firm h.orderly got hops (by rintro ⟨⟩) turn
    have hduty : (w.store.duty? t.ops).bind Duty.taken? = w.store.next? q := by
      rw [hops, Store.duty?]
      cases w.store.next? q <;> rfl
    rw [took.takings, hduty, hwho, Who.worksFor]
    congr 1
    cases deed with
    | jobAdded submits | freeJobAdded submits => cases submits
    | receiveSlept _ _ pool _ found awake up empty =>
        have hring := (h.orderly.rings q pool found).isEmpty_iff.mp empty
        simp [Store.next?, found, hring]
    | workerStopped _ _ pool _ found awake down =>
        simp [Store.next?, found, down, Entry.taken?]
    | taken _ _ pool _ item ring found awake up valid first =>
        have hnext : w.store.next? q = some item := by simp [Store.next?, found, up, first]
        rw [hnext]
        by_cases hq : q = p <;> simp [Entry.taken?, hq]
  · obtain ⟨t₀, old, tail, e, took⟩ := took_of_turn h.orderly turn
    obtain rfl := Option.some.inj (got.symm.trans took.got)
    have hduty : (w.store.duty? t.ops).bind Duty.taken? = none := by
      rw [Option.bind_eq_none_iff]
      intro duty hduty
      cases duty with
      | took item =>
          obtain ⟨q, j, stage, hops, -⟩ := Store.duty?_took hduty
          exact absurd ⟨q, j, stage, hops⟩ receives
      | _ => rfl
    have hnone : e.notes.filterMap (Entry.taken? p) = [] := by
      obtain flow | ⟨_, _, _, -, -, flow⟩ | ⟨j, stage, item, hold, -⟩ | ⟨-, flow⟩ :=
        took.act.flow h.orderly.rings p
      · exact flow.takes
      · exact flow.takes
      · rw [took.ops, hold] at ordered
        have hops : t.ops = [.work p j (.receive (.receive stage))] := by
          rw [took.ops, hold, show tail = [] by simpa using ordered.1.alone]
          rfl
        exact absurd ⟨p, j, stage, hops⟩ receives
      · exact flow.takes
    rw [took.takings, hnone, hduty]
    simp

theorem Took.taker (reachable : w.Reachable) (took : w.Took v index t old tail e) {item : Item}
    (taken : item ∈ e.notes.filterMap (Entry.taken? p)) : ∃ i, t.who = .worker p i := by
  have ordered := reachable.orderly.ordered t took.mem_threads
  obtain flow | ⟨_, _, _, -, -, flow⟩ | ⟨i, stage, item, hold, -⟩ | ⟨-, flow⟩ :=
    took.act.flow reachable.orderly.rings p
  · simp [flow.takes] at taken
  · simp [flow.takes] at taken
  · rw [took.ops, hold] at ordered
    exact ⟨i, ordered.1.self⟩
  · simp [flow.takes] at taken

/-- Whoever takes items is a worker with a flag in the pool. -/
theorem Reachable.taker (h : w.Reachable) {pool : Pool} (found : w.store.pools[p]? = some pool)
    {who : Who} {item : Item} (taken : (who, item) ∈ w.takings p) :
    ∃ i < pool.threads, who = .worker p i := by
  have hworker : ∃ pool i, w.store.pools[p]? = some pool ∧ i < pool.threads ∧
      who = .worker p i := by
    refine h.induct (P := fun w => (who, item) ∈ w.takings p → ∃ pool i,
        w.store.pools[p]? = some pool ∧ i < pool.threads ∧ who = .worker p i)
      (fun cells taken => absurd taken List.not_mem_nil) (fun w command _ ih => ih)
      (fun w v index t old tail e reachable took ih taken => ?_) taken
    have hbefore : ∃ pool i, w.store.pools[p]? = some pool ∧ i < pool.threads ∧
        who = .worker p i := by
      rw [took.takings, List.mem_append] at taken
      rcases taken with taken | taken
      · exact ih taken
      · obtain ⟨item', hitem, heq⟩ := List.mem_map.mp taken
        cases heq
        obtain ⟨i, hwho⟩ := took.taker reachable hitem
        obtain ⟨pool, hpool, within⟩ :=
          reachable.worker_within took.mem_threads hwho
        exact ⟨pool, i, hpool, within, hwho⟩
    obtain ⟨pool, i, hpool, within, hwho⟩ := hbefore
    obtain ⟨pool', hpool', grows⟩ := took.act.pools.grows hpool
    exact ⟨pool', i, took.store ▸ hpool', grows.threads ▸ within, hwho⟩
  obtain ⟨pool', i, found', within, hwho⟩ := hworker
  obtain rfl := Option.some.inj (found.symm.trans found')
  exact ⟨i, within, hwho⟩

/-- The diary of a worker tells all items that it has taken. -/
theorem Run.takenBy {cells : List Int} (run : (World.start cells).Run moments w) (p i : Nat) :
    w.takenBy (.worker p i) p = (diary p i moments).filterMap Duty.taken? := by
  induction run with
  | nil => rfl
  | issue run command ih => exact ih
  | @turn moments w v run index pick turn ih =>
      have reachable : w.Reachable := run.reachable (.start cells)
      obtain ⟨t, old, tail, e, took⟩ := took_of_turn reachable.orderly turn
      rw [World.takenBy, reachable.takings_turn turn took.got, List.filter_append, List.map_append,
        diary, filterMap_concat, List.filterMap_append, duty?_eq took.got]
      refine congrArg₂ (· ++ ·) ih ?_
      by_cases who : t.who = .worker p i
      · rw [if_pos who, who]
        simp only [Who.worksFor, beq_self_eq_true, if_true]
        cases w.store.duty? t.ops with
        | none => rfl
        | some duty => cases hduty : duty.taken? <;> simp [hduty]
      · rw [if_neg who]
        simp only [Option.toList_none, List.filterMap_nil, List.map_eq_nil_iff,
          List.filter_eq_nil_iff, decide_eq_true_eq]
        intro x hx
        split at hx
        · obtain ⟨item, -, rfl⟩ := List.mem_map.mp hx
          exact who
        · cases hx

/-- The items that the workers of a pool of `n` threads have finished in a run. -/
def finishedIn (p n : Nat) (moments : List (Moment α)) : List Item :=
  (List.range n).flatMap fun i => finished (diary p i moments)

/-- What the workers have taken they have finished, or it is in their hands. -/
theorem Run.taken_perm {cells : List Int} (run : (World.start cells).Run moments w) {pool : Pool}
    (found : w.store.pools[p]? = some pool) : ∃ standing : Nat → Standing,
      (∀ i, ∃ rounds, w.Rounds p i moments rounds (standing i)) ∧
      ((w.takings p).map (·.2)).Perm (finishedIn p pool.threads moments ++
        (List.range pool.threads).filterMap fun i => (standing i).item?) := by
  have reachable : w.Reachable := run.reachable (.start cells)
  choose rounds standing h using fun i => run.rounds p i
  refine ⟨standing, fun i => ⟨rounds i, h i⟩, ?_⟩
  -- each share of what has been taken is what the diary of one worker tells
  have hshares := perm_flatMap_filter (l := w.takings p) (n := pool.threads) (·.1.seat)
    fun x hx => by
      obtain ⟨i, within, hwho⟩ := reachable.taker found hx
      simpa [Who.seat, hwho] using within
  have hshare : ∀ i, ((w.takings p).filter (·.1.seat = i)).map (·.2) =
      finished (diary p i moments) ++ (standing i).item?.toList := by
    intro i
    rw [(h i).diary, finished_rounds, ← taken_rounds, ← (h i).diary, ← run.takenBy, World.takenBy]
    congr 1
    refine List.filter_congr fun x hx => ?_
    obtain ⟨j, -, hwho⟩ := reachable.taker found hx
    simp [Who.seat, hwho]
  rw [List.filterMap_eq_flatMap_toList]
  calc List.Perm ((w.takings p).map (·.2)) _ := hshares.map (·.2)
    _ = (List.range pool.threads).flatMap fun i =>
          finished (diary p i moments) ++ (standing i).item?.toList := by
        rw [List.map_flatMap]
        simp only [hshare]
    List.Perm _ _ := (List.flatMap_append_perm _ _ _).symm

/-- The turn that adds to what has been taken is one in which a worker takes its next item. -/
theorem Reachable.takes (h : w.Reachable) (turn : w.turn index pick = some v) {j : Nat} {who : Who}
    {item : Item} (taken : (v.takings p)[j]? = some (who, item))
    (fresh : (w.takings p).length ≤ j) :
    (w.takings p).length = j ∧ ∃ i, who = .worker p i ∧
      (Moment.mk w index).duty? p i = some (.took item) := by
  obtain ⟨t, old, tail, e, took⟩ := took_of_turn h.orderly turn
  rw [h.takings_turn turn took.got p, List.getElem?_append_right fresh] at taken
  split at taken
  case isFalse => simp at taken
  rename_i works
  cases htaken : (w.store.duty? t.ops).bind Duty.taken? with
  | none => simp [htaken] at taken
  | some other =>
      rw [htaken, Option.toList_some, List.map_singleton, List.getElem?_singleton] at taken
      split at taken
      case isFalse => cases taken
      rename_i hj
      cases taken
      obtain ⟨duty, hduty, hitem⟩ := Option.bind_eq_some_iff.mp htaken
      obtain rfl := Duty.taken?_eq_some hitem
      obtain ⟨i, hwho⟩ := Who.worksFor_iff.mp works
      exact ⟨by omega, i, hwho, by rw [duty?_eq took.got, if_pos hwho, hduty]⟩

/-- The turn in which an item was taken. -/
theorem Run.taking {cells : List Int} (run : (World.start cells).Run moments w) {j : Nat}
    {who : Who} {item : Item} (taken : (w.takings p)[j]? = some (who, item)) :
    ∃ before m after v pick i, moments = before ++ m :: after ∧
      (World.start cells).Run before m.world ∧ m.world.turn m.index pick = some v ∧
      m.world.Later w ∧ (m.world.takings p).length = j ∧ who = .worker p i ∧
      m.duty? p i = some (.took item) := by
  induction run with
  | nil => simp [takings, World.start] at taken
  | issue run command ih =>
      obtain ⟨before, m, after, v, pick, i, rfl, run', turn, later, rest⟩ := ih taken
      exact ⟨before, m, after, v, pick, i, rfl, run', turn, later.tail (.issue _ command), rest⟩
  | @turn moments w v run index pick turn ih =>
      have reachable : w.Reachable := run.reachable (.start cells)
      rcases Nat.lt_or_ge j (w.takings p).length with hlt | fresh
      · have hbefore : (w.takings p)[j]? = some (who, item) := by
          obtain ⟨t, old, tail, e, took⟩ := took_of_turn reachable.orderly turn
          rw [took.takings, List.getElem?_append_left hlt] at taken
          exact taken
        obtain ⟨before, m, after, v', pick', i, rfl, run', turn', later, rest⟩ := ih hbefore
        exact ⟨before, m, after ++ [⟨w, index⟩], v', pick', i, by simp, run', turn',
          later.tail (.turn index pick turn), rest⟩
      · obtain ⟨hlength, i, hwho, hduty⟩ := reachable.takes turn taken fresh
        exact ⟨moments, ⟨w, index⟩, [], v, pick, i, rfl, run, turn,
          .single (.turn index pick turn), hlength, hwho, hduty⟩

/-- The first `j` items that have been taken are the first `j` that have been pushed. -/
theorem Reachable.taken_front (h : w.Reachable) (later : w.Later v) :
    (w.takings p).map (·.2) = (v.pushes p).take (w.takings p).length := by
  obtain ⟨more, hpushes⟩ := later.pushes h p
  rw [← hpushes, (h.succession p).order, List.append_assoc, List.append_assoc,
    List.take_left' (by simp)]

/-- A worker that takes an item had nothing in its hands. -/
theorem Rounds.free_of_took {rounds : List Round} {standing : Standing}
    (h : w.Rounds p i moments rounds standing) (reachable : w.Reachable)
    (turn : w.turn index pick = some v) {item : Item}
    (duty : (Moment.mk w index).duty? p i = some (.took item)) : standing = .free := by
  obtain ⟨t, got, hwho, due⟩ := of_duty? duty
  obtain ⟨-, standing', goes, -⟩ := h.turn reachable turn got hwho
  rw [due] at goes
  cases goes with
  | took => rfl

/-- The workers have at most one item each in their hands. -/
theorem length_hands_le (standing : Nat → Standing) (n : Nat) :
    ((List.range n).filterMap fun i => (standing i).item?).length ≤ n := by
  simpa using List.length_filterMap_le (fun i => (standing i).item?) (List.range n)

theorem length_hands_lt {standing : Nat → Standing} {n : Nat} (within : i < n)
    (free : standing i = .free) :
    ((List.range n).filterMap fun i => (standing i).item?).length < n := by
  have idle : ∃ i, ∃ _ : i ∈ List.range n, (standing i).item? = none :=
    ⟨i, List.mem_range.mpr within, by rw [free]; rfl⟩
  simpa using List.length_filterMap_lt_length_iff_exists.mpr idle

/-- When the item at the place `j` is taken, those before it are finished, but for one at most in
the hands of each of the other workers. -/
theorem Run.taken_inTurn {cells : List Int} (run : (World.start cells).Run moments w) {pool : Pool}
    (found : w.store.pools[p]? = some pool) {j : Nat} {who : Who} {item : Item}
    (taken : (w.takings p)[j]? = some (who, item)) :
    ∃ before m after i, moments = before ++ m :: after ∧ i < pool.threads ∧ who = .worker p i ∧
      m.duty? p i = some (.took item) ∧ (m.world.takings p).length = j ∧
      ∃ underWay : List Item, underWay.length + 1 ≤ pool.threads ∧
        ((w.pushes p).take j).Perm (finishedIn p pool.threads before ++ underWay) := by
  obtain ⟨before, m, after, v, pick, i, rfl, run', turn, later, rfl, rfl, hduty⟩ :=
    run.taking taken
  have reachable : m.world.Reachable := run'.reachable (.start cells)
  obtain ⟨i', within, heq⟩ :=
    (run.reachable (.start cells)).taker found (List.mem_of_getElem? taken)
  cases heq
  obtain ⟨t, got, hwho, -⟩ := of_duty? hduty
  obtain ⟨pool', found', -⟩ := reachable.worker_within (List.mem_of_getElem? got) hwho
  obtain ⟨pool'', found'', grows⟩ := later.pool reachable found'
  obtain rfl := Option.some.inj (found.symm.trans found'')
  obtain ⟨standing, hrounds, hperm⟩ := run'.taken_perm found'
  rw [← grows.threads, reachable.taken_front later] at hperm
  obtain ⟨rounds, h⟩ := hrounds i
  have hands := length_hands_lt within (h.free_of_took reachable turn hduty)
  exact ⟨before, m, after, i, rfl, within, rfl, hduty, rfl, _, hands, hperm⟩

/-- How the items of a pool come to its workers in a run. -/
structure Dispatched (w : World α) (p : Nat) (moments : List (Moment α)) (pool : Pool) : Prop where
  /-- What has been taken is the beginning of what has been pushed; what has been discarded comes
  next, and the rest is in the ring. -/
  order : w.pushes p = (w.takings p).map (·.2) ++ w.discardings p ++ w.store.ring p
  once : ((w.pushes p).map (·.id)).Nodup
  closed : w.discardings p ≠ [] → pool.isDown = true
  /-- When an item is taken, those before it are finished, but for one at most in the hands of each
  of the other workers. -/
  inTurn : ∀ j who item, (w.takings p)[j]? = some (who, item) →
    ∃ before m after i, moments = before ++ m :: after ∧ i < pool.threads ∧ who = .worker p i ∧
      m.duty? p i = some (.took item) ∧ (m.world.takings p).length = j ∧
      (w.pushes p)[j]? = some item ∧
      j - (pool.threads - 1) ≤ (finishedIn p pool.threads before).length ∧
      ∃ underWay : List Item, underWay.length + 1 ≤ pool.threads ∧
        ((w.pushes p).take j).Perm (finishedIn p pool.threads before ++ underWay)
  bounded : (w.pushes p).length ≤ (finishedIn p pool.threads moments).length +
    (w.discardings p).length + (pool.intake.value.capacity + pool.threads)

/-- Items are dispatched in the order in which they were accepted, and there are never more under
way than the ring and the hands of the workers can hold. -/
theorem Run.dispatch_order {cells : List Int} (run : (World.start cells).Run moments w)
    {pool : Pool} (found : w.store.pools[p]? = some pool) : w.Dispatched p moments pool := by
  have reachable : w.Reachable := run.reachable (.start cells)
  have succession := reachable.succession p
  refine ⟨succession.order, succession.nodup, fun hne => ?_, fun j who item taken => ?_, ?_⟩
  · obtain ⟨pool', found', down⟩ := succession.down hne
    obtain rfl := Option.some.inj (found.symm.trans found')
    exact down
  · obtain ⟨before, m, after, i, split, within, hwho, hduty, hlength, underWay, hands, hperm⟩ :=
      run.taken_inTurn found taken
    have hitem : (w.pushes p)[j]? = some item := by
      have hj : j < ((w.takings p).map (·.2)).length := by
        simpa using (List.getElem?_eq_some_iff.mp taken).1
      rw [succession.order, List.append_assoc, List.getElem?_append_left hj, List.getElem?_map,
        taken]
      rfl
    have hj := (List.getElem?_eq_some_iff.mp hitem).1
    have hcount := hperm.length_eq
    rw [List.length_take, List.length_append] at hcount
    exact ⟨before, m, after, i, split, within, hwho, hduty, hlength, hitem, by omega, underWay,
      hands, hperm⟩
  · obtain ⟨standing, -, hperm⟩ := run.taken_perm found
    have hcount := hperm.length_eq
    have hands := length_hands_le standing pool.threads
    have hring : (w.store.ring p).length ≤ pool.intake.value.capacity := by
      rw [Store.ring_eq found]
      exact Ring.Represents.length_le (reachable.orderly.rings p pool found)
    rw [succession.order]
    simp only [List.length_append, List.length_map] at hcount ⊢
    omega

/-- A pool with one worker, which is held up by its first item. The second one waits in the ring
until a shutdown drains it. -/
def cutShort : List (Command Unit) :=
  [.newPool "p" (.given { capacity := 1, threads := some 1, name := "p" }),
    .onPool "p" (.submit (.link [.passGate "g"] false) none .holding),
    .onPool "p" (.submit (.link [] false) none .holding), .onPool "p" .shutDown]

theorem dispatch_order_of_cutShort :
    ∃ pool, (follow 40 cutShort (.start [])).store.pools[0]? = some pool ∧
      (follow 40 cutShort (.start [])).Dispatched 0 (following 40 cutShort (.start [])) pool ∧
      ((follow 40 cutShort (.start [])).takings 0).map (fun x => (x.1, x.2.id)) =
        [(.worker 0 0, 1)] ∧
      ((follow 40 cutShort (.start [])).discardings 0).map (·.id) = [2] := by
  have there : (follow 40 cutShort (.start [])).store.pools[0]?.isSome = true := by decide
  obtain ⟨pool, found⟩ := Option.isSome_iff_exists.mp there
  exact ⟨pool, found, (run_following 40 cutShort (.start [])).dispatch_order found, by decide,
    by decide⟩

end World

end WorkerPool
