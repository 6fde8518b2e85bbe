import Mathlib.Algebra.BigOperators.Group.List.Basic
import Mathlib.Algebra.Order.Group.Multiset
import Mathlib.Data.Nat.Cast.Basic
import WorkerPool.Proofs.Run

/-! Sums over everything that is left to do. A weight gives every operation a share of some total,
for example the items that it has in its hands; the load of a world is the sum over all operations
of all threads. Waking a sleeper changes no weight, so a turn changes a load as much as it changes
the weight of the operations at the front of one thread. The rest of the sum is the same before and
after, and that is how the law is stated, so that it holds in every commutative monoid. -/

namespace WorkerPool

variable {α M : Type} [AddCommMonoid M]

theorem sum_map_eq_zero {β : Type} {f : β → M} {l : List β} (h : ∀ x ∈ l, f x = 0) :
    (l.map f).sum = 0 := by
  refine List.sum_eq_zero fun y hy => ?_
  obtain ⟨x, hx, rfl⟩ := List.mem_map.mp hy
  exact h x hx

namespace World

/-- The sum of what `g` makes of the stack of each thread. -/
def total (g : Who → List (Op α) → M) (w : World α) : M :=
  (w.threads.map fun t => g t.who t.ops).sum

/-- The sum of a weight over all operations. -/
def load (f : Who → Op α → M) (w : World α) : M :=
  w.total fun who ops => (ops.map (f who)).sum

theorem sum_map_wakeOne (h : Thread α → M) (hwake : ∀ t, h t.wake = h t) (bell : Bell) (pick : Nat)
    (threads : List (Thread α)) :
    ((wakeOne bell pick threads).map h).sum = (threads.map h).sum := by
  induction threads generalizing pick with
  | nil => rfl
  | cons t rest ih =>
      unfold wakeOne
      split
      · split
        · simp [hwake]
        · simp [ih]
      · simp [ih]

theorem sum_map_rouse (h : Thread α → M) (hwake : ∀ t, h t.wake = h t) (alarm : Alarm) (pick : Nat)
    (threads : List (Thread α)) :
    ((rouse alarm pick threads).map h).sum = (threads.map h).sum := by
  cases alarm with
  | silent => rfl
  | one bell => exact sum_map_wakeOne h hwake bell pick threads
  | everyone bell =>
      simp only [rouse, wakeAll, List.map_map]
      congr 1
      refine List.map_congr_left fun t _ => ?_
      simp only [Function.comp_apply]
      split
      · exact hwake t
      · rfl

/-- Setting one element of a list changes a sum by this element alone. -/
theorem sum_map_set {β : Type} (h : β → M) {l : List β} {i : Nat} {x : β} (got : l[i]? = some x)
    (y : β) : ∃ r, (l.map h).sum = h x + r ∧ ((l.set i y).map h).sum = h y + r := by
  induction l generalizing i with
  | nil => simp at got
  | cons z l ih =>
      cases i with
      | zero =>
          obtain rfl : z = x := by simpa using got
          exact ⟨(l.map h).sum, by simp, by simp⟩
      | succ i =>
          obtain ⟨r, hbefore, hafter⟩ := ih (i := i) (by simpa using got)
          refine ⟨h z + r, ?_, ?_⟩
          · rw [List.map_cons, List.sum_cons, hbefore, add_left_comm]
          · rw [List.set_cons_succ, List.map_cons, List.sum_cons, hafter, add_left_comm]

/-- What a turn does to a total: the share of its own thread changes, and new threads bring theirs.
-/
theorem Took.total {w v : World α} {index : Nat} {t : Thread α} {old tail : List (Op α)}
    {e : Effect α} (took : w.Took v index t old tail e) (g : Who → List (Op α) → M)
    (hwake : ∀ who op ops, g who (op.wake :: ops) = g who (op :: ops)) :
    ∃ r, w.total g = g t.who (old ++ tail) + r ∧
      v.total g = g t.who (e.ops ++ tail) + (e.births.map fun u => g u.who u.ops).sum + r := by
  obtain ⟨pick, answer, -, hthreads⟩ := took.threads
  have hwakes : ∀ u : Thread α, g u.wake.who u.wake.ops = g u.who u.ops := by
    intro u
    cases hops : u.ops with
    | nil => simp [Thread.wake, hops]
    | cons op ops => simpa [Thread.wake, hops] using hwake u.who op ops
  obtain ⟨r, hbefore, hafter⟩ := sum_map_set (fun u : Thread α => g u.who u.ops) took.got
    { t with ops := e.ops ++ tail, answer }
  refine ⟨r, ?_, ?_⟩
  · rw [World.total, hbefore, took.ops]
  · rw [World.total, hthreads, List.map_append, List.sum_append,
      sum_map_rouse (fun u : Thread α => g u.who u.ops) hwakes, hafter, add_right_comm]

/-- What a turn does to a load. -/
theorem Took.load {w v : World α} {index : Nat} {t : Thread α} {old tail : List (Op α)}
    {e : Effect α} (took : w.Took v index t old tail e) (f : Who → Op α → M)
    (hwake : ∀ who op, f who op.wake = f who op) :
    ∃ r, w.load f = (old.map (f t.who)).sum + r ∧
      v.load f = (e.ops.map (f t.who)).sum +
        (e.births.map fun u => (u.ops.map (f u.who)).sum).sum + r := by
  obtain ⟨r, hbefore, hafter⟩ := took.total (fun who ops => (ops.map (f who)).sum)
    (fun who op ops => by simp [hwake])
  refine ⟨(tail.map (f t.who)).sum + r, ?_, ?_⟩
  · rw [World.load, hbefore, List.map_append, List.sum_append, add_assoc]
  · rw [World.load, hafter, List.map_append, List.sum_append]
    simp only [add_assoc, add_left_comm]

/-- What a turn does to a load in which the beginning of a worker has no share. -/
theorem Took.load_of_start {w v : World α} {index : Nat} {t : Thread α} {old tail : List (Op α)}
    {e : Effect α} (took : w.Took v index t old tail e) (f : Who → Op α → M)
    (hwake : ∀ who op, f who op.wake = f who op)
    (hstart : ∀ who p i, f who (.work p i .start) = 0) :
    ∃ r, w.load f = (old.map (f t.who)).sum + r ∧ v.load f = (e.ops.map (f t.who)).sum + r := by
  obtain ⟨r, hbefore, hafter⟩ := took.load f hwake
  have hbirths : (e.births.map fun u => (u.ops.map (f u.who)).sum).sum = 0 := by
    refine sum_map_eq_zero fun u hu => ?_
    obtain ⟨p, i, name, rfl, -⟩ := took.birth hu
    simp [hstart]
  rw [hbirths, add_zero] at hafter
  exact ⟨r, hbefore, hafter⟩

@[simp] theorem load_start (f : Who → Op α → M) (cells : List Int) :
    (World.start cells : World α).load f = 0 := rfl

@[simp] theorem load_issue (f : Who → Op α → M) (w : World α) (command : Command α) :
    (w.issue command).load f = w.load f + f (.step w.steps) (.command command) := by
  simp [World.load, World.total, issue]

theorem sum_map_of_mem {β : Type} (h : β → M) {l : List β} {x : β} (hx : x ∈ l) :
    ∃ r, (l.map h).sum = h x + r := by
  obtain ⟨front, behind, rfl⟩ := List.append_of_mem hx
  refine ⟨(front.map h).sum + (behind.map h).sum, ?_⟩
  rw [List.map_append, List.map_cons, List.sum_append, List.sum_cons, add_left_comm]

/-- An operation that is left to do has its share in the load. -/
theorem load_of_mem (f : Who → Op α → M) {w : World α} {t : Thread α} (ht : t ∈ w.threads)
    {op : Op α} (hop : op ∈ t.ops) : ∃ r, w.load f = f t.who op + r := by
  obtain ⟨r, hthread⟩ := sum_map_of_mem (fun u : Thread α => (u.ops.map (f u.who)).sum) ht
  obtain ⟨r', hops⟩ := sum_map_of_mem (f t.who) hop
  exact ⟨r' + r, by rw [World.load, World.total, hthread, hops, add_assoc]⟩

/-- In a load of nothing no operation has a share. -/
theorem eq_zero_of_load {f : Who → Op α → Nat} {w : World α} (zero : w.load f = 0) {t : Thread α}
    (ht : t ∈ w.threads) {op : Op α} (hop : op ∈ t.ops) : f t.who op = 0 := by
  obtain ⟨r, hload⟩ := load_of_mem f ht hop
  omega

/-- Two elements of a list have their shares in a sum side by side. -/
theorem add_le_sum_map {β : Type} (h : β → Nat) {l : List β} {i j : Nat} {x y : β}
    (got : l[i]? = some x) (got' : l[j]? = some y) (apart : i ≠ j) : h x + h y ≤ (l.map h).sum := by
  induction l generalizing i j with
  | nil => simp at got
  | cons z l ih =>
      rw [List.map_cons, List.sum_cons]
      cases i with
      | zero =>
          obtain rfl : z = x := by simpa using got
          cases j with
          | zero => exact absurd rfl apart
          | succ j =>
              have hy : y ∈ l := List.mem_of_getElem? (by simpa using got')
              obtain ⟨r, hl⟩ := sum_map_of_mem h hy
              omega
      | succ i =>
          have got : l[i]? = some x := by simpa using got
          cases j with
          | zero =>
              obtain rfl : z = y := by simpa using got'
              obtain ⟨r, hl⟩ := sum_map_of_mem h (List.mem_of_getElem? got)
              omega
          | succ j =>
              have := ih got (by simpa using got') (fun hij => apart (congrArg Nat.succ hij))
              omega

/-- What holds of every operation after a turn, where those that the turn leaves alone have a share
in every load beside the ones that it replaces. -/
theorem Took.forall_ops_beside {w v : World α} {index : Nat} {t : Thread α} {old tail : List (Op α)}
    {e : Effect α} (took : w.Took v index t old tail e) {P : Who → Op α → Prop}
    (hwake : ∀ who op, P who op → P who op.wake)
    (hothers : ∀ u ∈ w.threads, ∀ op ∈ u.ops,
      (∀ f : Who → Op α → Nat, (old.map (f t.who)).sum + f u.who op ≤ w.load f) → P u.who op)
    (hself : ∀ op ∈ e.ops, P t.who op)
    (hbirths : ∀ p i name, old = [.spawn p i name] → P (.worker p i) (.work p i .start)) :
    ∀ u ∈ v.threads, ∀ op ∈ u.ops, P u.who op := by
  obtain ⟨pick, answer, -, hthreads⟩ := took.threads
  have hset : ∀ u ∈ w.threads.set index { t with ops := e.ops ++ tail, answer },
      ∀ op ∈ u.ops, P u.who op := by
    intro u hu op hop
    obtain ⟨j, hj⟩ := List.mem_iff_getElem?.mp hu
    by_cases heq : index = j
    · subst heq
      rw [List.getElem?_set_self (List.getElem?_eq_some_iff.mp took.got).1] at hj
      obtain rfl := Option.some.inj hj
      rcases List.mem_append.mp hop with hop | hop
      · exact hself op hop
      · have ht := took.mem_threads
        refine hothers t ht op (by rw [took.ops]; exact List.mem_append_right old hop) fun f => ?_
        obtain ⟨r, hload⟩ := sum_map_of_mem (fun t => (t.ops.map (f t.who)).sum) ht
        obtain ⟨r', htail⟩ := sum_map_of_mem (f t.who) hop
        rw [World.load, World.total, hload, took.ops, List.map_append, List.sum_append, htail]
        omega
    · rw [List.getElem?_set_ne heq] at hj
      refine hothers u (List.mem_of_getElem? hj) op hop fun f => ?_
      have hboth := add_le_sum_map (fun t => (t.ops.map (f t.who)).sum) took.got hj heq
      obtain ⟨r, hshare⟩ := sum_map_of_mem (f u.who) hop
      rw [took.ops, List.map_append, List.sum_append, hshare] at hboth
      exact Nat.le_trans (by omega) hboth
  intro u hu op hop
  rw [hthreads, List.mem_append] at hu
  rcases hu with hu | hu
  · obtain ⟨u', hu', rfl | rfl⟩ := mem_rouse hu
    · exact hset u hu' op hop
    · cases hops : u'.ops with
      | nil => simp [Thread.wake, hops] at hop
      | cons op' ops =>
          have hrest := hset u' hu'
          rw [hops] at hrest
          simp only [Thread.wake, hops, List.modifyHead_cons, List.mem_cons] at hop
          rcases hop with rfl | hop
          · exact hwake u'.who op' (hrest op' List.mem_cons_self)
          · exact hrest op (List.mem_cons_of_mem op' hop)
  · obtain ⟨p, i, name, rfl, hold⟩ := took.birth hu
    obtain rfl := List.mem_singleton.mp hop
    exact hbirths p i name hold

theorem mem_sum_map {β γ : Type} {f : β → Multiset γ} {l : List β} {x : γ} :
    x ∈ (l.map f).sum ↔ ∃ y ∈ l, x ∈ f y := by
  induction l with
  | nil => simp
  | cons y l ih => simp [ih]

/-- What is in a load is in the share of some operation. -/
theorem mem_load {γ : Type} {f : Who → Op α → Multiset γ} {w : World α} {x : γ} :
    x ∈ w.load f ↔ ∃ t ∈ w.threads, ∃ op ∈ t.ops, x ∈ f t.who op := by
  simp only [World.load, World.total, mem_sum_map]

/-- Without a share in it nothing has a load. -/
theorem load_eq_zero (f : Who → Op α → M) {w : World α}
    (h : ∀ t ∈ w.threads, ∀ op ∈ t.ops, f t.who op = 0) : w.load f = 0 :=
  sum_map_eq_zero fun t ht => sum_map_eq_zero fun op hop => h t ht op hop

end World

end WorkerPool
