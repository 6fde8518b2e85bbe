import WorkerPool.Proofs.Idle
import WorkerPool.Proofs.Standing

/-! What a busy flag says. Only the worker itself writes its flag, and each worker is one thread, so
between any two turns the flag of a worker is set exactly while the worker performs an item or tells
how the item went. In a world without turns that is the time it spends inside the function of an
item or of a finale, and the number of flags that are set is the number of such workers. -/

namespace WorkerPool

variable {α : Type}

namespace Op

/-- What keeps a worker busy: it performs an item or is about to be through with it. -/
inductive Engaged (p i : Nat) : Op α → Prop
  | running (item : Item) (panic : Option Payload) : Engaged p i (.work p i (.running item panic))
  | finish (item : Item) (succeeded : Bool) : Engaged p i (.work p i (.finish item succeeded))

theorem engages_ne_zero {p i : Nat} {op : Op α} : op.engages p i ≠ 0 ↔ op.Engaged p i := by
  constructor
  · intro h
    unfold engages at h
    split at h
    · obtain ⟨rfl, rfl⟩ := by simpa using h
      exact .running _ _
    · obtain ⟨rfl, rfl⟩ := by simpa using h
      exact .finish _ _
    · exact absurd rfl h
  · rintro ⟨item, panic⟩ <;> simp [engages]

theorem Engaged.of_wake {p i : Nat} {op : Op α} (engaged : op.wake.Engaged p i) :
    op.Engaged p i := by
  rwa [← engages_ne_zero, engages_wake, engages_ne_zero] at engaged

/-- At most the last operation of a worker keeps it busy. -/
theorem Leads.engages_le {who : Who} {ops : List (Op α)} (stack : Leads who ops []) (p i : Nat) :
    (ops.map (engages p i)).sum ≤ if who = .worker p i then 1 else 0 := by
  induction ops with
  | nil => exact Nat.zero_le _
  | cons op rest ih =>
      obtain ⟨before, stack⟩ := stack
      rw [List.append_nil] at before
      rw [List.map_cons, List.sum_cons]
      by_cases h : op.engages p i = 0
      · rw [h, Nat.zero_add]
        exact ih stack
      · cases engages_ne_zero.mp h with
        | running | finish =>
            obtain rfl := before.alone
            rw [if_pos before.self]
            simp [engages]

end Op

section Deeds

variable {around : Around} {s : Store α} {who : Who} {e : Effect α}

/-- A worker gets busy when it begins an item. -/
theorem Deed.engaged {op op' : Op α} (deed : Deed around s who op e) (h : op' ∈ e.ops) {p i : Nat}
    (engaged : op'.Engaged p i) : (∃ item, op = .work p i (.begin item)) ∨
      (op.Engaged p i ∧ ∀ item succeeded, op ≠ .work p i (.finish item succeeded)) := by
  cases engaged with
  | running item panic =>
      cases deed.follows h trivial with
      | started => exact .inl ⟨item, rfl⟩
  | finish item succeeded =>
      cases deed.follows h trivial with
      | performed | broke => exact .inr ⟨.running item _, by simp⟩

theorem Op.Lands.engaged {payload : Payload} {old new : List (Op α)} {notes : List Entry}
    (lands : Op.Lands payload old new notes) {op : Op α} (h : op ∈ new) {p i : Nat}
    (engaged : op.Engaged p i) : ∃ op' ∈ old, op'.Engaged p i := by
  cases engaged with
  | running item panic =>
      obtain ⟨_, _, _, heq, hop⟩ | ⟨_, _, _, _, heq, -⟩ := lands.of_serves h trivial
      · cases heq
        exact ⟨_, hop, .running item none⟩
      · cases heq
  | finish item succeeded =>
      obtain ⟨_, _, _, heq, -⟩ | ⟨_, _, _, _, heq, -⟩ := lands.of_serves h trivial <;> cases heq

end Deeds

/-- While it performs an item, and until it has told how that went, a worker is engaged. -/
def Standing.Engaged : Standing → Prop
  | .performing _ | .ended .. => True
  | _ => False

theorem Standing.Shows.engaged_iff {p i : Nat} {standing : Standing} {ops : List (Op α)}
    (shows : standing.Shows p i ops) : standing.Engaged ↔ ∃ op ∈ ops, op.Engaged p i := by
  simp only [← Op.engages_ne_zero]
  cases shows <;> simp [Engaged, Op.engages]

/-- A worker is inside a function only while it is engaged. -/
theorem Standing.Shows.engaged_of_inside {p i : Nat} {standing : Standing} {ops : List (Op α)}
    (shows : standing.Shows p i ops) (inside : ops.any Op.inside = true) : standing.Engaged := by
  cases shows with
  | performing | ended | counting | counted | broken => trivial
  | _ => cases inside

namespace World

variable {w v : World α} {index : Nat} {t : Thread α} {old tail : List (Op α)} {e : Effect α}
  {p i : Nat}

theorem Reachable.engages_le_one (h : w.Reachable) (p i : Nat) :
    (w.load fun _ => Op.engages p i) ≤ 1 :=
  calc (w.load fun _ => Op.engages p i)
      ≤ w.crew p i := List.sum_le_sum fun t ht => (h.orderly.ordered t ht).engages_le p i
    _ ≤ 1 := Nat.le_trans (Nat.le_add_right _ _) (h.manned.single p i)

/-- Whoever is engaged is a worker, and has a flag. -/
theorem Reachable.who_of_engaged (h : w.Reachable) (ht : t ∈ w.threads) {op : Op α}
    (hop : op ∈ t.ops) (engaged : op.Engaged p i) :
    t.who = .worker p i ∧ ∃ pool, w.store.pools[p]? = some pool ∧ i < pool.threads := by
  obtain ⟨above, rest, -, before⟩ := (h.orderly.ordered t ht).before hop
  have who : t.who = .worker p i := by cases engaged <;> exact before.self
  exact ⟨who, h.worker_within ht who⟩

theorem Took.flagged (took : w.Took v index t old tail e) (h : w.Reachable)
    (ih : ∀ u ∈ w.threads, ∀ op ∈ u.ops, op.Engaged p i → w.store.busy p i = true) :
    ∀ u ∈ v.threads, ∀ op ∈ u.ops, op.Engaged p i → v.store.busy p i = true := by
  have ht : t ∈ w.threads := took.mem_threads
  refine took.forall_ops_beside (P := fun _ op => op.Engaged p i → v.store.busy p i = true)
    (fun who op hP engaged => hP engaged.of_wake) (fun u hu op hop beside engaged => ?_)
    (fun op hop engaged => ?_) (fun q j name hold engaged => by cases engaged)
  · have flag := ih u hu op hop engaged
    obtain ⟨-, pool, found, within⟩ := h.who_of_engaged hu hop engaged
    rw [took.store]
    cases took.act with
    | broke => exact flag
    | @deed due e deed quiet =>
        cases deed.flag p i with
        | set item hdue hset => exact hset pool found within
        | kept unset uncleared same => rw [same, flag]
        | cleared item succeeded hdue hcleared =>
            -- only one operation keeps a worker busy, and it would be the one whose turn it was
            have hmore := beside fun _ => Op.engages p i
            rw [List.map_singleton, List.sum_singleton] at hmore
            have engaged' : due.Engaged p i := hdue ▸ .finish item succeeded
            have := Nat.pos_of_ne_zero (Op.engages_ne_zero.mpr engaged')
            have := Nat.pos_of_ne_zero (Op.engages_ne_zero.mpr engaged)
            have := h.engages_le_one p i
            omega
  · rw [took.store]
    cases took.act with
    | broke payload loose lands uncaught =>
        obtain ⟨op', hop', engaged'⟩ := lands.engaged hop engaged
        exact ih t ht op' (took.mem_ops (List.mem_append_right _ hop')) engaged'
    | deed deed quiet =>
        have hold := took.due_mem
        rcases deed.engaged hop engaged with ⟨item, rfl⟩ | ⟨engaged', unfinished⟩
        · obtain ⟨above, rest, -, before⟩ := (h.orderly.ordered t ht).before hold
          obtain ⟨pool, found, within⟩ := h.worker_within ht before.self
          cases deed.flag p i with
          | set item' due hset => exact hset pool found within
          | cleared item' succeeded due => cases due
          | kept unset => exact absurd rfl (unset item)
        · cases deed.flag p i with
          | set item due => subst due; cases engaged'
          | cleared item succeeded due => exact absurd due (unfinished item succeeded)
          | kept unset uncleared same => rw [same, ih t ht _ hold engaged']

theorem Reachable.flagged (h : w.Reachable) :
    ∀ u ∈ w.threads, ∀ op ∈ u.ops, op.Engaged p i → w.store.busy p i = true := by
  refine h.induct (P := fun w => ∀ u ∈ w.threads, ∀ op ∈ u.ops, op.Engaged p i →
    w.store.busy p i = true) (fun cells u hu => nomatch hu) (fun w command _ ih => ?_)
    fun w v index t old tail e reachable took ih => took.flagged reachable ih
  exact forall_ops_issue (P := fun _ op => op.Engaged p i → w.store.busy p i = true) ih nofun

/-- The flag of a worker says whether the worker is engaged. -/
theorem Reachable.busy_iff (h : w.Reachable) (ht : t ∈ w.threads) (who : t.who = .worker p i)
    {standing : Standing} (shows : standing.Shows p i t.ops) :
    w.store.busy p i = true ↔ standing.Engaged := by
  rw [shows.engaged_iff]
  constructor
  · intro flag
    obtain ⟨u, hu, op, hop, engaged⟩ : ∃ u ∈ w.threads, ∃ op ∈ u.ops, op.Engaged p i := by
      by_contra hnone
      have hzero : (w.load fun _ => Op.engages p i) = 0 := by
        refine load_eq_zero _ fun u hu op hop => ?_
        by_contra hne
        exact hnone ⟨u, hu, op, hop, Op.engages_ne_zero.mp hne⟩
      exact absurd (h.engaged flag) (by omega)
    obtain ⟨j, got⟩ := List.getElem?_of_mem ht
    obtain ⟨k, got'⟩ := List.getElem?_of_mem hu
    obtain rfl := h.worker_unique got got' who (h.who_of_engaged hu hop engaged).1
    obtain rfl := Option.some.inj (got.symm.trans got')
    exact ⟨op, hop, engaged⟩
  · rintro ⟨op, hop, engaged⟩
    exact h.flagged t ht op hop engaged

end World

end WorkerPool
