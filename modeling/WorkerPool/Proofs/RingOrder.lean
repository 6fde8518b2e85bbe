import Mathlib.Data.List.Basic
import WorkerPool.Ring

/-! The ring as a list. A ring that only its own operations have touched holds its items in the
slots from `tail` on, as many as there are items, modulo its capacity, and nothing in the others.
Pushing appends to the list, popping takes its first item off, and draining takes all of them. The
flag is what tells the full ring from the empty one, since `head` is where `tail` is in both. -/

namespace WorkerPool

namespace Ring

variable {α : Type}

/-- The slot that is `k` places behind the oldest item. -/
def place (r : Ring α) (k : Nat) : Nat :=
  (r.tail + k) % r.capacity

/-- The items of the ring, oldest first. -/
def toList (r : Ring α) : List α :=
  (List.range r.size).filterMap fun k => r.slots[r.place k]?.join

/-- The ring holds exactly the items of `l`, in this order. -/
structure Represents (r : Ring α) (l : List α) : Prop where
  tail_lt : r.tail < r.capacity
  head_eq : r.head = r.place l.length
  length_le : l.length ≤ r.capacity
  full_eq : r.full = (l.length == r.capacity)
  held : ∀ k x, l[k]? = some x → r.slots[r.place k]? = some (some x)
  free : ∀ k, l.length ≤ k → k < r.capacity → r.slots[r.place k]? = some none

theorem place_lt {r : Ring α} {l : List α} (h : r.Represents l) (k : Nat) :
    r.place k < r.capacity :=
  Nat.mod_lt _ (Nat.zero_lt_of_lt h.tail_lt)

theorem place_zero {r : Ring α} {l : List α} (h : r.Represents l) : r.place 0 = r.tail := by
  rw [place, Nat.add_zero, Nat.mod_eq_of_lt h.tail_lt]

/-- One turn of the ring and no more: the places of fewer than `capacity` steps are different. -/
theorem place_injective {r : Ring α} {l : List α} (h : r.Represents l) {j k : Nat}
    (hj : j < r.capacity) (hk : k < r.capacity) (heq : r.place j = r.place k) : j = k := by
  have ht := h.tail_lt
  unfold place at heq
  by_cases h1 : r.tail + j < r.capacity <;> by_cases h2 : r.tail + k < r.capacity
  · rw [Nat.mod_eq_of_lt h1, Nat.mod_eq_of_lt h2] at heq
    omega
  · rw [Nat.mod_eq_of_lt h1, Nat.mod_eq_sub_mod (by omega), Nat.mod_eq_of_lt (by omega)] at heq
    omega
  · rw [Nat.mod_eq_of_lt h2, Nat.mod_eq_sub_mod (by omega), Nat.mod_eq_of_lt (by omega)] at heq
    omega
  · rw [Nat.mod_eq_sub_mod (by omega), Nat.mod_eq_of_lt (by omega),
      Nat.mod_eq_sub_mod (a := r.tail + k) (by omega), Nat.mod_eq_of_lt (by omega)] at heq
    omega

theorem size_eq {r : Ring α} {l : List α} (h : r.Represents l) : r.size = l.length := by
  have ht := h.tail_lt
  have hl := h.length_le
  have hh := h.head_eq
  rw [size, h.full_eq]
  by_cases hfull : l.length = r.capacity
  · simp [hfull]
  · have hfull' : (l.length == r.capacity) = false := by simpa using hfull
    rw [hfull', hh, place]
    by_cases hw : r.tail + l.length < r.capacity
    · rw [Nat.mod_eq_of_lt hw]
      simp
    · rw [Nat.mod_eq_sub_mod (by omega), Nat.mod_eq_of_lt (by omega)]
      have : ¬r.tail ≤ r.tail + l.length - r.capacity := by omega
      simp only [Bool.false_eq_true, if_false, this]
      omega

theorem isEmpty_iff {r : Ring α} {l : List α} (h : r.Represents l) : r.isEmpty ↔ l = [] := by
  have ht := h.tail_lt
  have hl := h.length_le
  rw [isEmpty, h.full_eq, h.head_eq]
  cases l with
  | nil => simpa [place_zero h] using (show 0 ≠ r.capacity by omega)
  | cons x xs =>
      simp only [List.length_cons, Bool.and_eq_true, Bool.not_eq_true', beq_eq_false_iff_ne,
        beq_iff_eq, reduceCtorEq, iff_false, not_and] at hl ⊢
      intro hne hmeet
      have := place_injective h (j := xs.length + 1) (k := 0) (by omega) (by omega)
        (hmeet.trans (place_zero h).symm)
      omega

theorem full_iff {r : Ring α} {l : List α} (h : r.Represents l) :
    r.full ↔ l.length = r.capacity := by
  rw [h.full_eq, beq_iff_eq]

theorem toList_eq {r : Ring α} {l : List α} (h : r.Represents l) : r.toList = l := by
  have hslot : ∀ k ∈ List.range l.length, r.slots[r.place k]?.join = l[k]? := by
    intro k hk
    rw [List.mem_range] at hk
    rw [h.held k _ (List.getElem?_eq_getElem hk), List.getElem?_eq_getElem hk]
    rfl
  have hlist : ∀ xs : List α, (List.range xs.length).filterMap (xs[·]?) = xs := by
    intro xs
    induction xs with
    | nil => rfl
    | cons x xs ih =>
        rw [List.length_cons, List.range_succ_eq_map]
        simp only [List.filterMap_cons, List.getElem?_cons_zero, List.filterMap_map]
        exact congrArg _ ih
  rw [toList, size_eq h, List.filterMap_congr hslot, hlist]

theorem represents_empty {capacity : Nat} (hc : 0 < capacity) :
    (empty capacity : Ring α).Represents [] where
  tail_lt := by simpa [empty, Ring.capacity] using hc
  head_eq := by simp [empty, place]
  length_le := Nat.zero_le _
  full_eq := by
    simp only [empty, Ring.capacity, List.length_nil, Array.size_replicate]
    exact (beq_eq_false_iff_ne.mpr (Nat.ne_of_lt hc)).symm
  held k x hx := by simp at hx
  free k _ hk := by
    have hlt : (empty capacity : Ring α).place k < capacity := by
      simpa [place, empty, Ring.capacity] using Nat.mod_lt k hc
    rw [show (empty capacity : Ring α).slots = Array.replicate capacity none from rfl,
      Array.getElem?_replicate, if_pos hlt]

@[simp] theorem capacity_push (r : Ring α) (x : α) : (r.push x).capacity = r.capacity := by
  simp [push, capacity]

/-- Pushing appends. -/
theorem represents_push {r : Ring α} {l : List α} (h : r.Represents l) (hfull : r.full = false)
    (x : α) : (r.push x).Represents (l ++ [x]) := by
  have ht := h.tail_lt
  have hl : l.length < r.capacity := by
    have hne : l.length ≠ r.capacity := fun heq => by simp [(full_iff h).mpr heq] at hfull
    exact Nat.lt_of_le_of_ne h.length_le hne
  have hplace : ∀ k, (r.push x).place k = r.place k := fun k => by
    rw [place, place, capacity_push]
    rfl
  have hhead : (r.push x).head = r.place (l.length + 1) := by
    rw [push, h.head_eq, place, place, Nat.mod_add_mod, Nat.add_assoc]
  have hslots : ∀ k, k < r.capacity → (r.push x).slots[r.place k]? =
      if k = l.length then some (some x) else r.slots[r.place k]? := by
    intro k hk
    rw [push, Array.getElem?_setIfInBounds, h.head_eq]
    by_cases hkl : k = l.length
    · subst hkl
      simp [show r.place l.length < r.slots.size from place_lt h _]
    · rw [if_neg hkl, if_neg fun heq => hkl (place_injective h hl hk heq).symm]
  exact {
    tail_lt := by rw [capacity_push]; exact ht
    head_eq := by rw [hhead, hplace, List.length_append, List.length_singleton]
    length_le := by
      rw [List.length_append, capacity_push]
      exact hl
    full_eq := by
      have hmeet : r.place (l.length + 1) = r.tail ↔ l.length + 1 = r.capacity := by
        constructor
        · intro heq
          refine Classical.byContradiction fun hne => ?_
          have := place_injective h (j := l.length + 1) (k := 0) (by omega) (by omega)
            (heq.trans (place_zero h).symm)
          omega
        · intro heq
          rw [place, heq, Nat.add_mod_right, Nat.mod_eq_of_lt ht]
      rw [show (r.push x).full = ((r.push x).head == r.tail) from rfl, hhead, capacity_push,
        List.length_append, List.length_singleton, Bool.eq_iff_iff, beq_iff_eq, beq_iff_eq, hmeet]
    held := by
      intro k y hy
      have hk : k < l.length + 1 := by
        simpa using (List.getElem?_eq_some_iff.mp hy).1
      rw [hplace, hslots k (by omega)]
      split
      · rename_i hkl
        subst hkl
        simpa using hy
      · rename_i hkl
        refine h.held k y ?_
        rwa [List.getElem?_append_left (by omega)] at hy
    free := by
      intro k hlk hk
      rw [List.length_append, List.length_singleton] at hlk
      rw [capacity_push] at hk
      rw [hplace, hslots k hk, if_neg (by omega)]
      exact h.free k (by omega) hk }

theorem pop_eq {r : Ring α} {x : α} {l : List α} (h : r.Represents (x :: l)) :
    ∃ left, r.pop = (some x, left) ∧ left.Represents l ∧ left.capacity = r.capacity := by
  have ht := h.tail_lt
  have hl : l.length < r.capacity := h.length_le
  have hne : ¬r.isEmpty := fun hempty => by simpa using (isEmpty_iff h).mp hempty
  have hfirst : r.slots[r.tail]? = some (some x) := by
    simpa [place_zero h] using h.held 0 x rfl
  refine ⟨_, by rw [pop, if_neg hne, hfirst]; rfl, ?_, by simp [capacity]⟩
  generalize hleft : ({ r with
    slots := r.slots.setIfInBounds r.tail none
    tail := (r.tail + 1) % r.capacity
    full := false } : Ring α) = left
  have hcap : left.capacity = r.capacity := by rw [← hleft]; simp [capacity]
  have hplace : ∀ k, left.place k = r.place (k + 1) := by
    intro k
    rw [place, hcap, ← hleft, place, Nat.mod_add_mod]
    congr 1
    omega
  have hslots : ∀ k, k < r.capacity → left.slots[r.place k]? =
      if k = 0 then some none else r.slots[r.place k]? := by
    intro k hk
    rw [← hleft, Array.getElem?_setIfInBounds]
    by_cases hk0 : k = 0
    · subst hk0
      simp [place_zero h, show r.tail < r.slots.size from ht]
    · rw [if_neg hk0, if_neg]
      intro heq
      exact hk0 (place_injective h (k := 0) hk (by omega) (heq.symm.trans (place_zero h).symm))
  exact {
    tail_lt := by rw [hcap, ← hleft]; exact Nat.mod_lt _ (by omega)
    head_eq := by rw [hplace, ← hleft]; exact h.head_eq
    length_le := by omega
    full_eq := by
      rw [hcap, ← hleft]
      exact (beq_eq_false_iff_ne.mpr (by omega)).symm
    held := by
      intro k y hy
      have hk := (List.getElem?_eq_some_iff.mp hy).1
      rw [hplace, hslots (k + 1) (by omega), if_neg (by omega)]
      exact h.held (k + 1) y hy
    free := by
      intro k hlk hk
      rw [hcap] at hk
      by_cases hlast : k + 1 < r.capacity
      · rw [hplace, hslots (k + 1) hlast, if_neg (by omega)]
        exact h.free (k + 1) (by rw [List.length_cons]; omega) hlast
      · have hwrap : r.place (k + 1) = r.place 0 := by
          rw [place, show k + 1 = r.capacity by omega, Nat.add_mod_right, place, Nat.add_zero]
        rw [hplace, hwrap, hslots 0 (by omega), if_pos rfl] }

theorem popUpTo_eq {r : Ring α} {l : List α} (h : r.Represents l) :
    ∃ left, popUpTo l.length r = (l, left) ∧ left.Represents [] ∧ left.capacity = r.capacity := by
  induction l generalizing r with
  | nil => exact ⟨r, rfl, h, rfl⟩
  | cons x l ih =>
      obtain ⟨rest, hpop, hrest, hcap⟩ := pop_eq h
      obtain ⟨left, hleft, hempty, hcap'⟩ := ih hrest
      refine ⟨left, ?_, hempty, hcap'.trans hcap⟩
      rw [List.length_cons, popUpTo, hpop]
      simp only [hleft]

/-- A ring that has been built and changed by its own operations only. -/
def Valid (r : Ring α) : Prop :=
  r.Represents r.toList

theorem Represents.valid {r : Ring α} {l : List α} (h : r.Represents l) : r.Valid := by
  rw [Valid, toList_eq h]
  exact h

theorem Valid.capacity_pos {r : Ring α} (h : r.Valid) : 0 < r.capacity :=
  Nat.zero_lt_of_lt h.tail_lt

theorem Valid.size_eq {r : Ring α} (h : r.Valid) : r.size = r.toList.length :=
  Ring.size_eq h

theorem Valid.full_iff {r : Ring α} (h : r.Valid) : r.full ↔ r.toList.length = r.capacity :=
  Ring.full_iff h

theorem Valid.isEmpty_iff {r : Ring α} (h : r.Valid) : r.isEmpty ↔ r.toList = [] :=
  Ring.isEmpty_iff h

theorem valid_empty {capacity : Nat} (hc : 0 < capacity) : (empty capacity : Ring α).Valid :=
  (represents_empty hc).valid

theorem toList_empty {capacity : Nat} (hc : 0 < capacity) :
    (empty capacity : Ring α).toList = [] :=
  toList_eq (represents_empty hc)

theorem Valid.push {r : Ring α} (h : r.Valid) (hfull : r.full = false) (x : α) :
    (r.push x).Valid ∧ (r.push x).toList = r.toList ++ [x] :=
  ⟨(represents_push h hfull x).valid, toList_eq (represents_push h hfull x)⟩

theorem Valid.pop {r : Ring α} (h : r.Valid) (hempty : r.isEmpty = false) :
    ∃ x left, r.pop = (some x, left) ∧ left.Valid ∧ r.toList = x :: left.toList ∧
      left.capacity = r.capacity := by
  obtain ⟨x, l, hlist⟩ : ∃ x l, r.toList = x :: l := by
    refine List.exists_cons_of_ne_nil fun hnil => ?_
    simp [h.isEmpty_iff.mpr hnil] at hempty
  have hr : r.Represents (x :: l) := hlist ▸ h
  obtain ⟨left, hpop, hleft, hcap⟩ := pop_eq hr
  exact ⟨x, left, hpop, hleft.valid, by rw [hlist, toList_eq hleft], hcap⟩

theorem Valid.drain {r : Ring α} (h : r.Valid) :
    ∃ left, r.drain = (r.toList, left) ∧ left.Valid ∧ left.toList = [] ∧
      left.capacity = r.capacity := by
  obtain ⟨left, hleft, hempty, hcap⟩ := popUpTo_eq h
  refine ⟨left, ?_, hempty.valid, toList_eq hempty, hcap⟩
  rw [Ring.drain, h.size_eq, hleft]

end Ring

end WorkerPool
