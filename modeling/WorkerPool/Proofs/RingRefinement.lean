import WorkerPool.Proofs.RingOrder

/-! The ring on a machine with 64-bit words. Its arithmetic is done on unsigned words there, which
are refused when they leave their range, and a slot is found by an index that has to be in bounds.
The ring never asks for more: both positions stay below the capacity, so the successor of a position
still fits a word, and the length is taken as a difference only of positions in the right order. What
the ring is for its callers is a list of bounded length: pushing appends to it, popping takes the
first item off, and the flag says whether it has reached its bound. -/

namespace WorkerPool

/-- The number of values of a machine word. -/
def Word.bound : Nat :=
  18446744073709551616

/-- The sum of two words, if it is a word. -/
def Word.add (a b : Nat) : Option Nat :=
  if a + b < Word.bound then some (a + b) else none

/-- The difference of two words, if there is one. -/
def Word.sub (a b : Nat) : Option Nat :=
  if b ≤ a then some (a - b) else none

/-- The remainder, if there is a divisor. -/
def Word.mod (a b : Nat) : Option Nat :=
  if b = 0 then none else some (a % b)

theorem Word.add_eq {a b : Nat} (h : a + b < Word.bound) : Word.add a b = some (a + b) :=
  if_pos h

theorem Word.sub_eq {a b : Nat} (h : b ≤ a) : Word.sub a b = some (a - b) :=
  if_pos h

theorem Word.mod_eq {b : Nat} (a : Nat) (h : 0 < b) : Word.mod a b = some (a % b) :=
  if_neg (Nat.ne_of_gt h)

namespace Ring

variable {α : Type}

/-! ### The operations with every check -/

/-- Overwrites a slot that is there. -/
def put? (r : Ring α) (i : Nat) (slot : Option α) : Option (Array (Option α)) :=
  if i < r.slots.size then some (r.slots.setIfInBounds i slot) else none

/-- The slot behind `i`, round the row of slots. -/
def after? (r : Ring α) (i : Nat) : Option Nat :=
  (Word.add i 1).bind (Word.mod · r.capacity)

def size? (r : Ring α) : Option Nat :=
  if r.full then some r.capacity
  else if r.tail ≤ r.head then Word.sub r.head r.tail
  else (Word.sub r.capacity r.tail).bind (Word.add · r.head)

/-- Nobody may push to a full ring. -/
def push? (r : Ring α) (x : α) : Option (Ring α) :=
  if r.full then none
  else do
    let slots ← r.put? r.head (some x)
    let head ← r.after? r.head
    some { r with slots, head, full := head == r.tail }

def pop? (r : Ring α) : Option (Option α × Ring α) :=
  if r.isEmpty then some (none, r)
  else do
    let item ← r.slots[r.tail]?
    let slots ← r.put? r.tail none
    let tail ← r.after? r.tail
    some (item, { r with slots, tail, full := false })

variable {r : Ring α} {l : List α}

theorem put?_eq {i : Nat} (h : i < r.capacity) (slot : Option α) :
    r.put? i slot = some (r.slots.setIfInBounds i slot) :=
  if_pos h

/-- A capacity that is a word leaves room for the successor of a position. -/
theorem after?_eq {i : Nat} (h : i < r.capacity) (word : r.capacity < Word.bound) :
    r.after? i = some ((i + 1) % r.capacity) := by
  have sum : Word.add i 1 = some (i + 1) := Word.add_eq (Nat.lt_of_le_of_lt h word)
  rw [after?, sum, Option.bind_some, Word.mod_eq _ (Nat.zero_lt_of_lt h)]

theorem Represents.head_lt (h : r.Represents l) : r.head < r.capacity :=
  h.head_eq ▸ place_lt h _

theorem Represents.size?_eq (h : r.Represents l) (word : r.capacity < Word.bound) :
    r.size? = some r.size := by
  have tail := h.tail_lt
  rw [size?, size]
  split
  · rfl
  · split
    · exact Word.sub_eq ‹_›
    · rename_i wrapped
      rw [Word.sub_eq (Nat.le_of_lt tail), Option.bind_some]
      exact Word.add_eq (by omega)

theorem Represents.push?_eq (h : r.Represents l) (word : r.capacity < Word.bound)
    (room : r.full = false) (x : α) : r.push? x = some (r.push x) := by
  rw [push?, room, if_neg Bool.false_ne_true, put?_eq h.head_lt, after?_eq h.head_lt word]
  rfl

theorem Represents.pop?_eq (h : r.Represents l) (word : r.capacity < Word.bound) :
    r.pop? = some r.pop := by
  rw [pop?, pop]
  split
  · rfl
  · have there : r.slots[r.tail]? = some r.slots[r.tail]?.join := by
      rw [Array.getElem?_eq_getElem h.tail_lt]
      rfl
    rw [there, put?_eq h.tail_lt, after?_eq h.tail_lt word]
    rfl

/-! ### The bounded list -/

/-- The ring with `capacity` slots is the list `l`. -/
structure Holds (capacity : Nat) (r : Ring α) (l : List α) : Prop where
  slots : r.slots.size = capacity
  bounded : l.length ≤ capacity
  head_lt : r.head < capacity
  tail_lt : r.tail < capacity
  held : ∀ k x, l[k]? = some x → r.slots[(r.tail + k) % capacity]? = some (some x)
  free : ∀ i < capacity, (∀ k < l.length, (r.tail + k) % capacity ≠ i) → r.slots[i]? = some none
  full_iff : r.full = true ↔ l.length = capacity
  isEmpty_iff : r.isEmpty = true ↔ l = []
  size_eq : r.size = l.length

/-- Whoever walks once round the ring comes to every slot. -/
theorem Represents.place_surjective (h : r.Represents l) {i : Nat} (hi : i < r.capacity) :
    ∃ k < r.capacity, r.place k = i := by
  have tail := h.tail_lt
  refine ⟨(i + (r.capacity - r.tail)) % r.capacity, Nat.mod_lt _ (Nat.zero_lt_of_lt hi), ?_⟩
  rw [place, Nat.add_mod_mod, show r.tail + (i + (r.capacity - r.tail)) = i + r.capacity by omega,
    Nat.add_mod_right, Nat.mod_eq_of_lt hi]

theorem Represents.holds (h : r.Represents l) : Holds r.capacity r l where
  slots := rfl
  bounded := h.length_le
  head_lt := h.head_lt
  tail_lt := h.tail_lt
  held := h.held
  free i hi apart := by
    obtain ⟨k, hk, rfl⟩ := h.place_surjective hi
    have outside : l.length ≤ k := Nat.le_of_not_lt fun inside => apart k inside rfl
    exact h.free k outside hk
  full_iff := Ring.full_iff h
  isEmpty_iff := Ring.isEmpty_iff h
  size_eq := Ring.size_eq h

/-- Popping is taking the first item off, also where there is none. -/
theorem Represents.popped (h : r.Represents l) :
    r.pop.1 = l.head? ∧ r.pop.2.Represents l.tail ∧ r.pop.2.capacity = r.capacity := by
  cases l with
  | nil =>
      have empty : r.isEmpty = true := (Ring.isEmpty_iff h).mpr rfl
      rw [pop, if_pos empty]
      exact ⟨rfl, h, rfl⟩
  | cons x rest =>
      obtain ⟨left, hpop, hleft, capacity⟩ := pop_eq h
      rw [hpop]
      exact ⟨rfl, hleft, capacity⟩

/-! ### Runs -/

/-- One operation on a ring, with what it was given or what it found. -/
inductive Change (α : Type)
  | pushed (x : α)
  | popped (found : Option α)

def Change.pushed? : Change α → Option α
  | .pushed x => some x
  | .popped _ => none

def Change.popped? : Change α → Option α
  | .pushed _ => none
  | .popped found => found

/-- The rings that these operations make of a new one with `capacity` slots. Only a ring that is not
full is pushed to. -/
inductive Run (capacity : Nat) : List (Change α) → Ring α → Prop
  | new : Run capacity [] (empty capacity)
  | pushed {changes : List (Change α)} {r : Ring α} (run : Run capacity changes r)
      (room : r.full = false) (x : α) : Run capacity (changes ++ [.pushed x]) (r.push x)
  | popped {changes : List (Change α)} {r : Ring α} (run : Run capacity changes r) :
      Run capacity (changes ++ [.popped r.pop.1]) r.pop.2

variable {capacity : Nat} {changes : List (Change α)}

/-- A run keeps the items that have been pushed and not popped, in the order in which they came. -/
theorem Run.represents (positive : 0 < capacity) (run : Run capacity changes r) :
    r.capacity = capacity ∧ ∃ l, r.Represents l ∧
      changes.filterMap Change.pushed? = changes.filterMap Change.popped? ++ l := by
  induction run with
  | new => exact ⟨Array.size_replicate, [], represents_empty positive, rfl⟩
  | pushed run room x ih =>
      obtain ⟨size, l, h, flow⟩ := ih
      refine ⟨(capacity_push _ x).trans size, l ++ [x], represents_push h room x, ?_⟩
      simp [flow, Change.pushed?, Change.popped?]
  | @popped changes r run ih =>
      obtain ⟨size, l, h, flow⟩ := ih
      obtain ⟨found, left, same⟩ := h.popped
      refine ⟨same.trans size, l.tail, left, ?_⟩
      rw [found, List.filterMap_append, List.filterMap_append, flow]
      cases l <;> simp [List.filterMap_cons, Change.pushed?, Change.popped?]

/-- The ring is a bounded list, and no check of the machine ever fails on it. -/
theorem Run.refines (positive : 0 < capacity) (word : capacity < Word.bound)
    (run : Run capacity changes r) :
    ∃ l, changes.filterMap Change.pushed? = changes.filterMap Change.popped? ++ l ∧
      Holds capacity r l ∧ r.size? = some l.length ∧
      (r.full = false → ∀ x, r.push? x = some (r.push x) ∧
        Holds capacity (r.push x) (l ++ [x])) ∧
      r.pop? = some r.pop ∧ r.pop.1 = l.head? ∧ Holds capacity r.pop.2 l.tail := by
  obtain ⟨rfl, l, h, flow⟩ := run.represents positive
  obtain ⟨found, left, same⟩ := h.popped
  refine ⟨l, flow, h.holds, ?_, fun room x => ⟨h.push?_eq word room x, ?_⟩, h.pop?_eq word, found,
    same ▸ left.holds⟩
  · rw [h.size?_eq word, Ring.size_eq h]
  · have pushed := (represents_push h room x).holds
    rwa [capacity_push] at pushed

/-- Three slots, and the fourth item goes into the slot that the first has left. -/
theorem refines_of_wrapped :
    ∃ (changes : List (Change Nat)) (r : Ring Nat), Run 3 changes r ∧ r.tail = 1 ∧ r.head = 1 ∧
      r.full = true ∧ Holds 3 r [2, 3, 4] ∧ r.size? = some 3 ∧ r.pop?.map (·.1) = some (some 2) := by
  have run : Run 3 _ ((((empty 3).push 1).push 2).pop.2.push 3 |>.push 4) :=
    (((((Run.new).pushed rfl 1).pushed rfl 2).popped).pushed rfl 3).pushed rfl 4
  obtain ⟨l, flow, holds, size, -, pop, found, -⟩ := run.refines (by decide) (by decide)
  obtain rfl : [2, 3, 4] = l := (List.cons.inj flow).2
  exact ⟨_, _, run, rfl, rfl, rfl, holds, size, by rw [pop, Option.map_some, found]; rfl⟩

end Ring

end WorkerPool
