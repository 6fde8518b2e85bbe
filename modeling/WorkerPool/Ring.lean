/-! A ring buffer: a fixed row of slots that is used round and round. `head` is the slot the next
item goes into and `tail` the slot that holds the oldest one. The two meet both when the ring is
empty and when it is full, so a flag tells these apart: it is set by the push that makes them meet
and cleared by every pop. -/

namespace WorkerPool

/-- A bounded first-in first-out store over a fixed row of slots. -/
structure Ring (α : Type) where
  slots : Array (Option α)
  head : Nat := 0
  tail : Nat := 0
  full : Bool := false

namespace Ring

variable {α : Type}

def empty (capacity : Nat) : Ring α where
  slots := Array.replicate capacity none

def capacity (r : Ring α) : Nat :=
  r.slots.size

def isEmpty (r : Ring α) : Bool :=
  !r.full && r.head == r.tail

/-- The number of occupied slots, read off the two positions. -/
def size (r : Ring α) : Nat :=
  if r.full then r.capacity
  else if r.tail ≤ r.head then r.head - r.tail
  else r.capacity - r.tail + r.head

/-- Stores `x` behind the items already there. Only a ring that is not full is pushed to. -/
def push (r : Ring α) (x : α) : Ring α :=
  let head := (r.head + 1) % r.capacity
  { r with
    slots := r.slots.setIfInBounds r.head (some x)
    head
    full := head == r.tail }

/-- Takes the oldest item out of its slot; an empty ring is left as it is. -/
def pop (r : Ring α) : Option α × Ring α :=
  if r.isEmpty then (none, r)
  else
    (r.slots[r.tail]?.join,
      { r with
        slots := r.slots.setIfInBounds r.tail none
        tail := (r.tail + 1) % r.capacity
        full := false })

/-- Pops until nothing is left, at most `limit` times. -/
def popUpTo : Nat → Ring α → List α × Ring α
  | 0, r => ([], r)
  | limit + 1, r =>
    match r.pop with
    | (none, r) => ([], r)
    | (some x, r) =>
      let (xs, r) := popUpTo limit r
      (x :: xs, r)

/-- Every item, oldest first, and the ring without them. -/
def drain (r : Ring α) : List α × Ring α :=
  popUpTo r.size r

end Ring

end WorkerPool
