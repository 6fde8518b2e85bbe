import WorkerPool.Payload

/-! The room that rows of equal slots take up. However much memory a machine has, a row spans at
most half of its addresses, and whoever asks for a longer one panics. Capacities and numbers of
threads are numbers of 64 bits, so they can ask for one. -/

namespace WorkerPool

/-- What one slot of a row takes up, and the alignment at which it has to begin. -/
structure Footprint where
  bytes : Nat
  alignment : Nat

namespace Footprint

/-- The bytes that a row can span. -/
def longestRow : Nat := 9223372036854775807

/-- Whether there can be a row of `count` slots. Its end is rounded up to the alignment. -/
def fits (slot : Footprint) (count : Nat) : Bool :=
  count * slot.bytes + (slot.alignment - 1) ≤ longestRow

/-- A slot of a channel that anybody may use. -/
def message : Footprint where
  bytes := 32
  alignment := 8

/-- A slot of the intake of a pool. -/
def item : Footprint where
  bytes := 56
  alignment := 8

/-- A slot of a batch. -/
def member : Footprint where
  bytes := 32
  alignment := 8

/-- The busy flag of a worker. No two of them share a cache line. -/
def busyFlag : Footprint where
  bytes := 64
  alignment := 64

/-- What asking for a row that there cannot be panics with. -/
def overflow : Payload :=
  .text "capacity overflow"

end Footprint

end WorkerPool
