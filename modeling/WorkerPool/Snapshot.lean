import WorkerPool.Store

/-! What an onlooker sees of the objects between two steps. -/

namespace WorkerPool

structure LatchView where
  remaining : Nat
  realized : Bool
  failed : Bool
  terminated : Bool
  deriving DecidableEq, Repr

structure PoolView where
  pending : Nat
  busy : Nat
  down : Bool
  deriving DecidableEq, Repr

structure ChannelView where
  size : Nat
  empty : Bool
  terminated : Bool
  deriving DecidableEq, Repr

structure MonitorView where
  value : Int
  terminated : Bool
  deriving DecidableEq, Repr

def Latch.view (l : Latch) : LatchView where
  remaining := l.value.remaining
  realized := l.realized
  failed := l.value.failed
  terminated := l.terminated

def Pool.view (p : Pool) : PoolView where
  pending := p.pending
  busy := p.busyCount
  down := p.isDown

def Channel.view {α : Type} (c : Channel α) : ChannelView where
  size := c.value.size
  empty := c.value.isEmpty
  terminated := c.terminated

def Monitor.view (m : Monitor Int) : MonitorView where
  value := m.value
  terminated := m.terminated

/-- The fields in alphabetical order, as an object literal without blanks. -/
def LatchView.text (v : LatchView) : String :=
  "\x7b\"failed\":" ++ toString v.failed ++ ",\"realized\":" ++ toString v.realized ++
    ",\"remaining\":" ++ toString v.remaining ++
    ",\"terminated\":" ++ toString v.terminated ++ "\x7d"

def PoolView.text (v : PoolView) : String :=
  "\x7b\"busy\":" ++ toString v.busy ++ ",\"down\":" ++ toString v.down ++
    ",\"pending\":" ++ toString v.pending ++ "\x7d"

/-- The views of all objects that have a name. -/
structure Snapshot where
  latches : List (String × LatchView)
  channels : List (String × ChannelView)
  monitors : List (String × MonitorView)
  pools : List (String × PoolView)

def Store.snapshot {α : Type} (s : Store α) : Snapshot where
  latches := s.names.latches.toList.filterMap fun (name, place) =>
    s.latches[place]?.map fun l => (name, l.view)
  channels := s.names.channels.toList.filterMap fun (name, place) =>
    s.channels[place]?.map fun c => (name, Channel.view c)
  monitors := s.names.monitors.toList.filterMap fun (name, place) =>
    s.monitors[place]?.map fun m => (name, m.view)
  pools := s.names.pools.toList.filterMap fun (name, place) =>
    s.pools[place]?.map fun p => (name, p.view)

end WorkerPool
