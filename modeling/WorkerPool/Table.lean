/-! Tables of things kept under names, in the order in which the names first came up. -/

namespace WorkerPool

structure Table (β : Type) where
  toList : List (String × β) := []

namespace Table

variable {β : Type}

def find? (t : Table β) (name : String) : Option β :=
  t.toList.lookup name

/-- Keeps `x` under `name`, in place of what was kept there before. -/
def insert (t : Table β) (name : String) (x : β) : Table β where
  toList :=
    if (t.find? name).isSome then t.toList.map fun e => if e.1 == name then (name, x) else e
    else t.toList ++ [(name, x)]

def erase (t : Table β) (name : String) : Table β where
  toList := t.toList.filter fun e => e.1 != name

end Table

end WorkerPool
