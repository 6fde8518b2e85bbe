import WorkerPool.Proofs.Inert

/-! What a run does to the cells of memory. A function that is being performed may write a cell, and
nothing else changes any, so the cells at the end of a run are those at its beginning with the
writes of the run put over them, one after the other. What is found in one cell then depends on the
writes to this cell only, and on their order. -/

namespace WorkerPool

variable {α : Type}

/-- What an action writes: into which cell, and what. -/
def Action.write? : Action → Option (Nat × Int)
  | .write index value => some (index, value)
  | _ => none

/-- The action that the operation carries out in its next turn, and on whose account. -/
def Op.act? : Op α → Option (Origin × Action)
  | .code origin _ (some (action :: _)) _ => some (origin, action)
  | _ => none

/-- What the operation writes in its next turn. -/
def Op.write? (op : Op α) : Option (Nat × Int) :=
  op.act?.bind fun (_, action) => action.write?

/-- The action that is carried out in a turn, and on whose account. -/
def Moment.act? (m : Moment α) : Option (Origin × Action) :=
  m.due?.bind fun (_, op) => op.act?

/-- What is written in a turn. -/
def Moment.write? (m : Moment α) : Option (Nat × Int) :=
  m.act?.bind fun (_, action) => action.write?

theorem Action.of_write? {action : Action} {write : Nat × Int}
    (h : action.write? = some write) : action = .write write.1 write.2 := by
  unfold write? at h
  split at h
  · cases h
    rfl
  · cases h

theorem Op.of_act? {op : Op α} {origin : Origin} {action : Action}
    (h : op.act? = some (origin, action)) :
    ∃ position rest later, op = .code origin position (some (action :: rest)) later := by
  unfold act? at h
  split at h
  · cases h
    exact ⟨_, _, _, rfl⟩
  · cases h

theorem Op.of_write? {op : Op α} {write : Nat × Int} (h : op.write? = some write) :
    ∃ origin position rest later,
      op = .code origin position (some (.write write.1 write.2 :: rest)) later := by
  obtain ⟨⟨origin, action⟩, act, wrote⟩ := Option.bind_eq_some_iff.mp h
  obtain ⟨position, rest, later, rfl⟩ := Op.of_act? act
  exact ⟨origin, position, rest, later, by rw [Action.of_write? wrote]⟩

/-- The cells after some writes, the first one first. There is nothing to write into beyond them. -/
def overwrite (cells : List Int) (writes : List (Nat × Int)) : List Int :=
  writes.foldl (fun cells (index, value) => cells.set index value) cells

theorem overwrite_append (cells : List Int) (front back : List (Nat × Int)) :
    overwrite cells (front ++ back) = overwrite (overwrite cells front) back :=
  List.foldl_append

@[simp] theorem length_overwrite (cells : List Int) (writes : List (Nat × Int)) :
    (overwrite cells writes).length = cells.length := by
  induction writes generalizing cells with
  | nil => rfl
  | cons write writes ih => exact (ih _).trans List.length_set

/-- What is in a cell is what has been written into this cell last. -/
theorem getElem?_overwrite (cells : List Int) (writes : List (Nat × Int)) (i : Nat) :
    (overwrite cells writes)[i]? =
      (writes.filter (·.1 == i)).foldl (fun held (_, value) => held.map fun _ => value)
        cells[i]? := by
  induction writes generalizing cells with
  | nil => rfl
  | cons write writes ih =>
      refine (ih (cells.set write.1 write.2)).trans ?_
      by_cases hit : write.1 = i
      · rw [List.filter_cons_of_pos (by simpa using hit), List.foldl_cons, ← hit,
          List.getElem?_set_self']
        rfl
      · rw [List.filter_cons_of_neg (by simpa using hit), List.getElem?_set_ne hit]

/-- Writes that agree on a cell leave the same in it, whatever is written elsewhere in between. -/
theorem overwrite_congr {cells cells' : List Int} {writes writes' : List (Nat × Int)} {i : Nat}
    (same : cells[i]? = cells'[i]?)
    (agree : writes.filter (·.1 == i) = writes'.filter (·.1 == i)) :
    (overwrite cells writes)[i]? = (overwrite cells' writes')[i]? := by
  rw [getElem?_overwrite, getElem?_overwrite, same, agree]

section Commands

variable {around : Around} {s : Store α} {who : Who} {e : Effect α}

theorem cells_withObject {β : Type} (name : String) (object? : Option β) (f : β → Effect α)
    (h : ∀ object, (f object).store.cells = s.cells) :
    (Effect.withObject s name object? f).store.cells = s.cells := by
  cases object? with
  | none => rfl
  | some object => exact h object

/-- No command changes a cell in its first turn. -/
theorem Command.cells (command : Command α) :
    (command.effect around s).store.cells = s.cells := by
  by_cases outer : command.Outer
  case neg => exact (command.inert outer).retains.cells
  cases command with
  | newMonitor name value => rfl
  | onMonitor name request =>
      refine cells_withObject name _ _ fun place => cells_withObject name _ _ fun m => ?_
      cases request with
      | poison =>
          simp only [MonitorRequest.effect]
          split <;> rfl
      | _ => rfl
  | newChannel name capacity =>
      simp only [effect]
      split
      · rfl
      · split <;> rfl
  | onChannel name request =>
      refine cells_withObject name _ _ fun place => cells_withObject name _ _ fun c => ?_
      cases request <;> rfl
  | _ => exact outer.elim

/-- What the turn of an operation does to the cells. -/
theorem Op.cells {op : Op α} (h : op.effect around s who = some e)
    (deed : Deed around s who op e) : e.store.cells = overwrite s.cells op.write?.toList := by
  cases hwrite : op.write? with
  | some write =>
      obtain ⟨origin, position, rest, later, rfl⟩ := Op.of_write? hwrite
      obtain ⟨-, ⟨-, store, -⟩ | ⟨outside, store, -⟩⟩ := Op.effect_write h
      · rw [store]
        rfl
      · rw [store]
        exact (List.set_eq_of_length_le outside).symm
  | none =>
      change e.store.cells = s.cells
      cases op with
      | command given =>
          obtain rfl := Option.some.inj h
          exact given.cells
      | monitor place call =>
          obtain ⟨m, -, h⟩ := Option.bind_eq_some_iff.mp h
          obtain ⟨turned, -, rfl⟩ := Option.map_eq_some_iff.mp h
          split <;> rfl
      | channel place call =>
          obtain ⟨c, -, h⟩ := Option.bind_eq_some_iff.mp h
          obtain ⟨turned, -, rfl⟩ := Option.map_eq_some_iff.mp h
          split <;> rfl
      | code origin position current later =>
          refine (Op.inert h deed fun active => ?_).retains.cells
          obtain ⟨index, value, rest, rfl⟩ := active.write
          cases hwrite
      | _ => exact (Op.inert h deed id).retains.cells

end Commands

namespace World

variable {u v w : World α} {index pick : Nat} {moments : List (Moment α)}

theorem act?_eq {t : Thread α} {op : Op α} {rest : List (Op α)} (got : w.threads[index]? = some t)
    (ops : t.ops = op :: rest) : (Moment.mk w index).act? = op.act? := by
  rw [Moment.act?, due?_eq got ops]
  rfl

theorem of_act? {origin : Origin} {action : Action}
    (act : (Moment.mk w index).act? = some (origin, action)) :
    ∃ t position left later rest, w.threads[index]? = some t ∧
      t.ops = .code origin position (some (action :: left)) later :: rest := by
  obtain ⟨⟨who, op⟩, due, act⟩ := Option.bind_eq_some_iff.mp act
  obtain ⟨t, rest, got, -, ops⟩ := of_due? due
  obtain ⟨position, left, later, rfl⟩ := Op.of_act? act
  exact ⟨t, position, left, later, rest, got, ops⟩

/-- What a turn does to the cells. -/
theorem cells_of_turn (orderly : w.Orderly) (turn : w.turn index pick = some v) :
    v.store.cells = overwrite w.store.cells (Moment.mk w index).write?.toList := by
  obtain ⟨t, got, due⟩ := Option.bind_eq_some_iff.mp turn
  split at due
  · cases due
  · rename_i op rest ops
    obtain ⟨e, effect, rfl, deed, -⟩ := took_cases orderly got ops turn
    rw [Moment.write?, act?_eq got ops]
    exact Op.cells effect deed

/-- What a run does to the cells. -/
theorem Run.cells (run : u.Run moments w) (h : u.Reachable) :
    w.store.cells = overwrite u.store.cells (moments.filterMap (·.write?)) := by
  induction run with
  | nil => rfl
  | issue run command ih => exact ih
  | turn run index pick turn ih =>
      rw [cells_of_turn (run.reachable h).orderly turn, ih, filterMap_concat, overwrite_append]

end World

end WorkerPool
