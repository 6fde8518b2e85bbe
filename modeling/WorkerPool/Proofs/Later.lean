import Mathlib.Logic.Relation
import WorkerPool.Proofs.Entries

/-! What comes later. A run goes on from a world by turns of its threads and by new commands, in any
order, and what each of these keeps holds in every world that the run can come to. The history only
grows, and the pools and latches that are there stay there. -/

namespace WorkerPool

variable {α : Type}

theorem Latch.Grows.trans {l m n : Latch} (h : l.Grows m) (h' : m.Grows n) : l.Grows n where
  held := by
    rcases h'.held with held | held
    · rw [held]
      exact h.held
    · exact .inr held
  failed := fun failed => h'.failed (h.failed failed)
  remaining := Nat.le_trans h'.remaining h.remaining
  down := fun down => h'.down (h.down down)

theorem Pool.Grows.trans {p q r : Pool} (h : p.Grows q) (h' : q.Grows r) : p.Grows r where
  name := h'.name.trans h.name
  started := h'.started.trans h.started
  threads := h'.threads.trans h.threads
  capacity := h'.capacity.trans h.capacity
  nextId := Nat.le_trans h.nextId h'.nextId
  down := fun down => h'.down (h.down down)
  ring := fun valid => h'.ring (h.ring valid)
  endless := h'.endless.trans h.endless

namespace World

variable {w v : World α}

/-- The world `v` can come after `w`. -/
def Later (w v : World α) : Prop :=
  Relation.ReflTransGen Step w v

theorem Reachable.later (h : w.Reachable) (later : w.Later v) : v.Reachable := by
  induction later with
  | refl => exact h
  | tail _ step ih => exact .next ih step

theorem later_settle (w : World α) (limit running : Nat) : w.Later (w.settle limit running) :=
  settle_keeps .tail .refl limit running

/-- What every turn and every command keeps holds in all later worlds. -/
theorem Later.keeps (later : w.Later v) (reachable : w.Reachable) {P : World α → Prop} (h : P w)
    (hissue : ∀ w command, w.Reachable → P w → P (w.issue command))
    (hturn : ∀ w v index t old tail e, w.Reachable → v.Reachable → w.Took v index t old tail e →
      P w → P v) : P v := by
  induction later with
  | refl => exact h
  | @tail u v earlier step ih =>
      have hu : u.Reachable := reachable.later earlier
      have hv : v.Reachable := .next hu step
      cases step with
      | issue command => exact hissue u command hu ih
      | turn index pick took =>
          obtain ⟨t, old, tail, e, took⟩ := took_of_turn hu.orderly took
          exact hturn u v index t old tail e hu hv took ih

theorem Later.history_subset (later : w.Later v) (reachable : w.Reachable) :
    w.history ⊆ v.history := by
  refine later.keeps reachable (P := fun v => w.history ⊆ v.history) (fun _ h => h)
    (fun w command _ ih => ih) fun _ _ _ _ _ _ _ _ _ took ih => ?_
  exact fun _ h => took.history_subset (ih h)

theorem Later.latch (later : w.Later v) (reachable : w.Reachable) {l : Nat} {latch : Latch}
    (found : w.store.latches[l]? = some latch) :
    ∃ latch', v.store.latches[l]? = some latch' ∧ latch.Grows latch' := by
  refine later.keeps reachable
    (P := fun v => ∃ latch', v.store.latches[l]? = some latch' ∧ latch.Grows latch')
    ⟨latch, found, .refl latch⟩ (fun w command _ ih => ih) ?_
  rintro w v index t old tail e - - took ⟨latch', found', grows⟩
  obtain ⟨latch'', found'', grows'⟩ := took.act.latches.grows found'
  exact ⟨latch'', took.store ▸ found'', grows.trans grows'⟩

theorem Later.pool (later : w.Later v) (reachable : w.Reachable) {p : Nat} {pool : Pool}
    (found : w.store.pools[p]? = some pool) :
    ∃ pool', v.store.pools[p]? = some pool' ∧ pool.Grows pool' := by
  refine later.keeps reachable
    (P := fun v => ∃ pool', v.store.pools[p]? = some pool' ∧ pool.Grows pool')
    ⟨pool, found, .refl pool⟩ (fun w command _ ih => ih) ?_
  rintro w v index t old tail e - - took ⟨pool', found', grows⟩
  obtain ⟨pool'', found'', grows'⟩ := took.act.pools.grows found'
  exact ⟨pool'', took.store ▸ found'', grows.trans grows'⟩

end World

end WorkerPool
