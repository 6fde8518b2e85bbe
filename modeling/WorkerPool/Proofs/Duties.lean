import WorkerPool.Proofs.Accounts
import WorkerPool.Proofs.Dispatch
import WorkerPool.Proofs.Idle

/-! What the duties of a worker do. Each of them is one turn, and that turn brings about what the
duty is for: the item is taken, the flag is set, the account of the job is closed, the flag is
cleared, and the item is counted out of the backlog. So the diary of a worker tells what has become
of the items in it. -/

namespace WorkerPool

variable {α : Type}

/-- The item of a round is the one that the last operation has in its hands. -/
theorem Standing.Shows.item_of_last {p i : Nat} {standing : Standing} {front : List (Op α)}
    {phase : WorkerPhase} (shows : standing.Shows p i (front ++ [.work p i phase])) :
    ∀ item ∈ phase.items, standing.item? = some item := by
  intro item hitem
  generalize hops : front ++ [(.work p i phase : Op α)] = ops at shows
  have hlast := congrArg List.getLast? hops
  rw [List.getLast?_concat] at hlast
  cases shows with
  | stopped => simp at hlast
  | starting | reporting | reported | receiving | announcing | cleared =>
      obtain rfl : phase = _ := by simpa using hlast
      cases hitem
  | _ =>
      obtain rfl : phase = _ := by simpa using hlast
      rw [List.mem_singleton.mp hitem]
      rfl

namespace World

variable {w v : World α} {index pick : Nat} {t : Thread α} {p i : Nat} {moments : List (Moment α)}

/-- What a worker's duty has brought about when its turn from `w` to `v` is over. -/
def Done (w v : World α) (p i : Nat) : Duty → Prop
  | .took item => (.worker p i, .taken p item) ∈ v.history
  | .began _ => v.store.busy p i = true
  | .ended item none => v.CompletedBy (.worker p i) (.item p item.id) item.job.programs
  | .ended item (some payload) =>
    v.SpoiltBy (.worker p i) (.item p item.id) item.job.programs ∧
      (.worker p i, .line (.jobPanicked item.id payload)) ∈ v.history
  | .cleared _ => v.store.busy p i = false
  | .left => w.store.backlog p = v.store.backlog p + 1

/-- A departure counts one item out of the backlog, which is not empty before it. -/
theorem Reachable.backlog_of_leave (h : w.Reachable) (turn : w.turn index pick = some v)
    (got : w.threads[index]? = some t) {rest : List (Op α)}
    (ops : t.ops = .backlog p .leave :: rest) : w.store.backlog p = v.store.backlog p + 1 := by
  have held : 0 < w.store.backlog p := by
    obtain ⟨r, hload⟩ := load_of_mem (fun _ => Op.dues p) (List.mem_of_getElem? got)
      (ops ▸ List.mem_cons_self : .backlog p .leave ∈ t.ops)
    rw [h.backlog_eq p, dues, hload]
    simp only [Op.dues, if_true]
    omega
  obtain ⟨e, took, deed⟩ := took_of_turn_of_firm h.orderly got ops (by rintro ⟨⟩) turn
  rw [took.store]
  cases deed with
  | jobAdded submits | freeJobAdded submits => cases submits
  | left _ pool found =>
      rw [Store.backlog_setPool found, if_pos rfl]
      rw [Store.backlog_eq found] at held ⊢
      exact (Nat.sub_add_cancel held).symm

section Done

variable (h : w.Reachable) (turn : w.turn index pick = some v)
  (got : w.threads[index]? = some t) (who : t.who = .worker p i)

include h turn got who

theorem Reachable.done_took {stage : Stage} {item : Item}
    (ops : t.ops = [.work p i (.receive (.receive stage))]) (next : w.store.next? p = some item) :
    w.Done v p i (.took item) := by
  obtain ⟨e, took, deed⟩ := took_of_turn_of_firm h.orderly got ops (by rintro ⟨⟩) turn
  cases deed with
  | jobAdded submits | freeJobAdded submits => cases submits
  | taken _ _ pool _ item' ring found awake up valid first =>
      obtain rfl : item' = item := by simpa [Store.next?, found, up, first] using next
      exact took.mem_history.mpr (.inl ⟨who.symm, by simp⟩)
  | receiveSlept _ _ pool _ found awake up empty =>
      have hring := (h.orderly.rings p pool found).isEmpty_iff.mp empty
      simp [Store.next?, found, hring] at next
  | workerStopped _ _ pool _ found awake down => simp [Store.next?, found, down] at next

theorem Reachable.done_began {item : Item} (ops : t.ops = [.work p i (.begin item)]) :
    w.Done v p i (.began item) := by
  obtain ⟨e, took, deed⟩ := took_of_turn_of_firm h.orderly got ops (by rintro ⟨⟩) turn
  obtain ⟨pool, found, within⟩ := h.worker_within (List.mem_of_getElem? got) who
  cases deed.flag p i with
  | set item' due flag =>
      rw [Done, took.store]
      exact flag pool found within
  | cleared _ _ due => cases due
  | kept unset => exact absurd rfl (unset item)

theorem Reachable.done_ended {item : Item} {panic : Option Payload}
    (ops : t.ops = [.work p i (.running item panic)]) : w.Done v p i (.ended item panic) := by
  obtain ⟨e, took, deed⟩ := took_of_turn_of_firm h.orderly got ops (by rintro ⟨⟩) turn
  have part : (Op.work p i (.running item panic) : Op α).parts (.item p item.id) t.who =
      {.catcher t.who item.job.programs panic.isNone} := if_pos rfl
  have settles := took.settles h (.item p i item panic) part
  rw [who] at settles
  cases panic with
  | none => simpa [Done] using settles
  | some payload =>
      refine ⟨by simpa using settles, ?_⟩
      cases deed with
      | jobAdded submits | freeJobAdded submits => cases submits
      | jobBroke => exact took.mem_history.mpr (.inl ⟨who.symm, by simp⟩)

omit who in
theorem Reachable.done_cleared {item : Item} {succeeded : Bool}
    (ops : t.ops = [.work p i (.finish item succeeded)]) : w.Done v p i (.cleared item) := by
  obtain ⟨e, took, deed⟩ := took_of_turn_of_firm h.orderly got ops (by rintro ⟨⟩) turn
  cases deed.flag p i with
  | set _ due => cases due
  | cleared _ _ due flag => rw [Done, took.store, flag]
  | kept unset uncleared => exact absurd rfl (uncleared item succeeded)

end Done

/-- A duty is done when its turn is over. -/
theorem Reachable.done (h : w.Reachable) (turn : w.turn index pick = some v) {duty : Duty}
    (due : (Moment.mk w index).duty? p i = some duty) : w.Done v p i duty := by
  obtain ⟨t, got, who, hduty⟩ := of_duty? due
  have stack := h.orderly.ordered t (List.mem_of_getElem? got)
  have hself : ∀ {q j phase}, t.ops = [.work q j phase] → q = p ∧ j = i := fun hops => by
    rw [hops, who] at stack
    cases stack.1.self
    exact ⟨rfl, rfl⟩
  unfold Store.duty? at hduty
  split at hduty
  case h_1 q j stage hops =>
      obtain ⟨rfl, rfl⟩ := hself hops
      obtain ⟨item, next, rfl⟩ := Option.map_eq_some_iff.mp hduty
      exact h.done_took turn got who hops next
  case h_2 q j item hops =>
      cases hduty
      obtain ⟨rfl, rfl⟩ := hself hops
      exact h.done_began turn got who hops
  case h_3 q j item panic hops =>
      cases hduty
      obtain ⟨rfl, rfl⟩ := hself hops
      exact h.done_ended turn got who hops
  case h_4 q j item succeeded hops =>
      cases hduty
      obtain ⟨rfl, rfl⟩ := hself hops
      exact h.done_cleared turn got hops
  case h_5 q q' j call hops =>
      cases hduty
      rw [hops, who] at stack
      cases stack.2.1.self
      cases stack.1.aboveLoop
      exact h.backlog_of_leave turn got hops
  case h_6 => cases hduty

/-- How the job of a round has ended is how its account is closed. -/
theorem Run.ended {cells : List Int} (run : (World.start cells).Run moments w) {item : Item}
    {panic : Option Payload} (mem : .ended item panic ∈ diary p i moments) :
    if panic.isNone then w.CompletedBy (.worker p i) (.item p item.id) item.job.programs
    else w.SpoiltBy (.worker p i) (.item p item.id) item.job.programs := by
  obtain ⟨m, hm, due⟩ := List.mem_filterMap.mp mem
  obtain ⟨before, after, v, pick, rfl, hbefore, turn, hafter⟩ := run.of_mem hm
  have reachable : m.world.Reachable := hbefore.reachable (.start cells)
  have done := reachable.done turn due
  have reachable' : v.Reachable := .next reachable (.turn m.index pick turn)
  cases panic with
  | none => exact hafter.later.completedBy reachable' Origin.noConfusion done
  | some payload => exact hafter.later.spoiltBy reachable' Origin.noConfusion done.1

theorem Rounds.ended_mem {rounds : List Round} {standing : Standing}
    (h : w.Rounds p i moments rounds standing) {r : Round} (hr : r ∈ rounds) :
    .ended r.item r.panic ∈ WorkerPool.diary p i moments := by
  have mem : .ended r.item r.panic ∈ r.duties := by simp [Round.duties]
  rw [h.diary]
  exact List.mem_append_left _ (List.mem_flatMap_of_mem hr mem)

end World

end WorkerPool
