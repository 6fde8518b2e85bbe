import WorkerPool.Proofs.Outcome
import WorkerPool.Proofs.Provenance

/-! The fates of items. Every item that is submitted comes to one end at most: it is refused and
given back, or discarded by a shutdown, or taken by one worker, who performs it once. Until then it
is in one place, with the thread that sends it, in the ring, or with the worker that has taken it.
The log agrees with this: it tells of the performance of the items that workers took and of nothing
else, it rejects what was refused, and it counts what was discarded. -/

namespace WorkerPool

variable {α : Type}

/-- A performance of `programs` in the thread `who` is going on. -/
def Performance.Active (who : Who) (programs : List Program) : Performance → Prop
  | .between who' done later => who' = who ∧ programs = done ++ later
  | .inside who' done program later | .broken who' done program later =>
    who' = who ∧ programs = done ++ program :: later
  | .through who' done => who' = who ∧ programs = done
  | _ => False

theorem Performance.active_of_catcher {state : Performance} {who : Who} {programs : List Program}
    (fine : Bool) (h : .catcher who programs fine ∈ state.parts) : state.Active who programs := by
  cases state <;> simp [parts] at h <;> simp [Active, h]

/-- What the calls on account of an item have come to, given its lot. -/
def Lot.Accounts (w : World α) (p id : Nat) : Lot → Prop
  | .performing index item =>
    ∃ state, w.Stands (.item p id) state ∧ state.Active (.worker p index) item.job.programs
  | .performed index item | .finished index item =>
    w.CompletedBy (.worker p index) (.item p id) item.job.programs
  | .panicked index item => w.SpoiltBy (.worker p index) (.item p id) item.job.programs
  | _ => w.Untouched (.item p id)

namespace Op

/-- A worker that performs an item has the operation in front of it that deals with the end. -/
theorem of_performing_mem {p id : Nat} {who : Who} {op : Op α} {index : Nat} {item : Item}
    (h : .performing index item ∈ op.lots p id who) :
    ∃ panic, op = .work p index (.running item panic) ∧ item.id = id := by
  unfold Op.lots at h
  split at h
  · split at h
    · split at h <;> simp at h
    · simp at h
  · split at h <;> simp at h
  · split at h <;> simp at h
  · rename_i q i item' panic
    split at h
    · rename_i hit
      obtain ⟨rfl, rfl⟩ := hit
      simp only [Multiset.mem_singleton, Lot.performing.injEq] at h
      obtain ⟨rfl, rfl⟩ := h
      exact ⟨panic, rfl, rfl⟩
    · simp at h
  · split at h <;> simp at h
  · simp at h

theorem of_performed_mem {p id : Nat} {who : Who} {op : Op α} {index : Nat} {item : Item}
    (h : .performed index item ∈ op.lots p id who) :
    op = .work p index (.finish item true) ∧ item.id = id := by
  unfold Op.lots at h
  split at h
  · split at h
    · split at h <;> simp at h
    · simp at h
  · split at h <;> simp at h
  · split at h <;> simp at h
  · split at h <;> simp at h
  · split at h
    · rename_i hit
      obtain ⟨rfl, rfl⟩ := hit
      simp only [Multiset.mem_singleton, Lot.performed.injEq] at h
      obtain ⟨rfl, rfl⟩ := h
      exact ⟨rfl, rfl⟩
    · simp at h
  · simp at h

end Op

namespace World

/-- The lot of an item that is neither queued nor at its end is in the hands of some thread. -/
theorem op_of_lots {w : World α} {p id : Nat} {lot : Lot} (h : w.lots p id = {lot})
    (busy : ∀ item, lot ≠ .queued item) :
        ∃ t ∈ w.threads, ∃ op ∈ t.ops, lot ∈ op.lots p id t.who := by
  have hmem : lot ∈ w.lots p id := by rw [h]; exact Multiset.mem_singleton_self lot
  rcases Multiset.mem_add.mp hmem with hmem | hmem
  · exact mem_load.mp hmem
  · obtain ⟨item, -, rfl⟩ := List.mem_map.mp (show lot ∈ List.map Lot.queued _ from hmem)
    exact absurd rfl (busy item)

/-- The calls on account of an item are those that its lot accounts for. -/
theorem Reachable.accounts {w : World α} (h : w.Reachable) {p id : Nat} {lot : Lot}
    (course : Course p id (w.course p id) lot) (held : w.lots p id = lot.held) :
    lot.Accounts w p id := by
  have ho : Origin.item p id ≠ .caller := Origin.noConfusion
  have huntouched : (∀ index item, lot ≠ .performing index item ∧ lot ≠ .performed index item ∧
      lot ≠ .finished index item ∧ lot ≠ .panicked index item) → w.Untouched (.item p id) := by
    intro hlot
    refine h.untouched ho ?_
    rintro ⟨who, hmem⟩
    obtain ⟨index, item, -, hcases⟩ := course.of_started hmem
    obtain ⟨h1, h2, h3, h4⟩ := hlot index item
    rcases hcases with hcase | hcase | hcase | hcase
    · exact h1 hcase
    · exact h2 hcase
    · exact h3 hcase
    · exact h4 hcase
  have truthful := h.truthful
  have htaken : ∀ {index : Nat} {item item' : Item}, lot.item? = some item →
      item'.id = id → (Who.worker p index, Entry.taken p item') ∈ w.history → item = item' := by
    intro index item item' hitem hid hmem
    have hmem := mem_course (show _ from hmem)
      (show Entry.concerns p id _ = true by simp [Entry.concerns, hid])
    exact Option.some.inj (hitem.symm.trans (course.item_eq hmem rfl))
  cases lot with
  | performing index item =>
      obtain ⟨t, ht, op, hop, hmem⟩ := op_of_lots held (by simp)
      obtain ⟨panic, rfl, rfl⟩ := Op.of_performing_mem hmem
      obtain ⟨above, rest, -, before⟩ := (h.orderly.ordered t ht).before hop
      obtain ⟨state, stands⟩ := h.stands ho
      refine ⟨state, stands, Performance.active_of_catcher panic.isNone ?_⟩
      rw [← stands.left, World.parts, mem_load]
      refine ⟨t, ht, _, hop, ?_⟩
      simp [Op.parts, before.self]
  | performed index item =>
      obtain ⟨t, ht, op, hop, hmem⟩ := op_of_lots held (by simp)
      obtain ⟨rfl, rfl⟩ := Op.of_performed_mem hmem
      exact truthful.performed t ht _ hop p index item rfl
  | finished index item =>
      have hmem : (Who.worker p index, Entry.line (.jobFinished id)) ∈ w.course p id := by
        generalize w.course p id = entries at course
        cases course
        exact List.mem_cons_self
      obtain ⟨q, i, item', hwho, hid, taken, completed⟩ :=
        truthful.finished _ _ (List.mem_filter.mp hmem).1
      cases hwho
      rw [htaken rfl hid taken]
      exact completed
  | panicked index item =>
      obtain ⟨payload, hmem⟩ : ∃ payload,
          (Who.worker p index, Entry.line (.jobPanicked id payload)) ∈ w.course p id := by
        generalize w.course p id = entries at course
        cases course with
        | panicked payload before => exact ⟨payload, List.mem_cons_self⟩
      obtain ⟨q, i, item', hwho, hid, taken, spoilt⟩ :=
        truthful.panicked _ _ _ (List.mem_filter.mp hmem).1
      cases hwho
      rw [htaken rfl hid taken]
      exact spoilt
  | _ => exact huntouched (by simp)

end World

/-! ### Refusals and rejections -/

/-- The refusal that an entry keeps track of. -/
def Entry.refusal? : Entry → Option (Nat × Item)
  | .refused p item => some (p, item)
  | _ => none

/-- The rejection that a line tells of, by the name of the pool and the id. -/
def Entry.rejection? : Entry → Option (String × Nat)
  | .line (.rejected name id) => some (name, id)
  | _ => none

/-- The item that a line on its performance is about. -/
def LogLine.job? : LogLine → Option Nat
  | .jobStarted id | .jobFinished id | .jobPanicked id _ => some id
  | _ => none

/-- The items that were discarded from a pool of this name, as far as an entry tells. -/
def Entry.discards (names : Nat → String) (name : String) : Entry → Nat
  | .discarded p _ => if names p = name then 1 else 0
  | _ => 0

/-- The items that a line says were abandoned. -/
def Entry.abandons (name : String) : Entry → Nat
  | .line (.itemsAbandoned other count) => if other = name then count else 0
  | _ => 0

/-- The items that a shutdown has drained and not told of yet. -/
def Op.drains (names : Nat → String) (name : String) : Op α → Nat
  | .shutDown p (.call (.announce (.drained items))) => if names p = name then items.length else 0
  | _ => 0

namespace Store

/-- The pools have these names. -/
def Named (s : Store α) (names : Nat → String) : Prop :=
  ∀ (p : Nat) (pool : Pool), s.pools[p]? = some pool → pool.name = names p

/-- The name that the pool at `p` was given. -/
def poolName (s : Store α) (p : Nat) : String :=
  (s.pools[p]?.map (·.name)).getD ""

theorem named_poolName (s : Store α) : s.Named s.poolName := by
  intro p pool found
  rw [poolName, found]
  rfl

end Store

section Deeds

variable {around : Around} {s : Store α} {who : Who} {old : List (Op α)} {e : Effect α}
  {names : Nat → String}

/-- A refusal is told of in the same turn. -/
theorem Act.rejections (act : Act around s who old e) (named : s.Named names) :
    e.notes.filterMap Entry.rejection? =
      (e.notes.filterMap Entry.refusal?).map fun (p, item) => (names p, item.id) := by
  have hnil : (∀ note ∈ e.notes, note.rejection? = none ∧ note.refusal? = none) →
      e.notes.filterMap Entry.rejection? =
        (e.notes.filterMap Entry.refusal?).map fun (p, item) => (names p, item.id) := by
    intro hnone
    rw [List.filterMap_eq_nil_iff.mpr fun note hnote => (hnone note hnote).1,
      List.filterMap_eq_nil_iff.mpr fun note hnote => (hnone note hnote).2]
    rfl
  cases act with
  | broke payload loose lands uncaught =>
      refine hnil fun note hnote => ?_
      rcases lands.of_mem_notes hnote with ⟨origin, position, rfl⟩ | rfl
      · exact ⟨rfl, rfl⟩
      · exact ⟨rfl, rfl⟩
  | @deed op e deed quiet =>
      by_cases h : ∃ sub item, op = .submit sub (.refuse item)
      · obtain ⟨sub, item, rfl⟩ := h
        cases deed with
        | refusing _ pool _ found =>
            show [(pool.name, item.id)] = [(names sub.pool, item.id)]
            rw [named sub.pool pool found]
        | jobAdded submits | freeJobAdded submits => cases submits
      · refine hnil fun note hnote => ?_
        rcases deed.writes hnote with plain | writes
        · cases note with
          | event => exact ⟨rfl, rfl⟩
          | line written => cases written <;> first | exact plain.elim | exact ⟨rfl, rfl⟩
          | _ => exact plain.elim
        · cases writes with
          | refused sub item => exact absurd ⟨sub, item, rfl⟩ h
          | rejected sub pool item found => exact absurd ⟨sub, item, rfl⟩ h
          | _ => exact ⟨rfl, rfl⟩

theorem Op.drains_of_not_serves {op : Op α} (h : ¬op.Serves) (name : String) :
    op.drains names name = 0 := by
  unfold drains
  split
  · exact absurd trivial h
  · rfl

/-- What a shutdown has drained is told of when it has woken the sleepers. -/
theorem Act.abandonments (act : Act around s who old e) (named : s.Named names) (name : String) :
    (e.notes.map (Entry.abandons name)).sum + (e.ops.map (Op.drains names name)).sum =
      (e.notes.map (Entry.discards names name)).sum + (old.map (Op.drains names name)).sum := by
  have hzero : (∀ note ∈ e.notes, note.abandons name = 0 ∧ note.discards names name = 0) →
      (∀ op ∈ e.ops, op.Serves → op.drains names name = 0) →
      (∀ op ∈ old, op.drains names name = 0) →
      (e.notes.map (Entry.abandons name)).sum + (e.ops.map (Op.drains names name)).sum =
        (e.notes.map (Entry.discards names name)).sum + (old.map (Op.drains names name)).sum := by
    intro hnotes hops hold
    rw [sum_map_eq_zero hold, sum_map_eq_zero fun note hnote => (hnotes note hnote).1,
      sum_map_eq_zero fun note hnote => (hnotes note hnote).2, sum_map_eq_zero fun op hop => ?_]
    by_cases serves : op.Serves
    · exact hops op hop serves
    · exact Op.drains_of_not_serves serves name
  cases act with
  | broke payload loose lands uncaught =>
      refine hzero (fun note hnote => ?_) (fun op hop serves => ?_) fun op hop => ?_
      · rcases lands.of_mem_notes hnote with ⟨origin, position, rfl⟩ | rfl
        · exact ⟨rfl, rfl⟩
        · exact ⟨rfl, rfl⟩
      · rcases lands.of_serves hop serves with ⟨_, _, _, rfl, -⟩ | ⟨_, _, _, _, rfl, -⟩
        · rfl
        · rfl
      · rcases List.mem_append.mp hop with hop | hop
        · have := loose op hop
          cases op <;> first | exact this.elim | rfl
        · cases lands with
          | nowhere => cases hop
          | _ =>
              simp only [List.mem_cons, List.not_mem_nil, or_false] at hop
              rcases hop with rfl | rfl <;> rfl
  | @deed op e deed quiet =>
      by_cases hdrain : ∃ p, op = .shutDown p (.call .drain)
      · obtain ⟨p, rfl⟩ := hdrain
        cases deed with
        | jobAdded submits | freeJobAdded submits => cases submits
        | drained _ pool ring found =>
            simp [Function.comp_def, Entry.abandons, Entry.discards, Op.drains]
      · by_cases htold : ∃ p items, op = .shutDown p (.call (.announce (.drained items)))
        · obtain ⟨p, items, rfl⟩ := htold
          cases deed with
          | jobAdded submits | freeJobAdded submits => cases submits
          | abandoned _ pool _ found =>
              have hops : ((items.flatMap (Op.discard p) ++ [.shutDown p .done] : List (Op α)).map
                  (Op.drains names name)).sum = 0 := by
                refine sum_map_eq_zero fun op hop => ?_
                rcases List.mem_append.mp hop with hop | hop
                · exact Op.drains_of_not_serves
                    (Op.flatMap_discard_settles p items op hop).not_serves name
                · obtain rfl := List.mem_singleton.mp hop
                  rfl
              rw [hops]
              cases items <;> simp [Entry.abandons, Entry.discards, Op.drains, named p pool found]
        · refine hzero (fun note hnote => ?_) (fun op' hop serves => ?_) fun op' hop => ?_
          · rcases deed.writes hnote with plain | writes
            · cases note with
              | event => exact ⟨rfl, rfl⟩
              | line written => cases written <;> first | exact plain.elim | exact ⟨rfl, rfl⟩
              | _ => exact plain.elim
            · cases writes with
              | discarded p pool item found queued => exact absurd ⟨p, rfl⟩ hdrain
              | abandoned p pool items found => exact absurd ⟨p, items, rfl⟩ htold
              | _ => exact ⟨rfl, rfl⟩
          · cases deed.follows hop serves with
            | drained p items => exact absurd ⟨p, rfl⟩ hdrain
            | _ => rfl
          · obtain rfl := List.mem_singleton.mp hop
            unfold Op.drains
            split
            · rename_i p items
              exact absurd ⟨p, items, rfl⟩ htold
            · rfl

end Deeds

namespace World

/-- The items that submissions were left with, latest first, each with the pool that refused it. -/
def refusals (w : World α) : List (Who × Nat × Item) :=
  w.history.filterMap fun (who, entry) => entry.refusal?.map (who, ·)

/-- The lines on rejected submissions, latest first, by the name of the pool and the id. -/
def rejections (w : World α) : List (Who × String × Nat) :=
  w.history.filterMap fun (who, entry) => entry.rejection?.map (who, ·)

/-- How many items the lines on abandoned items count for pools of this name. -/
def abandoned (w : World α) (name : String) : Nat :=
  (w.history.map fun (_, entry) => entry.abandons name).sum

/-- How many items were discarded from pools of this name. -/
def discarded (w : World α) (names : Nat → String) (name : String) : Nat :=
  (w.history.map fun (_, entry) => entry.discards names name).sum

/-- How many items shutdowns have drained from pools of this name and not told of yet. -/
def drained (w : World α) (names : Nat → String) (name : String) : Nat :=
  w.load fun _ op => op.drains names name

theorem Took.named {w v : World α} {index : Nat} {t : Thread α} {old tail : List (Op α)}
    {e : Effect α} (took : w.Took v index t old tail e) {names : Nat → String}
    (h : v.store.Named names) : w.store.Named names := by
  intro p pool found
  obtain ⟨pool', found', grows⟩ := took.act.pools.grows found
  rw [← grows.name]
  exact h p pool' (took.store ▸ found')

theorem Reachable.rejections_eq {w : World α} (h : w.Reachable) {names : Nat → String}
    (named : w.store.Named names) :
    w.rejections = w.refusals.map fun (who, p, item) => (who, names p, item.id) := by
  refine h.induct (P := fun w => w.store.Named names →
    w.rejections = w.refusals.map fun (who, p, item) => (who, names p, item.id))
    (fun cells _ => rfl) (fun w command _ ih named => ih named) ?_ named
  intro w v index t old tail e reachable took ih named
  have hnamed := took.named named
  have hnotes : ∀ {β : Type} (f : Entry → Option β),
      v.history.filterMap (fun (who, entry) => (f entry).map (who, ·)) =
        ((e.notes.filterMap f).map (t.who, ·)).reverse ++
          w.history.filterMap fun (who, entry) => (f entry).map (who, ·) := by
    intro β f
    rw [took.history, List.filterMap_append, List.filterMap_reverse, List.filterMap_map,
      List.map_filterMap]
    rfl
  rw [World.rejections, World.refusals, hnotes, hnotes, List.map_append,
    took.act.rejections hnamed]
  congr 1
  · simp [Function.comp_def]
  · exact ih hnamed

theorem Reachable.abandoned_eq {w : World α} (h : w.Reachable) {names : Nat → String}
    (named : w.store.Named names) (name : String) :
    w.abandoned name + w.drained names name = w.discarded names name := by
  refine h.induct (P := fun w => w.store.Named names →
    w.abandoned name + w.drained names name = w.discarded names name)
    (fun cells _ => rfl) (fun w command _ ih named => ?_) ?_ named
  · rw [World.drained, load_issue]
    exact ih named
  intro w v index t old tail e reachable took ih named
  have ih := ih (took.named named)
  obtain ⟨r, hbefore, hafter⟩ := took.load (fun _ op => Op.drains names name op) fun who op => by
    cases op with
    | submit sub phase => cases phase <;> rfl
    | work p i phase => cases phase <;> rfl
    | _ => rfl
  have hbirths : (e.births.map fun u => (u.ops.map (Op.drains names name)).sum).sum = 0 := by
    refine sum_map_eq_zero fun u hu => ?_
    obtain ⟨p, i, _, rfl, -⟩ := took.birth hu
    rfl
  have hnotes : ∀ f : Entry → Nat, (v.history.map fun (_, entry) => f entry).sum =
      (e.notes.map f).sum + (w.history.map fun (_, entry) => f entry).sum := by
    intro f
    rw [took.history, List.map_append, List.sum_append, List.map_reverse, List.sum_reverse,
      List.map_map]
    rfl
  have hact := took.act.abandonments (took.named named) name
  have habandoned : v.abandoned name = (e.notes.map (Entry.abandons name)).sum + w.abandoned name :=
    hnotes _
  have hdiscarded : v.discarded names name =
      (e.notes.map (Entry.discards names name)).sum + w.discarded names name := hnotes _
  have hwas : w.drained names name = (old.map (Op.drains names name)).sum + r := hbefore
  have his : v.drained names name = (e.ops.map (Op.drains names name)).sum + 0 + r := by
    rw [← hbirths]
    exact hafter
  omega

/-- The lines on the performance of items are written by workers. -/
theorem Reachable.worker_of_line {w : World α} (h : w.Reachable) :
    ∀ (who : Who) (line : LogLine) (id : Nat), line.job? = some id →
      (who, Entry.line line) ∈ w.history → ∃ p i, who = .worker p i := by
  refine h.induct (P := fun w => ∀ (who : Who) (line : LogLine) (id : Nat),
    line.job? = some id → (who, Entry.line line) ∈ w.history → ∃ p i, who = .worker p i)
    (fun cells => by simp [World.start]) (fun w command _ ih => ih) ?_
  intro w v index t old tail e reachable took ih who line id hline hmem
  have stack := took.leads reachable.orderly
  rcases took.mem_history.mp hmem with ⟨rfl, hnote⟩ | hmem
  · rcases took.act.writes hnote with plain | ⟨_, _, heq⟩ | ⟨op, rfl, writes, -⟩
    · cases line <;> first | exact plain.elim | cases hline
    · cases heq
    · cases writes with
      | rejected | abandoned => cases hline
      | jobStarted p i item | jobFinished p i item | jobPanicked p i item payload =>
          exact ⟨p, i, stack.1.1.self⟩
  · exact ih who line id hline hmem

/-- A worker has started the items that it has taken, but for one that it is about to start. -/
theorem Reachable.started_iff {w : World α} (h : w.Reachable) (p i id : Nat) :
    (Who.worker p i, Entry.line (.jobStarted id)) ∈ w.history ↔
      ∃ item, item.id = id ∧ (Who.worker p i, Entry.taken p item) ∈ w.history ∧
        w.lots p id ≠ {.taken i item} := by
  obtain ⟨lot, course, held⟩ := h.course p id
  constructor
  · intro hmem
    obtain ⟨i', item, hwho, hlot⟩ := course.of_started
      (mem_course hmem (show Entry.concerns p id _ = true by simp [Entry.concerns]))
    cases hwho
    have hitem : lot.item? = some item := by
      rcases hlot with rfl | rfl | rfl | rfl <;> rfl
    have hworker : lot.worker? = some i := by
      rcases hlot with rfl | rfl | rfl | rfl <;> rfl
    refine ⟨item, course.id_eq hitem, (List.mem_filter.mp (course.taken_mem hitem hworker)).1, ?_⟩
    rw [held]
    rcases hlot with rfl | rfl | rfl | rfl <;> simp [Lot.held]
  · rintro ⟨item, rfl, hmem, hlot⟩
    have hmem := mem_course hmem (show Entry.concerns p item.id _ = true by simp [Entry.concerns])
    rw [held] at hlot
    exact (List.mem_filter.mp (course.started_mem hmem hlot)).1

/-- Every item has one fate at most, and the log agrees with it. An item is where its entries say;
no function is called on account of an item that was refused or discarded, and those of an item that
was taken are called once, in order, by the worker that took it. -/
theorem Reachable.one_fate {w : World α} (h : w.Reachable) :
    (∀ p id, ∃ lot, Course p id (w.course p id) lot ∧ w.lots p id = lot.held ∧
      lot.Accounts w p id) ∧
    (∀ p i id, (Who.worker p i, Entry.line (.jobStarted id)) ∈ w.history ↔
      ∃ item, item.id = id ∧ (Who.worker p i, Entry.taken p item) ∈ w.history ∧
        w.lots p id ≠ {.taken i item}) ∧
    (∀ (who : Who) (line : LogLine) (id : Nat), line.job? = some id →
      (who, Entry.line line) ∈ w.history → ∃ p i, who = .worker p i) ∧
    w.rejections = w.refusals.map (fun (who, p, item) => (who, w.store.poolName p, item.id)) ∧
    ∀ name, w.abandoned name + w.drained w.store.poolName name =
      w.discarded w.store.poolName name := by
  refine ⟨fun p id => ?_, h.started_iff, h.worker_of_line, h.rejections_eq w.store.named_poolName,
    h.abandoned_eq w.store.named_poolName⟩
  obtain ⟨lot, course, held⟩ := h.course p id
  exact ⟨lot, course, held, h.accounts course held⟩

/-- A pool whose only worker is held up by the item `#1` is shut down while `#2` is in the ring;
`#3` comes too late. -/
def lateItem : World Unit :=
  follow 40 [
    .newPool "p" (.given { capacity := 1, threads := some 1, name := "p" }),
    .onPool "p" (.submit (.link [.passGate "g"] false) none .holding),
    .onPool "p" (.submit (.link [] true) (some "t") .holding),
    .onPool "p" .shutDown,
    .onPool "p" (.submit (.link [] false) none .holding),
    .openGate "g"] (.start [])

theorem one_fate_of_lateItem :
    lateItem.abandoned "p" = 1 ∧ lateItem.refusals.length = 1 ∧ (lateItem.course 0 1).length = 5 ∧
      (∃ lot, Course 0 2 (lateItem.course 0 2) lot ∧ lateItem.lots 0 2 = lot.held ∧
        lot.Accounts lateItem 0 2) :=
  ⟨by decide, by decide, by decide, (Reachable.one_fate (reachable_follow 40 _ (.start []))).1 0 2⟩

end World

end WorkerPool
