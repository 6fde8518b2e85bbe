import WorkerPool.Proofs.Run

/-! Ids. A pool gives out its ids in order, so an id is given to one job, batch or member at most,
and one that has not come up yet to nothing at all. -/

namespace WorkerPool

variable {α : Type}

/-- What the entry gives the id `id` of the pool `p` to. -/
def Entry.issue? (p id : Nat) : Entry → Option Issue
  | .issued q i issue => if q = p ∧ i = id then some issue else none
  | _ => none

theorem Entry.issue?_eq_some {p id : Nat} {issue : Issue} {entry : Entry} :
    entry.issue? p id = some issue ↔ entry = .issued p id issue := by
  constructor
  · intro h
    unfold Entry.issue? at h
    split at h
    · rename_i q i given
      by_cases hit : q = p ∧ i = id
      · rw [if_pos hit] at h
        cases h
        rw [hit.1, hit.2]
      · rw [if_neg hit] at h
        cases h
    · cases h
  · rintro rfl
    simp [Entry.issue?]

theorem Entry.Plain.issue? {note : Entry} (h : note.Plain) (p id : Nat) :
    note.issue? p id = none := by
  cases note with
  | issued => exact h.elim
  | _ => rfl

theorem filterMap_issue?_of_plain {notes : List Entry} (h : ∀ note ∈ notes, note.Plain)
    (p id : Nat) : notes.filterMap (Entry.issue? p id) = [] :=
  List.filterMap_eq_nil_iff.mpr fun note hnote => (h note hnote).issue? p id

section

variable {around : Around} {s : Store α} {who : Who} {old : List (Op α)} {e : Effect α}

/-- A turn gives out at most the next id of a pool. -/
theorem Deed.issues {op : Op α} (deed : Deed around s who op e) (p id : Nat) :
    e.notes.filterMap (Entry.issue? p id) = [] ∨
      ∃ issue pool pool', e.notes.filterMap (Entry.issue? p id) = [issue] ∧
        s.pools[p]? = some pool ∧ pool.nextId = id ∧
        e.store.pools[p]? = some pool' ∧ pool'.nextId = id + 1 := by
  have hgiven : ∀ {place : Nat} {pool : Pool} {issue : Issue} {s' : Store α} {notes : List Entry},
      s.pools[place]? = some pool →
      s'.pools = s.pools.set place { pool with nextId := pool.nextId + 1 } →
      (∀ note ∈ notes, note.issue? p id = none) →
      (Entry.issued place pool.nextId issue :: notes).filterMap (Entry.issue? p id) = [] ∨
        ∃ given pool' pool'', (Entry.issued place pool.nextId issue :: notes).filterMap
            (Entry.issue? p id) = [given] ∧
          s.pools[p]? = some pool' ∧ pool'.nextId = id ∧
          s'.pools[p]? = some pool'' ∧ pool''.nextId = id + 1 := by
    intro place pool issue s' notes found hpools hnotes
    have hrest : notes.filterMap (Entry.issue? p id) = [] := List.filterMap_eq_nil_iff.mpr hnotes
    by_cases hit : place = p ∧ pool.nextId = id
    · obtain ⟨rfl, rfl⟩ := hit
      refine .inr ⟨issue, pool, { pool with nextId := pool.nextId + 1 },
        by simp [Entry.issue?, hrest], found, rfl, ?_, rfl⟩
      simp [hpools, (List.getElem?_eq_some_iff.mp found).1]
    · exact .inl (by simp [Entry.issue?, hit, hrest])
  cases deed with
  | commanded command eases leaves plain => exact .inl (filterMap_issue?_of_plain plain p id)
  | acted origin position action rest later eases leaves plain =>
      exact .inl (filterMap_issue?_of_plain plain p id)
  | accepted sub pool found through hands plain => exact .inl (filterMap_issue?_of_plain plain p id)
  | refused sub pool found refuses plain => exact .inl (filterMap_issue?_of_plain plain p id)
  | jobAdded submits place pool job found waitable =>
      refine hgiven found ?_ ?_
      · rfl
      · simp [Entry.issue?]
  | freeJobAdded submits place pool job found free =>
      refine hgiven found ?_ ?_
      · rfl
      · simp [Entry.issue?]
  | batchAdded command place pool batch ticket found counted ahead =>
      refine hgiven found ?_ ?_
      · rfl
      · simp [Entry.issue?]
  | freeBatchAdded command place pool batch ticket found bare free =>
      refine hgiven found ?_ ?_
      · rfl
      · simp [Entry.issue?]
  | emptyBatchAdded command place pool batch job ticket found finale empty =>
      refine hgiven found ?_ ?_
      · rfl
      · simp
  | memberAdded sub pool job rest found ahead =>
      refine hgiven found ?_ ?_
      · rfl
      · simp
  | drained place pool ring found valid empty capacity =>
      exact .inl (List.filterMap_eq_nil_iff.mpr fun note hnote => by
        obtain ⟨item, -, rfl⟩ := List.mem_map.mp hnote
        rfl)
  | jobFinished place index pool item succeeded found =>
      cases succeeded with
      | true => exact .inl rfl
      | false => exact .inl rfl
  | abandoned place pool items found =>
      cases items with
      | nil => exact .inl rfl
      | cons item items => exact .inl rfl
  | _ => exact .inl rfl

theorem Act.issues (act : Act around s who old e) (p id : Nat) :
    e.notes.filterMap (Entry.issue? p id) = [] ∨
      ∃ issue pool pool', e.notes.filterMap (Entry.issue? p id) = [issue] ∧
        s.pools[p]? = some pool ∧ pool.nextId = id ∧
        e.store.pools[p]? = some pool' ∧ pool'.nextId = id + 1 := by
  cases act with
  | deed deed quiet => exact deed.issues p id
  | broke payload loose lands uncaught =>
      refine .inl (List.filterMap_eq_nil_iff.mpr fun note hnote => ?_)
      rcases lands.of_mem_notes hnote with ⟨origin, position, rfl⟩ | rfl
      · rfl
      · rfl

end

namespace World

/-- What the id `id` of the pool `p` has been given to. -/
def issues (w : World α) (p id : Nat) : List Issue :=
  w.history.filterMap fun (_, entry) => entry.issue? p id

theorem mem_issues {w : World α} {p id : Nat} {issue : Issue} :
    issue ∈ w.issues p id ↔ ∃ who, (who, Entry.issued p id issue) ∈ w.history := by
  constructor
  · intro h
    obtain ⟨⟨who, entry⟩, hmem, hentry⟩ := List.mem_filterMap.mp h
    exact ⟨who, Entry.issue?_eq_some.mp hentry ▸ hmem⟩
  · rintro ⟨who, hmem⟩
    exact List.mem_filterMap.mpr ⟨_, hmem, Entry.issue?_eq_some.mpr rfl⟩

/-- The id has not come up yet in the pool at `p`, if there is one. -/
def Ahead (w : World α) (p id : Nat) : Prop :=
  ∀ pool, w.store.pools[p]? = some pool → pool.nextId ≤ id

/-- The next id of a pool has not come up yet. -/
theorem ahead_nextId {w : World α} {p : Nat} {pool : Pool} (found : w.store.pools[p]? = some pool) :
    w.Ahead p pool.nextId := by
  intro q hq
  obtain rfl : pool = q := Option.some.inj (found.symm.trans hq)
  exact Nat.le_refl _

theorem Took.issues {w v : World α} {index : Nat} {t : Thread α} {old tail : List (Op α)}
    {e : Effect α} (took : w.Took v index t old tail e) (p id : Nat) :
    v.issues p id = (e.notes.filterMap (Entry.issue? p id)).reverse ++ w.issues p id := by
  simp [World.issues, took.history, List.filterMap_append, List.filterMap_reverse,
    List.filterMap_map]

theorem Took.ahead {w v : World α} {index : Nat} {t : Thread α} {old tail : List (Op α)}
    {e : Effect α} (took : w.Took v index t old tail e) {p id : Nat} (h : v.Ahead p id) :
    w.Ahead p id := by
  intro pool found
  obtain ⟨pool', found', grows⟩ := took.act.pools.grows found
  exact Nat.le_trans grows.nextId (h pool' (took.store ▸ found'))

/-- Until it is given out, an id has been given to nothing. -/
theorem Took.issues_eq_nil {w v : World α} {index : Nat} {t : Thread α} {old tail : List (Op α)}
    {e : Effect α} (took : w.Took v index t old tail e) {p id : Nat}
    (unissued : w.Ahead p id → w.issues p id = []) {issue : Issue}
    (h : Entry.issued p id issue ∈ e.notes) : w.issues p id = [] := by
  have hmem : issue ∈ e.notes.filterMap (Entry.issue? p id) :=
    List.mem_filterMap.mpr ⟨_, h, Entry.issue?_eq_some.mpr rfl⟩
  rcases took.act.issues p id with hnone | ⟨_, pool, _, -, found, rfl, -, -⟩
  · simp [hnone] at hmem
  · exact unissued (ahead_nextId found)

/-- An id is given out once, and not before it comes up. -/
theorem Reachable.issues {w : World α} (h : w.Reachable) (p id : Nat) :
    (w.issues p id).length ≤ 1 ∧ (w.Ahead p id → w.issues p id = []) := by
  refine h.induct (P := fun w => (w.issues p id).length ≤ 1 ∧ (w.Ahead p id → w.issues p id = []))
    (fun cells => ⟨Nat.zero_le 1, fun _ => rfl⟩) (fun w command _ ih => ih) ?_
  intro w v index t old tail e reachable took ih
  rw [took.issues]
  rcases took.act.issues p id with hnone | ⟨issue, pool, pool', hone, found, rfl, found', hnext⟩
  · rw [hnone]
    exact ⟨ih.1, fun ahead => ih.2 (took.ahead ahead)⟩
  · have hnil : w.issues p pool.nextId = [] := ih.2 (ahead_nextId found)
    rw [hone, hnil]
    refine ⟨Nat.le_refl 1, fun ahead => ?_⟩
    have := ahead pool' (took.store ▸ found')
    omega

end World

end WorkerPool
