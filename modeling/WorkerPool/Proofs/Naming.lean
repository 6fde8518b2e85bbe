import WorkerPool.Proofs.Crew

/-! The names of pools. A pool gets a name once, when its maker has heard of all its workers, and a
name is given to one pool at a time. So no pool is known by two names, and a pool whose name has
been taken away cannot be found any more. -/

namespace WorkerPool

variable {α : Type}

namespace Table

variable {β : Type} {t : Table β}

/-- Each name is kept once, and no two names stand for the same thing. -/
def Single (t : Table β) : Prop :=
  t.toList.Pairwise fun e e' => e.1 ≠ e'.1 ∧ e.2 ≠ e'.2

/-- In such a table every entry is found under its name. -/
theorem Single.find? (single : t.Single) {e : String × β} (he : e ∈ t.toList) :
    t.find? e.1 = some e.2 := by
  unfold Table.find?
  unfold Single at single
  generalize t.toList = l at single he ⊢
  induction l with
  | nil => cases he
  | cons e' l ih =>
      obtain ⟨apart, single⟩ := List.pairwise_cons.mp single
      rw [lookup_cons_eq]
      rcases List.mem_cons.mp he with rfl | he
      · exact if_pos rfl
      · rw [if_neg (apart e he).1.symm]
        exact ih single he

theorem Single.name_eq (single : t.Single) {name name' : String} {x : β}
    (found : t.find? name = some x) (found' : t.find? name' = some x) : name = name' := by
  unfold Single at single
  have hne := List.Pairwise.forall_of_forall_of_flip
    (R := fun e e' : String × β => e.2 = e'.2 → e.1 = e'.1) (fun _ _ _ => rfl)
    (single.imp fun h same => absurd same h.2) (single.imp fun h same => absurd same.symm h.2)
  exact hne (mem_of_find? found) (mem_of_find? found') rfl

theorem Single.erase (single : t.Single) (name : String) : (t.erase name).Single :=
  single.filter _

/-- A name can be given to what has none yet. -/
theorem Single.insert (single : t.Single) (name : String) {x : β}
    (fresh : ∀ e ∈ t.toList, e.2 ≠ x) : (t.insert name x).Single := by
  unfold Table.insert Single
  dsimp only
  split
  · rw [List.pairwise_map]
    refine single.imp_of_mem fun {e e'} he he' apart => ?_
    by_cases first : e.1 = name
    · have second : e'.1 ≠ name := fun second => apart.1 (first.trans second.symm)
      simpa [first, second] using ⟨second.symm, (fresh e' he').symm⟩
    · by_cases second : e'.1 = name
      · simpa [first, second] using fresh e he
      · simpa [first, second] using apart
  · rename_i absent
    refine List.pairwise_append.mpr ⟨single, List.pairwise_singleton _ _, fun e he e' he' => ?_⟩
    obtain rfl := List.mem_singleton.mp he'
    refine ⟨?_, fresh e he⟩
    rintro rfl
    exact absent (by rw [single.find? he]; rfl)

/-- What has lost its name cannot be found. -/
theorem Single.not_find?_erase (single : t.Single) {name : String} {x : β}
    (found : t.find? name = some x) (other : String) : (t.erase name).find? other ≠ some x := by
  intro found'
  obtain rfl := single.name_eq found (of_find?_erase found')
  rw [find?_erase_self] at found'
  cases found'

end Table

theorem Store.isNamed_iff {s : Store α} (single : s.names.pools.Single) {p : Nat} :
    s.isNamed p = true ↔ s.NamesPool p := by
  rw [isNamed, List.any_eq_true]
  constructor
  · rintro ⟨e, he, known⟩
    exact ⟨e.1, by rw [single.find? he, beq_iff_eq.mp known]⟩
  · rintro ⟨name, found⟩
    exact ⟨(name, p), Table.mem_of_find? found, beq_self_eq_true p⟩

/-- What a turn does to the names of pools: nothing, it takes one away, or a pool that has been made
gets one. -/
theorem Deed.poolTable {around : Around} {s : Store α} {who : Who} {op : Op α} {e : Effect α}
    (deed : Deed around s who op e) :
    (e.store.names.pools = s.names.pools ∨
      ∃ name, e.store.names.pools = s.names.pools.erase name) ∨
      ∃ l stage p name, op = .latch l (.wait stage) (.ready p name) ∧
        e.store.names.pools = s.names.pools.insert name p := by
  cases deed with
  | commanded command eases => exact .inl eases.poolTable
  | acted origin position action rest later eases => exact .inl eases.poolTable
  | handed ticket name same => exact .inl (.inl same.2.2.2)
  | poolReady place l stage pool q name => exact .inr ⟨place, stage, pool, name, rfl, rfl⟩
  | _ => exact .inl (.inl rfl)

namespace World

/-- Each pool has one name at most, and each name stands for one pool. -/
theorem Reachable.single {w : World α} (h : w.Reachable) : w.store.names.pools.Single := by
  refine h.induct (P := fun w => w.store.names.pools.Single) (fun cells => .nil)
    (fun w command _ ih => ih) fun w v index t old tail e reachable took ih => ?_
  rw [took.store]
  cases took.act with
  | broke payload loose lands uncaught => exact ih
  | deed deed quiet =>
      obtain (same | ⟨name, same⟩) | ⟨l, stage, p, name, rfl, same⟩ := deed.poolTable
      · exact same ▸ ih
      · exact same ▸ ih.erase name
      · -- whoever is still making a pool finds it without a name
        have making : Op.makes p (.latch l (.wait stage) (.ready p name) : Op α) = 1 := if_pos rfl
        rw [same]
        refine ih.insert name fun e he hp => ?_
        have named : w.store.NamesPool p := ⟨e.1, by rw [ih.find? he, hp]⟩
        have := eq_zero_of_load (reachable.made_of_named named).2 took.mem_threads
          took.due_mem
        omega

end World

end WorkerPool
