import WorkerPool.Proofs.Intake
import WorkerPool.Proofs.Roster

/-! The succession of items. The items that have been pushed into the ring of a pool are, in this
order, those that its workers have taken, those that a shutdown has drained and those that are still
in the ring: every turn that touches the ring takes from its front or adds to its end, and nothing
is taken any more when something has been drained. No item is pushed twice. -/

namespace WorkerPool

variable {α : Type}

namespace Entry

def pushed? (p : Nat) : Entry → Option Item
  | .pushed q item => if q = p then some item else none
  | _ => none

def taken? (p : Nat) : Entry → Option Item
  | .taken q item => if q = p then some item else none
  | _ => none

def discarded? (p : Nat) : Entry → Option Item
  | .discarded q item => if q = p then some item else none
  | _ => none

theorem pushed?_eq_some {p : Nat} {entry : Entry} {item : Item} :
    entry.pushed? p = some item ↔ entry = .pushed p item := by
  cases entry <;> simp [pushed?]

theorem taken?_eq_some {p : Nat} {entry : Entry} {item : Item} :
    entry.taken? p = some item ↔ entry = .taken p item := by
  cases entry <;> simp [taken?]

end Entry

section Deeds

variable {around : Around} {s : Store α} {who : Who} {old : List (Op α)} {e : Effect α}

/-- What passes through the ring of a pool in a turn. -/
structure Flow (s : Store α) (e : Effect α) (p : Nat) (pushed taken discarded : List Item) :
    Prop where
  pushes : e.notes.filterMap (Entry.pushed? p) = pushed
  takes : e.notes.filterMap (Entry.taken? p) = taken
  discards : e.notes.filterMap (Entry.discarded? p) = discarded
  passes : s.ring p ++ pushed = taken ++ discarded ++ e.store.ring p

/-- A turn that leaves the ring alone. -/
theorem Flow.none {p : Nat} (ring : e.store.ring p = s.ring p)
    (notes : ∀ note ∈ e.notes, note.pushed? p = .none ∧ note.taken? p = .none ∧
      note.discarded? p = .none) : Flow s e p [] [] [] := by
  refine ⟨?_, ?_, ?_, by simp [ring]⟩ <;>
    exact List.filterMap_eq_nil_iff.mpr fun note hnote => by simp [notes note hnote]

theorem Entry.Plain.flow {note : Entry} (plain : note.Plain) (p : Nat) :
    note.pushed? p = none ∧ note.taken? p = none ∧ note.discarded? p = none := by
  cases note with
  | event | line => exact ⟨rfl, rfl, rfl⟩
  | _ => exact plain.elim

/-- The turns that touch a ring, and all others. -/
theorem Deed.flow {op : Op α} (deed : Deed around s who op e) (rings : s.RingsValid) (p : Nat) :
    Flow s e p [] [] [] ∨
      (∃ sub item stage, op = .submit sub (.send (.send item stage)) ∧ sub.pool = p ∧
        Flow s e p [item] [] []) ∨
      (∃ i stage item, op = .work p i (.receive (.receive stage)) ∧ ¬s.IsDown p ∧
        (s.ring p).head? = some item ∧ Flow s e p [] [item] []) ∨
      (op = .shutDown p (.call .drain) ∧ Flow s e p [] [] (s.ring p)) := by
  have hset : ∀ {place : Nat} {pool pool' : Pool}, s.pools[place]? = some pool →
      e.store.pools = s.pools.set place pool' → pool'.intake.value = pool.intake.value →
      (∀ note ∈ e.notes, note.pushed? p = none ∧ note.taken? p = none ∧
        note.discarded? p = none) → Flow s e p [] [] [] :=
    fun {place pool pool'} found pools same notes =>
      .none ((Store.ring_of_pools (s := s.setPool place pool') pools p).trans
        (Store.ring_setPool_same found same p)) notes
  cases deed with
  | commanded command eases leaves plain =>
      exact .inl (.none (Store.ring_of_pools eases.pools p) fun note h => (plain note h).flow p)
  | acted origin position action rest later eases leaves plain =>
      exact .inl (.none (Store.ring_of_pools eases.pools p) fun note h => (plain note h).flow p)
  | accepted sub pool found through hands plain =>
      exact .inl (.none rfl fun note h => (plain note h).flow p)
  | refused sub pool found refuses plain =>
      exact .inl (.none rfl fun note h => (plain note h).flow p)
  | handed ticket name same =>
      exact .inl (.none (Store.ring_of_pools same.1 p) (by simp))
  | poolMade command name settings capacity threads =>
      refine .inl (.none ?_ (by simp [Entry.pushed?, Entry.taken?, Entry.discarded?]))
      exact Store.ring_append (h := rfl) (Ring.toList_empty capacity) p
  | jobAdded submits place pool job found | freeJobAdded submits place pool job found =>
      exact .inl (hset found rfl rfl (by simp [Entry.pushed?, Entry.taken?, Entry.discarded?]))
  | batchAdded command place pool batch ticket found
  | freeBatchAdded command place pool batch ticket found =>
      exact .inl (hset found rfl rfl (by simp [Entry.pushed?, Entry.taken?, Entry.discarded?]))
  | emptyBatchAdded command place pool batch job ticket found =>
      exact .inl (hset found rfl rfl (by simp [Entry.pushed?, Entry.taken?, Entry.discarded?]))
  | memberAdded sub pool job rest found =>
      exact .inl (hset found rfl rfl (by simp [Entry.pushed?, Entry.taken?, Entry.discarded?]))
  | left place pool found | enlisted sub pool item found | poolTerminated place pool found =>
      exact .inl (hset found rfl rfl (by simp))
  | jobStarted place index pool item found =>
      exact .inl (hset found rfl rfl (by simp [Entry.pushed?, Entry.taken?, Entry.discarded?]))
  | jobFinished place index pool item succeeded found =>
      refine .inl (hset found rfl rfl ?_)
      cases succeeded <;> simp [Entry.pushed?, Entry.taken?, Entry.discarded?]
  | pushed sub pool item stage found awake up room =>
      by_cases hp : sub.pool = p
      · subst hp
        refine .inr (.inl ⟨sub, item, stage, rfl, rfl, ?_, rfl, rfl, ?_⟩)
        · simp [Entry.pushed?]
        · rw [Store.ring_setPool found, if_pos rfl, Store.ring_eq found,
            ((rings _ _ found).push room item).2]
          rfl
      · refine .inl (.none ?_ (by simp [Entry.pushed?, Entry.taken?, Entry.discarded?, hp]))
        rw [Store.ring_setPool found, if_neg (Ne.symm hp)]
  | taken place index pool stage item ring found awake up valid first capacity =>
      by_cases hp : place = p
      · subst hp
        refine .inr (.inr (.inl ⟨index, stage, item, rfl, ?_, ?_, rfl, ?_, rfl, ?_⟩))
        · rintro ⟨pool', found', down⟩
          obtain rfl := Option.some.inj (found.symm.trans found')
          rw [up] at down
          cases down
        · rw [Store.ring_eq found, first]
          rfl
        · simp [Entry.taken?]
        · rw [Store.ring_setPool found, if_pos rfl, Store.ring_eq found, first]
          simp
      · refine .inl (.none ?_ (by simp [Entry.pushed?, Entry.taken?, Entry.discarded?, hp]))
        rw [Store.ring_setPool found, if_neg (Ne.symm hp)]
  | drained place pool ring found valid empty capacity =>
      by_cases hp : place = p
      · subst hp
        refine .inr (.inr (.inr ⟨rfl, ?_, ?_, ?_, ?_⟩))
        · exact List.filterMap_eq_nil_iff.mpr (by simp [Entry.pushed?])
        · exact List.filterMap_eq_nil_iff.mpr (by simp [Entry.taken?])
        · rw [Store.ring_eq found, List.filterMap_map]
          simp [Function.comp_def, Entry.discarded?]
        · rw [Store.ring_setPool found, if_pos rfl, empty]
          simp
      · refine .inl (.none ?_ (by simp [Entry.pushed?, Entry.taken?, Entry.discarded?, hp]))
        rw [Store.ring_setPool found, if_neg (Ne.symm hp)]
  | countSkipped | countStarted | counted | poolReady | workStarted | abandoned | refusing | released
  | batchSettled | codeCalled | codeReturned | lastReleased | joinedAll | jobBroke
  | workerStopped =>
      refine .inl (.none rfl ?_)
      simp [Entry.pushed?, Entry.taken?, Entry.discarded?]
  | _ => exact .inl (.none rfl (by simp))

theorem Act.flow (act : Act around s who old e) (rings : s.RingsValid) (p : Nat) :
    Flow s e p [] [] [] ∨
      (∃ sub item stage, old = [.submit sub (.send (.send item stage))] ∧ sub.pool = p ∧
        Flow s e p [item] [] []) ∨
      (∃ i stage item, old = [.work p i (.receive (.receive stage))] ∧ ¬s.IsDown p ∧
        (s.ring p).head? = some item ∧ Flow s e p [] [item] []) ∨
      (old = [.shutDown p (.call .drain)] ∧ Flow s e p [] [] (s.ring p)) := by
  cases act with
  | deed deed quiet =>
      obtain flow | ⟨sub, item, stage, rfl, rest⟩ | ⟨i, stage, item, rfl, rest⟩ | ⟨rfl, rest⟩ :=
        deed.flow rings p
      · exact .inl flow
      · exact .inr (.inl ⟨sub, item, stage, rfl, rest⟩)
      · exact .inr (.inr (.inl ⟨i, stage, item, rfl, rest⟩))
      · exact .inr (.inr (.inr ⟨rfl, rest⟩))
  | broke payload loose lands uncaught =>
      refine .inl (.none rfl fun note hnote => ?_)
      rcases lands.of_mem_notes hnote with ⟨origin, position, rfl⟩ | rfl <;> exact ⟨rfl, rfl, rfl⟩

end Deeds

namespace World

/-- The items that have been pushed into the ring of the pool at `p`, in order. -/
def pushes (w : World α) (p : Nat) : List Item :=
  (w.history.filterMap fun (_, entry) => entry.pushed? p).reverse

/-- The items that have been taken out of it by a worker, in order, and by whom. -/
def takings (w : World α) (p : Nat) : List (Who × Item) :=
  (w.history.filterMap fun (who, entry) => (entry.taken? p).map (who, ·)).reverse

/-- The items that have been drained out of it, in order. -/
def discardings (w : World α) (p : Nat) : List Item :=
  (w.history.filterMap fun (_, entry) => entry.discarded? p).reverse

variable {w v : World α} {index : Nat} {t : Thread α} {old tail : List (Op α)} {e : Effect α}

theorem Took.pushes (took : w.Took v index t old tail e) (p : Nat) :
    v.pushes p = w.pushes p ++ e.notes.filterMap (Entry.pushed? p) :=
  took.noted fun (_, entry) => entry.pushed? p

theorem Took.takings (took : w.Took v index t old tail e) (p : Nat) :
    v.takings p = w.takings p ++ (e.notes.filterMap (Entry.taken? p)).map (t.who, ·) :=
  took.noted_by (Entry.taken? p)

theorem Took.discardings (took : w.Took v index t old tail e) (p : Nat) :
    v.discardings p = w.discardings p ++ e.notes.filterMap (Entry.discarded? p) :=
  took.noted fun (_, entry) => entry.discarded? p

theorem mem_pushes {p : Nat} {item : Item} :
    item ∈ w.pushes p ↔ Recorded w.history (.pushed p item) :=
  mem_noted fun _ => Entry.pushed?_eq_some

theorem mem_takings {p : Nat} {who : Who} {item : Item} :
    (who, item) ∈ w.takings p ↔ (who, .taken p item) ∈ w.history :=
  mem_noted_by fun _ => Entry.taken?_eq_some

/-- What has been pushed into the ring of a pool has left it in the same order, or is there. -/
structure Succession (w : World α) (p : Nat) : Prop where
  order : w.pushes p = (w.takings p).map (·.2) ++ w.discardings p ++ w.store.ring p
  down : w.discardings p ≠ [] → w.store.IsDown p
  nodup : ((w.pushes p).map (·.id)).Nodup

/-- An item that is on its way into the ring has not been pushed yet. -/
theorem Reachable.unpushed (h : w.Reachable) (ht : t ∈ w.threads) {sub : Submission}
    {phase : SubmissionPhase} (hop : .submit sub phase ∈ t.ops) {item : Item}
    (hitem : phase.item? = some item) : ¬Pushed w.history sub.pool item.id := by
  rintro ⟨other, hid, who, hmem⟩
  have lots : (Op.submit sub phase : Op α).lots sub.pool item.id t.who =
      {.sending t.who item} := by simp [Op.lots, hitem]
  have course := h.course_of_op ht hop lots
  exact (course.of_pushed (mem_course hmem (by simp [Entry.concerns, hid])) t.who item).1 rfl

/-- A turn that pushes what has not been pushed, that takes only while nothing has been discarded,
and that discards only where the pool is down, keeps the order. -/
theorem Succession.flow {p : Nat} (h : w.Succession p) (took : w.Took v index t old tail e)
    {pushed taken discarded : List Item} (flow : Flow w.store e p pushed taken discarded)
    (up : taken ≠ [] → w.discardings p = []) (down : discarded ≠ [] → v.store.IsDown p)
    (fresh : ∀ item ∈ pushed, ¬Pushed w.history p item.id) (one : pushed.length ≤ 1) :
    v.Succession p := by
  have hpushes := took.pushes p
  have htakings := took.takings p
  have hdiscardings := took.discardings p
  rw [flow.pushes] at hpushes
  rw [flow.takes] at htakings
  rw [flow.discards] at hdiscardings
  refine ⟨?_, fun hne => ?_, ?_⟩
  · have hswap : w.discardings p ++ taken = taken ++ w.discardings p := by
      by_cases hnone : taken = []
      · simp [hnone]
      · simp [up hnone]
    rw [hpushes, h.order, htakings, hdiscardings, took.store]
    simp only [List.map_append, List.map_map, Function.comp_def, List.map_id', List.append_assoc]
    rw [flow.passes, ← List.append_assoc (w.discardings p), ← List.append_assoc (w.discardings p),
      ← List.append_assoc (w.discardings p), ← List.append_assoc taken, hswap]
    simp only [List.append_assoc]
  · rw [hdiscardings] at hne
    by_cases hnone : w.discardings p = []
    · exact down (by simpa [hnone] using hne)
    · exact took.isDown (h.down hnone)
  · rw [hpushes, List.map_append, List.nodup_append']
    refine ⟨h.nodup, ?_, fun id hid hid' => ?_⟩
    · match pushed, one with
      | [], _ => exact List.nodup_nil
      | [item], _ => exact List.nodup_singleton _
    · obtain ⟨item, hitem, rfl⟩ := List.mem_map.mp hid'
      obtain ⟨other, hother, heq⟩ := List.mem_map.mp hid
      exact fresh item hitem ⟨other, heq, mem_pushes.mp hother⟩

theorem Took.succession (reachable : w.Reachable) (took : w.Took v index t old tail e) {p : Nat}
    (h : w.Succession p) : v.Succession p := by
  have ht := took.mem_threads
  obtain flow | ⟨sub, item, stage, hold, rfl, flow⟩ | ⟨i, stage, item, hold, up, -, flow⟩ |
    ⟨hold, flow⟩ := took.act.flow reachable.orderly.rings p
  · exact h.flow took flow (by simp) (by simp) (by simp) (by simp)
  · refine h.flow took flow (by simp) (by simp) (fun item' hitem' => ?_) (by simp)
    obtain rfl := List.mem_singleton.mp hitem'
    have hop : .submit sub (.send (.send item' stage)) ∈ t.ops := by
      rw [took.ops, hold]
      exact List.mem_cons_self
    exact reachable.unpushed ht hop rfl
  · refine h.flow took flow (fun _ => ?_) (by simp) (by simp) (by simp)
    by_contra hne
    exact up (h.down hne)
  · refine h.flow took flow (by simp) (fun _ => took.isDown ?_) (by simp) (by simp)
    exact reachable.closed.closes t ht (.shutDown p (.call .drain))
      (by rw [took.ops, hold]; exact List.mem_cons_self)

theorem Reachable.succession (h : w.Reachable) (p : Nat) : w.Succession p :=
  h.induct (P := fun w => w.Succession p) (fun cells => ⟨rfl, by simp [discardings, World.start],
    List.nodup_nil⟩) (fun w command _ ih => ⟨ih.order, ih.down, ih.nodup⟩)
    fun w v index t old tail e reachable took ih => took.succession reachable ih

/-- What has been pushed stays, and what is pushed later comes behind it. -/
theorem Later.pushes (later : w.Later v) (h : w.Reachable) (p : Nat) :
    w.pushes p <+: v.pushes p := by
  refine later.keeps h (P := fun v => w.pushes p <+: v.pushes p) (List.prefix_refl _)
    (fun _ _ _ ih => ih) fun u v index t old tail e _ _ took ih => ih.trans ?_
  rw [took.pushes]
  exact List.prefix_append _ _

end World

end WorkerPool
