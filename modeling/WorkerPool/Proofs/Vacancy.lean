import WorkerPool.Proofs.Intake
import WorkerPool.Proofs.Moments
import WorkerPool.Proofs.Naming

/-! How a pool comes to be deserted. Calls on a pool begin with its name, so once it has no name
only those who are in a call hold it. The last of them to let go shuts the pool down and waits for
its workers, one after the other; by then nobody else holds the pool, and nobody ever will. Behind
each shutdown stands the end of a call on the pool or that wait. So when the wait is over no thread
has anything to do with the pool any more, and none ever will. -/

namespace WorkerPool

variable {α : Type}

namespace Op

/-- Whether the operation belongs to a call on the pool at `p`, to its shutdown or its end, or to
one of its workers. -/
def tends (p : Nat) : Op α → Bool
  | .work q _ _ | .shutDown q _ | .join q _ _ => q == p
  | op => op.holds p

/-- Whether the operation waits for the workers of the pool at `p` to end. -/
def joins (p : Nat) : Op α → Nat
  | .join q _ _ => if q = p then 1 else 0
  | _ => 0

theorem tends_of_holds {p : Nat} {op : Op α} (holds : op.holds p = true) : op.tends p = true := by
  cases op with
  | work | shutDown | join => cases holds
  | _ => exact holds

theorem holds_wake (p : Nat) (op : Op α) : op.wake.holds p = op.holds p := by
  cases op with
  | latch l call waiter => cases waiter <;> rfl
  | submit sub phase => cases phase <;> rfl
  | work q i phase => cases phase <;> rfl
  | _ => rfl

theorem tends_wake (p : Nat) (op : Op α) : op.wake.tends p = op.tends p := by
  cases op with
  | latch l call waiter => cases waiter <;> rfl
  | submit sub phase => cases phase <;> rfl
  | work q i phase => cases phase <;> rfl
  | _ => rfl

theorem joins_wake (p : Nat) (op : Op α) : op.wake.joins p = op.joins p := by
  cases op with
  | submit sub phase => cases phase <;> rfl
  | work q i phase => cases phase <;> rfl
  | _ => rfl

theorem Lands.joins {payload : Payload} {old new : List (Op α)} {notes : List Entry}
    (lands : Op.Lands payload old new notes) (p : Nat) : (new.map (Op.joins p)).sum = 0 := by
  cases lands <;> simp [Op.joins]

/-- Behind a shutdown stands the end of a call on the pool, or the wait for its workers. -/
def Covered : Op α → List (Op α) → Prop
  | .shutDown p _, rest => ∃ op ∈ rest, op.holds p = true ∨ ∃ i waiting, op = .join p i waiting
  | _, _ => True

theorem Covered.wake {op : Op α} {rest : List (Op α)} (covered : op.Covered rest) :
    op.wake.Covered rest := by
  cases op with
  | submit sub phase => cases phase <;> trivial
  | work q i phase => cases phase <;> trivial
  | _ => exact covered

theorem not_shutDown_of_settles {op : Op α} (settles : op.Settles) (p : Nat)
    (phase : ShutdownPhase) : op ≠ .shutDown p phase := by
  rintro rfl
  cases settles

theorem along_covered {ops : List (Op α)} (h : ∀ op ∈ ops, ∀ p phase, op ≠ .shutDown p phase)
    (behind : List (Op α)) : Along Covered ops behind := by
  refine along_of_forall (fun op hop rest => ?_) behind
  cases op with
  | shutDown p phase => exact absurd rfl (h _ hop p phase)
  | _ => trivial

/-- Who settles an item that nobody will perform is done with the pool after the departure. -/
theorem tends_discard {p q : Nat} {item : Item} {op : Op α} (hop : op ∈ discard q item) :
    op.tends p = false := by
  rcases List.mem_append.mp hop with hop | hop
  · obtain ⟨l, -, rfl⟩ := List.mem_map.mp hop
    rfl
  · rw [List.mem_singleton.mp hop]
    rfl

/-- What is left of a refused submission holds its pool. -/
theorem tends_afterRefusal {p : Nat} {sub : Submission} {op : Op α} (hop : op ∈ sub.afterRefusal)
    (tends : op.tends p = true) : sub.pool = p := by
  unfold Submission.afterRefusal at hop
  split at hop
  · rcases List.mem_append.mp hop with hop | hop
    · obtain ⟨job, -, rfl⟩ := List.mem_map.mp hop
      cases tends
    · rw [List.mem_singleton.mp hop] at tends
      exact beq_iff_eq.mp tends
  · rw [List.mem_singleton.mp hop] at tends
    exact beq_iff_eq.mp tends

theorem tends_complete {p : Nat} {latch : Option Nat} {failed : Bool} {op : Op α}
    (hop : op ∈ complete latch failed) : op.tends p = false := by
  obtain ⟨l, -, rfl⟩ := List.mem_map.mp hop
  rfl

end Op

section Deeds

variable {around : Around} {s : Store α} {who : Who} {old new : List (Op α)} {e : Effect α}
  {op op' : Op α} {p : Nat}

/-- Whoever begins a call on a pool has found it by its name. -/
theorem Command.Leaves.tends {ops : List (Op α)} (leaves : Command.Leaves s ops) (hop : op' ∈ ops)
    (tends : op'.tends p = true) : s.NamesPool p := by
  have hnamed : ∀ {place : Nat}, s.NamesPool place → (place == p) = true → s.NamesPool p :=
    fun named same => beq_iff_eq.mp same ▸ named
  cases leaves with
  | idle place answer named | shutDown place answer named =>
      simp only [List.mem_cons, List.not_mem_nil, or_false] at hop
      rcases hop with rfl | rfl | rfl <;> first | exact hnamed named tends | cases tends
  | destroy place answer named =>
      simp only [List.mem_cons, List.not_mem_nil, or_false] at hop
      rcases hop with rfl | rfl <;> first | exact hnamed named tends | cases tends
  | letGo place named =>
      obtain rfl := List.mem_singleton.mp hop
      exact hnamed named tends
  | ticketVia ticket place pool kept awaited named =>
      simp only [List.mem_cons, List.not_mem_nil, or_false] at hop
      rcases hop with rfl | rfl <;> first | exact hnamed named tends | cases tends
  | nothing => cases hop
  | _ =>
      simp only [List.mem_cons, List.not_mem_nil, or_false] at hop
      rcases hop with rfl | rfl <;> cases tends

theorem Action.Leaves.tends {ops : List (Op α)} (leaves : Action.Leaves s ops) (hop : op' ∈ ops)
    (tends : op'.tends p = true) : s.NamesPool p := by
  cases leaves with
  | shutDown place named =>
      simp only [List.mem_cons, List.not_mem_nil, or_false] at hop
      rcases hop with rfl | rfl <;> exact beq_iff_eq.mp tends ▸ named
  | nothing => cases hop
  | _ =>
      obtain rfl := List.mem_singleton.mp hop
      cases tends

/-- What a turn leaves to do for the pool at `p` it leaves in place of something of the kind, unless
the pool was found by its name. -/
structure Op.Passes (s : Store α) (p : Nat) (op op' : Op α) : Prop where
  holds : op'.holds p = true → op.holds p = true ∨ s.NamesPool p
  tends : op'.tends p = true → op.tends p = true ∨ s.NamesPool p

theorem Op.Passes.of_named (named : op'.tends p = true → s.NamesPool p) : op.Passes s p op' :=
  ⟨fun holds => .inr (named (tends_of_holds holds)), fun tends => .inr (named tends)⟩

theorem Op.Passes.of_idle (idle : op'.tends p = false) : op.Passes s p op' :=
  .of_named fun tends => absurd tends (Bool.eq_false_iff.mp idle)

theorem Op.Passes.of_holds (holds : op'.tends p = true → op.holds p = true) : op.Passes s p op' :=
  ⟨fun h => .inl (holds (tends_of_holds h)), fun h => .inl (tends_of_holds (holds h))⟩

theorem Op.Passes.of_tends (none : op'.holds p = false)
    (tends : op'.tends p = true → op.tends p = true) : op.Passes s p op' :=
  ⟨fun h => absurd h (Bool.eq_false_iff.mp none), fun h => .inl (tends h)⟩

theorem Deed.passes (deed : Deed around s who op e) (hop : op' ∈ e.ops) : op.Passes s p op' := by
  have hnamed : ∀ {place : Nat}, s.NamesPool place → (op'.tends p = true → place = p) →
      op.Passes s p op' := fun named mine => .of_named fun tends => mine tends ▸ named
  cases deed with
  | commanded command eases leaves => exact .of_named (leaves.tends hop)
  | acted origin position action rest later eases leaves =>
      rcases List.mem_append.mp hop with hop | hop
      · exact .of_named (leaves.tends hop)
      · obtain rfl := List.mem_singleton.mp hop
        exact .of_idle rfl
  | jobAdded submits place pool job found waitable named
  | freeJobAdded submits place pool job found free named =>
      rcases List.mem_append.mp hop with made | behind
      · obtain rfl := List.mem_singleton.mp made
        exact hnamed named beq_iff_eq.mp
      · cases submits with
        | command => cases behind
        | action =>
            obtain rfl := List.mem_singleton.mp behind
            exact .of_idle rfl
  | batchAdded command place pool batch ticket found counted ahead named
  | freeBatchAdded command place pool batch ticket found bare free named =>
      obtain rfl := List.mem_singleton.mp hop
      exact hnamed named beq_iff_eq.mp
  | emptyBatchAdded command place pool batch job ticket found finale empty named =>
      simp only [List.mem_cons, List.not_mem_nil, or_false] at hop
      rcases hop with rfl | rfl
      · exact .of_idle rfl
      · exact hnamed named beq_iff_eq.mp
  | batchSettled =>
      obtain rfl := List.mem_singleton.mp hop
      exact .of_holds id
  | monitorTurned place call left | channelTurned place call left =>
      rcases left with rfl | ⟨call', rfl⟩
      · cases hop
      · obtain rfl := List.mem_singleton.mp hop
        exact .of_idle rfl
  | waitSlept place l stage waiter =>
      obtain rfl := List.mem_singleton.mp hop
      cases waiter with
      | refused sub => exact .of_holds id
      | _ => exact .of_idle rfl
  | poolReady place l stage q pool name =>
      rcases List.mem_append.mp hop with hop | hop
      · obtain ⟨q', found, rfl⟩ := List.mem_map.mp hop
        exact hnamed ⟨name, by simpa using found⟩ beq_iff_eq.mp
      · obtain rfl := List.mem_singleton.mp hop
        exact .of_idle rfl
  | accepted sub pool found through hands plain =>
      cases hands with
      | function =>
          obtain rfl := List.mem_singleton.mp hop
          exact .of_holds id
      | early | late =>
          simp only [List.mem_cons, List.not_mem_nil, or_false] at hop
          rcases hop with rfl | rfl <;> first | exact .of_idle rfl | exact .of_holds id
  | refused sub pool found refuses plain =>
      cases refuses with
      | function =>
          obtain rfl := List.mem_singleton.mp hop
          exact .of_holds id
      | step =>
          simp only [List.mem_cons, List.not_mem_nil, or_false] at hop
          rcases hop with rfl | rfl
          · exact .of_holds id
          · exact .of_idle rfl
  | refusing sub pool item found =>
      rcases List.mem_append.mp hop with hop | hop
      · exact .of_idle (Op.tends_discard hop)
      · exact .of_holds fun tends => beq_iff_eq.mpr (Op.tends_afterRefusal hop tends)
  | abandoned place pool items found =>
      rcases List.mem_append.mp hop with hop | hop
      · obtain ⟨item, -, hop⟩ := List.mem_flatMap.mp hop
        exact .of_idle (Op.tends_discard hop)
      · obtain rfl := List.mem_singleton.mp hop
        exact .of_tends rfl id
  | jobRan place index pool item found | jobBroke place index pool item payload found =>
      rcases List.mem_append.mp hop with hop | hop
      · exact .of_idle (Op.tends_complete hop)
      · obtain rfl := List.mem_singleton.mp hop
        exact .of_tends rfl id
  | counted | continued | left =>
      dsimp only at hop
      split at hop
      · obtain rfl := List.mem_singleton.mp hop
        exact .of_idle rfl
      · cases hop
  | workStarted | jobStarted | jobFinished =>
      simp only [List.mem_cons, List.not_mem_nil, or_false] at hop
      rcases hop with rfl | rfl
      · exact .of_idle rfl
      · exact .of_tends rfl id
  | lastReleased place =>
      simp only [List.mem_cons, List.not_mem_nil, or_false] at hop
      rcases hop with rfl | rfl <;> exact .of_tends rfl id
  | countStarted =>
      simp only [List.mem_cons, List.not_mem_nil, or_false] at hop
      rcases hop with rfl | rfl <;> exact .of_idle rfl
  | refusedWaited | memberAdded | enlisted | offered | givenBack | pushed | sendSlept
  | sendAnnounced =>
      obtain rfl := List.mem_singleton.mp hop
      exact .of_holds id
  | receiveSlept | taken | receiveAnnounced | checkedDown | checkedUp | poolTerminated | drained
  | joined | joinBegun =>
      obtain rfl := List.mem_singleton.mp hop
      exact .of_tends rfl id
  | poolMade | codeCalled | codeReturned | actionRaised | countSkipped | idleSlept | spawned
  | spawnedAll =>
      obtain rfl := List.mem_singleton.mp hop
      exact .of_idle rfl
  | _ => cases hop

theorem Op.Lands.passes {payload : Payload} {notes : List Entry}
    (lands : Op.Lands payload old new notes) (hop : op' ∈ new) : ∃ op ∈ old, op.Passes s p op' := by
  cases lands with
  | nowhere => cases hop
  | item =>
      obtain rfl := List.mem_singleton.mp hop
      exact ⟨_, List.mem_cons_of_mem _ (List.mem_singleton_self _), .of_tends rfl id⟩
  | finale | latchMade =>
      obtain rfl := List.mem_singleton.mp hop
      exact ⟨_, List.mem_cons_self, .of_idle rfl⟩
  | batch =>
      obtain rfl := List.mem_singleton.mp hop
      exact ⟨_, List.mem_cons_of_mem _ (List.mem_singleton_self _), .of_holds id⟩

theorem Act.passes (act : Act around s who old e) (hop : op' ∈ e.ops) :
    ∃ op ∈ old, op.Passes s p op' := by
  cases act with
  | deed deed quiet => exact ⟨_, List.mem_singleton_self _, deed.passes hop⟩
  | broke payload loose lands uncaught =>
      obtain ⟨op, hold, passes⟩ := lands.passes (s := s) (p := p) hop
      exact ⟨op, List.mem_append_right _ hold, passes⟩

/-- The wait for the workers of a pool begins when the last one lets go of it who holds it. -/
theorem Deed.joins (deed : Deed around s who op e) (p : Nat) :
    (e.ops.map (Op.joins p)).sum ≤ op.joins p ∨
      (op = .release p ∧ s.isNamed p = false ∧ around.inUse p = false ∧
        e.ops = [.shutDown p .check, .join p 0 false]) := by
  by_cases none : ∀ op' ∈ e.ops, op'.joins p = 0
  · exact .inl (by rw [sum_map_eq_zero none]; exact Nat.zero_le _)
  simp only [not_forall] at none
  obtain ⟨op', hop, hjoins⟩ := none
  cases op' with
  | join q i waiting =>
      obtain rfl : q = p := by
        by_contra hq
        exact hjoins (if_neg hq)
      cases deed.follows hop trivial with
      | released =>
          cases deed with
          | jobAdded submits | freeJobAdded submits => cases submits
          | released => cases hop
          | lastReleased _ _ _ nameless unused => exact .inr ⟨rfl, nameless, unused, rfl⟩
      | joined =>
          cases deed with
          | jobAdded submits | freeJobAdded submits => cases submits
          | joinedAll => cases hop
          | joined => exact .inl (Nat.le_refl _)
      | joinBegun =>
          cases deed with
          | jobAdded submits | freeJobAdded submits => cases submits
          | joinedAll | deadlocked => cases hop
          | joinBegun => exact .inl (Nat.le_refl _)
  | _ => exact absurd rfl hjoins

theorem Act.covered (act : Act around s who old e) {tail : List (Op α)}
    (covered : Op.Along Op.Covered old tail) : Op.Along Op.Covered e.ops tail := by
  cases act with
  | broke payload loose lands uncaught => cases lands <;> exact Op.along_covered (by simp) tail
  | deed deed quiet =>
      cases deed with
      | commanded command eases leaves =>
          cases leaves with
          | shutDown place answer named =>
              refine ⟨⟨.release place, by simp, .inl (beq_self_eq_true place)⟩, ?_⟩
              exact Op.along_covered (by simp) tail
          | _ => exact Op.along_covered (by simp [Op.perform]) tail
      | acted origin position action rest later eases leaves =>
          cases leaves with
          | shutDown place named =>
              refine ⟨⟨.release place, by simp, .inl (beq_self_eq_true place)⟩, ?_⟩
              exact Op.along_covered (by simp) tail
          | _ => exact Op.along_covered (by simp [Op.perform]) tail
      | lastReleased place =>
          refine ⟨⟨.join place 0 false, by simp, .inr ⟨0, false, rfl⟩⟩, ?_⟩
          exact Op.along_covered (by simp) tail
      | checkedDown | checkedUp | poolTerminated | drained => exact covered
      | abandoned place pool items found =>
          rw [Op.along_append]
          refine ⟨Op.along_covered (fun op hop => ?_) _, covered⟩
          obtain ⟨item, -, hop⟩ := List.mem_flatMap.mp hop
          exact Op.not_shutDown_of_settles (Op.discard_settles place item op hop)
      | refusing sub pool item found =>
          refine Op.along_covered (fun op hop => ?_) tail
          rcases List.mem_append.mp hop with hop | hop
          · exact Op.not_shutDown_of_settles (Op.discard_settles _ item op hop)
          · exact Op.not_shutDown_of_settles (sub.afterRefusal_settles op hop)
      | jobRan place index pool item found | jobBroke place index pool item payload found =>
          refine Op.along_covered (fun op hop => ?_) tail
          rcases List.mem_append.mp hop with hop | hop
          · exact Op.not_shutDown_of_settles (Op.complete_settles item.latch _ op hop)
          · simp [List.mem_singleton.mp hop]
      | jobAdded submits | freeJobAdded submits =>
          cases submits <;> exact Op.along_covered (by simp) tail
      | accepted sub pool found through hands plain =>
          cases hands <;> exact Op.along_covered (by simp) tail
      | refused sub pool found refuses plain =>
          cases refuses <;> exact Op.along_covered (by simp) tail
      | monitorTurned place call left | channelTurned place call left =>
          rcases left with rfl | ⟨call', rfl⟩ <;> exact Op.along_covered (by simp) tail
      | counted | continued | left =>
          refine Op.along_covered (fun op hop => ?_) tail
          dsimp only at hop
          split at hop <;> simp_all
      | poolReady =>
          refine Op.along_covered (fun op hop => ?_) tail
          rcases List.mem_append.mp hop with hop | hop
          · obtain ⟨q, -, rfl⟩ := List.mem_map.mp hop
            simp
          · simp [List.mem_singleton.mp hop]
      | _ => exact Op.along_covered (by simp [Op.perform]) tail

end Deeds

namespace Thread

/-- How many operations of the thread hold the pool at `p`. -/
def holdings (t : Thread α) (p : Nat) : Nat :=
  (t.ops.map fun op => if op.holds p then 1 else 0).sum

theorem holdings_eq_zero {t : Thread α} {p : Nat} : t.holdings p = 0 ↔ t.holds p = false := by
  simp [holdings, holds, List.sum_eq_zero_iff]

end Thread

namespace World

variable {w v : World α} {index : Nat} {t : Thread α} {old tail : List (Op α)} {e : Effect α}
  {p : Nat}

/-- Somebody is in a call on the pool at `p`. -/
def Held (w : World α) (p : Nat) : Prop :=
  ∃ t ∈ w.threads, ∃ op ∈ t.ops, op.holds p = true

/-- The pool at `p` has lost its name, and nobody is in a call on it. -/
structure LetGo (w : World α) (p : Nat) : Prop where
  made : w.Made p
  unnamed : ¬w.store.NamesPool p
  unheld : ¬w.Held p

/-- The pool at `p` is down and cannot be found, and nobody has anything to do with it: no caller,
no worker and no shutdown. -/
structure Vacated (w : World α) (p : Nat) : Prop where
  made : w.Made p
  unnamed : ¬w.store.NamesPool p
  down : w.store.IsDown p
  idle : ∀ t ∈ w.threads, ∀ op ∈ t.ops, op.tends p = false

/-- Whoever holds a pool after a turn did so before, or the pool had a name. -/
theorem Took.held (took : w.Took v index t old tail e) (held : v.Held p) :
    w.Held p ∨ w.store.NamesPool p := by
  obtain ⟨u, hu, op, hop, holds⟩ := held
  refine took.forall_ops (P := fun _ op => op.holds p = true → w.Held p ∨ w.store.NamesPool p)
    (fun _ op h => op.holds_wake p ▸ h) (fun u hu op hop holds => .inl ⟨u, hu, op, hop, holds⟩) ?_
    (fun _ _ _ _ => nofun) u hu op hop holds
  intro op' hop' holds
  obtain ⟨op, hold, passes⟩ := took.act.passes (p := p) hop'
  exact (passes.holds holds).imp_left fun holds =>
    ⟨t, took.mem_threads, op, took.mem_ops hold, holds⟩

/-- A pool that has been made gets no name. -/
theorem Took.unnamed (took : w.Took v index t old tail e) (made : w.Made p)
    (unnamed : ¬w.store.NamesPool p) : ¬v.store.NamesPool p := by
  rw [took.store]
  intro named
  cases took.act with
  | broke payload loose lands uncaught => exact unnamed named
  | deed deed quiet =>
      obtain known | ⟨l, stage, name, rfl⟩ := deed.namesPool named
      · exact unnamed known
      · have := eq_zero_of_load made.2 took.mem_threads
          took.due_mem
        simp [Op.makes] at this

theorem Took.letGo (took : w.Took v index t old tail e) (gone : w.LetGo p) : v.LetGo p :=
  ⟨took.made gone.made, took.unnamed gone.made gone.unnamed,
    fun held => (took.held held).elim gone.unheld gone.unnamed⟩

theorem Took.vacated (took : w.Took v index t old tail e) (vacated : w.Vacated p) :
    v.Vacated p := by
  refine ⟨took.made vacated.made, took.unnamed vacated.made vacated.unnamed,
    took.isDown vacated.down, ?_⟩
  refine took.forall_ops (P := fun _ op => op.tends p = false) (fun _ op h => op.tends_wake p ▸ h)
    vacated.idle ?_ ?_
  · intro op' hop'
    obtain ⟨op, hold, passes⟩ := took.act.passes (p := p) hop'
    by_contra tends
    rcases passes.tends (by simpa using tends) with tends | named
    · rw [vacated.idle t took.mem_threads op
        (took.mem_ops hold)] at tends
      cases tends
    · exact vacated.unnamed named
  · -- workers are started only by the maker of their pool
    rintro q i name rfl
    by_contra tends
    obtain rfl : q = p := by simpa [Op.tends] using tends
    have := eq_zero_of_load vacated.made.2 took.mem_threads
      took.due_mem
    simp [Op.makes] at this

/-- Nobody comes back to a pool that has been left. -/
theorem Later.vacated (later : w.Later v) (h : w.Reachable) (vacated : w.Vacated p) :
    v.Vacated p := by
  refine later.keeps h (P := fun w => w.Vacated p) vacated (fun w command _ vacated => ?_)
    fun _ _ _ _ _ _ _ _ _ took vacated => took.vacated vacated
  refine ⟨⟨vacated.made.1, by rw [load_issue]; exact vacated.made.2⟩, vacated.unnamed, vacated.down,
    ?_⟩
  exact forall_ops_issue (P := fun _ op => op.tends p = false) vacated.idle rfl

/-- Only a pool that has been made is held. -/
theorem Reachable.made_of_held (h : w.Reachable) (held : w.Held p) : w.Made p := by
  revert held
  refine h.induct (P := fun w => w.Held p → w.Made p) (fun cells => ?_)
    (fun w command reachable ih held => ?_) fun w v index t old tail e reachable took ih held => ?_
  · rintro ⟨t, ht, -⟩
    cases ht
  · have made : w.Made p := by
      obtain ⟨t, ht, op, hop, holds⟩ := held
      rcases List.mem_append.mp ht with ht | ht
      · exact ih ⟨t, ht, op, hop, holds⟩
      · obtain rfl := List.mem_singleton.mp ht
        obtain rfl := List.mem_singleton.mp hop
        cases holds
    exact ⟨made.1, by rw [load_issue]; exact made.2⟩
  · exact took.made ((took.held held).elim ih reachable.made_of_named)

/-! ### The last to let go -/

/-- How many operations hold the pool at `p`. -/
def holders (w : World α) (p : Nat) : Nat :=
  w.load fun _ op => if op.holds p then 1 else 0

theorem unheld_iff : ¬w.Held p ↔ w.holders p = 0 := by
  constructor
  · intro unheld
    refine load_eq_zero _ fun t ht op hop => if_neg fun holds => unheld ⟨t, ht, op, hop, holds⟩
  · rintro none ⟨t, ht, op, hop, holds⟩
    have := eq_zero_of_load none ht hop
    simp [holds] at this

/-- Whoever looks whether a pool is in use passes over the operation whose turn it is. -/
theorem inUse_eq {op : Op α} {rest : List (Op α)} (got : w.threads[index]? = some t)
    (ops : t.ops = op :: rest) (p : Nat) :
    (w.around index).inUse p = (w.threads.set index { t with ops := rest }).any (·.holds p) := by
  rw [around]
  dsimp only
  rw [List.modify_eq_set_getElem?, got, Option.map_eq_map, Option.map_some, ops]
  rfl

/-- A pool is not in use if nobody holds it but the operation whose turn it is. -/
theorem unused_iff {op : Op α} {rest : List (Op α)} (got : w.threads[index]? = some t)
    (ops : t.ops = op :: rest) :
    (w.around index).inUse p = false ↔ w.holders p = if op.holds p then 1 else 0 := by
  obtain ⟨r, before, after⟩ := sum_map_set (Thread.holdings · p) got { t with ops := rest }
  have others : (w.around index).inUse p = false ↔
      ((w.threads.set index { t with ops := rest }).map (Thread.holdings · p)).sum = 0 := by
    rw [inUse_eq got ops, List.any_eq_false, List.sum_eq_zero_iff, List.forall_mem_map]
    simp only [Thread.holdings_eq_zero, Bool.not_eq_true]
  have own : t.holdings p =
      (if op.holds p then 1 else 0) + Thread.holdings { t with ops := rest } p := by
    simp [Thread.holdings, ops]
  have total : w.holders p = t.holdings p + r := before
  rw [others, after, total, own]
  omega

/-- Only one thread waits for the workers of a pool, and by then the pool has been let go of. -/
theorem Reachable.joiner (h : w.Reachable) (p : Nat) :
    (w.load fun _ => Op.joins p) ≤ 1 ∧ (0 < (w.load fun _ => Op.joins p) → w.LetGo p) := by
  refine h.induct (P := fun w => (w.load fun _ => Op.joins p) ≤ 1 ∧
    (0 < (w.load fun _ => Op.joins p) → w.LetGo p)) (fun cells => by simp)
    (fun w command _ ih => ?_) fun w v index t old tail e reachable took ih => ?_
  · rw [load_issue]
    refine ⟨ih.1, fun joins => ?_⟩
    have gone := ih.2 joins
    refine ⟨⟨gone.made.1, by rw [load_issue]; exact gone.made.2⟩, gone.unnamed, ?_⟩
    rintro ⟨t, ht, op, hop, holds⟩
    rcases List.mem_append.mp ht with ht | ht
    · exact gone.unheld ⟨t, ht, op, hop, holds⟩
    · obtain rfl := List.mem_singleton.mp ht
      obtain rfl := List.mem_singleton.mp hop
      cases holds
  · obtain ⟨r, before, after⟩ := took.load_of_start (fun _ => Op.joins p)
      (fun _ op => op.joins_wake p) fun _ _ _ => rfl
    have hkept : (e.ops.map (Op.joins p)).sum ≤ (old.map (Op.joins p)).sum →
        (v.load fun _ => Op.joins p) ≤ 1 ∧ (0 < (v.load fun _ => Op.joins p) → v.LetGo p) :=
      fun fewer => ⟨by omega, fun joins => took.letGo (ih.2 (by omega))⟩
    cases took.act with
    | broke payload loose lands uncaught => exact hkept (by rw [lands.joins]; exact Nat.zero_le _)
    | @deed op e deed quiet =>
        rcases deed.joins p with fewer | ⟨rfl, nameless, unused, ops⟩
        · exact hkept (by simpa using fewer)
        · -- the last one lets go, so nobody can have begun to wait before
          have holds : (Op.release p : Op α).holds p = true := beq_self_eq_true p
          have held : w.Held p :=
            ⟨t, took.mem_threads, .release p, took.due_mem, holds⟩
          have made := reachable.made_of_held held
          have first : (w.load fun _ => Op.joins p) = 0 :=
            Nat.eq_zero_of_not_pos fun joins => (ih.2 joins).unheld held
          rw [first, List.map_singleton, List.sum_singleton] at before
          rw [ops] at after
          have one : ([.shutDown p .check, .join p 0 false].map (Op.joins (α := α) p)).sum = 1 := by
            simp [Op.joins]
          refine ⟨by omega, fun _ => ⟨took.made made, took.unnamed made ?_, unheld_iff.mpr ?_⟩⟩
          · rw [← Store.isNamed_iff reachable.single, nameless]
            exact Bool.false_ne_true
          · obtain ⟨r', held, held'⟩ := took.load_of_start
              (fun _ op => if op.holds p then 1 else 0) (fun _ op => by rw [op.holds_wake p])
              fun _ _ _ => rfl
            have sole := (unused_iff took.got took.ops).mp unused
            rw [if_pos holds] at sole
            rw [List.map_singleton, List.sum_singleton, if_pos holds, ← holders, sole] at held
            rw [ops, ← holders] at held'
            rw [held', show r' = 0 by omega]
            rfl

theorem Reachable.covered (h : w.Reachable) : ∀ t ∈ w.threads, Op.Along Op.Covered t.ops [] := by
  refine h.induct (P := fun w => ∀ t ∈ w.threads, Op.Along Op.Covered t.ops [])
    (fun cells => by simp [World.start]) (fun w command _ ih t ht => ?_)
    fun w v index t old tail e reachable took ih => ?_
  · rcases List.mem_append.mp ht with ht | ht
    · exact ih t ht
    · obtain rfl := List.mem_singleton.mp ht
      exact ⟨trivial, trivial⟩
  · exact took.along (P := fun _ => Op.Covered) (Q := fun _ => Op.Covered)
      (fun _ _ _ covered => covered.wake) (fun _ _ _ => id) ih took.act.covered
      fun _ _ => trivial

/-! ### Workers that have ended -/

/-- The worker `i` of the pool at `p` has ended. -/
def Ended (w : World α) (p i : Nat) : Prop :=
  ∃ t ∈ w.threads, t.who = .worker p i ∧ t.ops = []

theorem Took.worker_ended (took : w.Took v index t old tail e) {i : Nat} (ended : w.Ended p i) :
    v.Ended p i := by
  obtain ⟨u, hu, who, ops⟩ := ended
  obtain ⟨j, got⟩ := List.mem_iff_getElem?.mp hu
  obtain ⟨u', got', who', ⟨-, same⟩ | ⟨rfl, same⟩⟩ := took.stays got
  · exact ⟨u', List.mem_of_getElem? got', who'.trans who, by simpa [ops] using same⟩
  · obtain rfl := Option.some.inj (got.symm.trans took.got)
    obtain ⟨nothing, rfl⟩ := List.append_eq_nil_iff.mp (took.ops.symm.trans ops)
    have done := took.act.ops_of_nil nothing
    exact ⟨u', List.mem_of_getElem? got', who'.trans who, by simpa [done] using same⟩

/-- Whoever waits for a worker has seen those before it end. -/
theorem Reachable.joined (h : w.Reachable) : ∀ t ∈ w.threads, ∀ op ∈ t.ops,
    ∀ p i waiting, op = .join p i waiting → ∀ j < i, w.Ended p j := by
  refine h.induct (P := fun w => ∀ t ∈ w.threads, ∀ op ∈ t.ops, ∀ p i waiting,
    op = .join p i waiting → ∀ j < i, w.Ended p j)
    (fun cells => by simp [World.start]) (fun w command _ ih => ?_)
    fun w v index t old tail e reachable took ih => ?_
  · refine forall_ops_issue (P := fun _ op => ∀ p i waiting, op = .join p i waiting →
      ∀ j < i, (w.issue command).Ended p j) (fun u hu op hop p i waiting heq j hj => ?_)
      (by rintro p i waiting ⟨⟩)
    obtain ⟨u', hu', ended⟩ := ih u hu op hop p i waiting heq j hj
    exact ⟨u', List.mem_append_left _ hu', ended⟩
  · refine took.forall_ops (P := fun _ op => ∀ p i waiting, op = .join p i waiting →
      ∀ j < i, v.Ended p j) (fun _ op h p i waiting heq => h p i waiting (Op.eq_join_of_wake heq))
      (fun u hu op hop p i waiting heq j hj =>
        took.worker_ended (ih u hu op hop p i waiting heq j hj))
      ?_ (fun _ _ _ _ => by rintro p i waiting ⟨⟩)
    rintro op hop p i waiting rfl j hj
    have ht := took.mem_threads
    cases took.act with
    | broke payload loose lands uncaught => cases lands <;> simp at hop
    | deed deed quiet =>
        cases deed.follows hop trivial with
        | released => cases hj
        | joinBegun =>
            have head : Op.join p i false ∈ t.ops := took.due_mem
            exact took.worker_ended (ih t ht _ head p i false rfl j hj)
        | joined p i =>
            rcases Nat.lt_succ_iff_lt_or_eq.mp hj with hj | rfl
            · have head : Op.join p i true ∈ t.ops := took.due_mem
              exact took.worker_ended (ih t ht _ head p i true rfl j hj)
            · cases deed with
              | jobAdded submits | freeJobAdded submits => cases submits
              | joinedAll => cases hop
              | joined place index pool found ended =>
                  obtain ⟨u, hu, same⟩ := List.any_eq_true.mp ended
                  rw [Bool.and_eq_true, beq_iff_eq] at same
                  exact took.worker_ended ⟨u, hu, same.1, List.isEmpty_iff.mp same.2⟩

/-- When the wait for the workers of a pool is over, the pool has been left by everybody. -/
theorem Reachable.vacated (h : w.Reachable) {i pick : Nat} {waiting : Bool} {rest : List (Op α)}
    {pool : Pool} (got : w.threads[index]? = some t) (ops : t.ops = .join p i waiting :: rest)
    (found : w.store.pools[p]? = some pool) (through : pool.threads ≤ i)
    (turn : w.turn index pick = some v) : v.Vacated p := by
  have ht := List.mem_of_getElem? got
  have due : .join p i waiting ∈ t.ops := ops ▸ List.mem_cons_self
  obtain ⟨e, effect, -, -, act⟩ := took_cases h.orderly got ops turn
  obtain rfl : e = { store := w.store, notes := [.line (.poolDestroyed pool.name)] } := by
    rw [Op.effect, found, Option.bind_some, Op.joinEffect, if_pos through] at effect
    exact (Option.some.inj effect).symm
  obtain ⟨-, took⟩ | ⟨payload, -, -, -, -, -, panic, -⟩ := act
  swap
  · cases panic
  have reachable : v.Reachable := .next h (.turn index pick turn)
  obtain ⟨r, before, after⟩ := took.load_of_start (fun _ => Op.joins p)
    (fun _ op => op.joins_wake p) fun _ _ _ => rfl
  obtain ⟨once, letGo⟩ := h.joiner p
  rw [List.map_singleton, List.sum_singleton, show Op.joins p (.join p i waiting : Op α) = 1 from
    if_pos rfl] at before
  have gone := took.letGo (letGo (by omega))
  have unjoined : (v.load fun _ => Op.joins p) = 0 := by simpa [show r = 0 by omega] using after
  refine ⟨gone.made, gone.unnamed, took.isDown (h.closed.joins t ht p i waiting rest ops), ?_⟩
  have hjoin : ∀ u ∈ v.threads, ∀ i waiting, .join p i waiting ∉ u.ops := by
    intro u hu i waiting hop
    have := eq_zero_of_load unjoined hu hop
    simp [Op.joins] at this
  intro u hu op hop
  by_contra tends
  rw [Bool.not_eq_false] at tends
  by_cases holds : op.holds p = true
  · exact gone.unheld ⟨u, hu, op, hop, holds⟩
  cases op with
  | work q j phase =>
      obtain rfl : q = p := beq_iff_eq.mp tends
      obtain ⟨above, rest', -, stand⟩ := (reachable.orderly.ordered u hu).before hop
      have who := stand.self
      obtain ⟨pool', found', within⟩ := reachable.worker_within hu who
      obtain ⟨pool'', found'', grows⟩ := took.act.pools.grows found
      obtain rfl := Option.some.inj (found'.symm.trans (took.store ▸ found''))
      rw [grows.threads] at within
      obtain ⟨u', hu', who', ended⟩ := took.worker_ended
        (h.joined t ht _ due q i waiting rfl j (within.trans_le through))
      obtain ⟨k, got⟩ := List.mem_iff_getElem?.mp hu
      obtain ⟨k', got'⟩ := List.mem_iff_getElem?.mp hu'
      obtain rfl := reachable.worker_unique got got' who who'
      obtain rfl := Option.some.inj (got.symm.trans got')
      rw [ended] at hop
      cases hop
  | shutDown q phase =>
      obtain rfl : q = p := beq_iff_eq.mp tends
      obtain ⟨above, rest', hops, op', hop', covers⟩ := (reachable.covered u hu).of_mem hop
      have hmem : op' ∈ u.ops := by
        rw [hops]
        exact List.mem_append_right _ (List.mem_cons_of_mem _ hop')
      rcases covers with holds | ⟨i, waiting, rfl⟩
      · exact gone.unheld ⟨u, hu, op', hmem, holds⟩
      · exact hjoin u hu i waiting hmem
  | join q j waiting =>
      obtain rfl : q = p := beq_iff_eq.mp tends
      exact hjoin u hu j waiting hop
  | _ => exact holds tends

end World

end WorkerPool
