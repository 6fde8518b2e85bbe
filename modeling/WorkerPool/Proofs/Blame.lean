import WorkerPool.Proofs.Charges
import WorkerPool.Proofs.Outcome

/-! Why a latch fails. A latch is marked as failed by a count that tells of a failure, or by the end
of its own continuation. A worker counts on the latch of the item that it has performed, whoever
discards or refuses an item counts on the latch of that item, and the members behind a refused one
report to the same latch as it did. All other counts have been asked for by a caller, and callers
know only latches that belong to no submission. So a panic marks the latch of the submission that it
belongs to and no other one. -/

namespace WorkerPool

variable {α : Type}

namespace Op

/-- A count that tells of a failure has been asked for by a caller, or is on the latch of a ticket.
-/
def Owned (h : List (Who × Entry)) (op : Op α) (rest : List (Op α)) : Prop :=
  ∀ l waiter, op = .latch l (.count true) waiter → Resumes rest ∨ ¬Untold h l

variable {h h' : List (Who × Entry)}

theorem Owned.mono (sub : h ⊆ h') {op : Op α} {rest : List (Op α)} (owned : op.Owned h rest) :
    op.Owned h' rest :=
  fun l waiter heq => (owned l waiter heq).imp_right fun told untold =>
    told fun p ticket recorded => untold p ticket (recorded.mono sub)

theorem Owned.wake {op : Op α} {rest : List (Op α)} (owned : op.Owned h rest) :
    op.wake.Owned h rest := by
  cases op with
  | latch l call waiter =>
      cases call with
      | wait => nofun
      | _ => exact owned
  | submit sub phase => cases phase <;> nofun
  | work p i phase => cases phase <;> nofun
  | _ => nofun

theorem Chargeless.owned {op : Op α} (free : op.Chargeless) (rest : List (Op α)) :
    op.Owned h rest := by
  rintro l waiter rfl
  exact free.elim

theorem along_owned {ops : List (Op α)} (free : ∀ op ∈ ops, op.Chargeless)
    (behind : List (Op α)) : Along (Owned h) ops behind :=
  along_of_forall (fun op hop rest => (free op hop).owned rest) behind

theorem not_untold {p l : Nat} {ticket : Ticket} (recorded : Recorded h (.ticketed p ticket))
    (told : ticket.latch = some l) : ¬Untold h l :=
  fun untold => untold p ticket recorded told

theorem owned_complete {p : Nat} {item : Item} (known : item.Known h p) (failed : Bool) :
    ∀ op ∈ (complete item.latch failed : List (Op α)), ∀ rest, op.Owned h rest := by
  intro op hop rest l waiter heq
  obtain ⟨l', hl, rfl⟩ := List.mem_map.mp hop
  cases heq
  obtain ⟨ticket, recorded, part⟩ := known
  exact .inr (not_untold recorded (part.latch ▸ Option.mem_toList.mp hl))

theorem owned_discard {p : Nat} {item : Item} (known : item.Known h p) :
    ∀ op ∈ (discard p item : List (Op α)), ∀ rest, op.Owned h rest := by
  intro op hop rest
  rcases List.mem_append.mp hop with hop | hop
  · exact owned_complete known true op hop rest
  · obtain rfl := List.mem_singleton.mp hop
    nofun

end Op

theorem Submission.owned_afterRefusal {sub : Submission} {h : List (Who × Entry)}
    (ticketed : Recorded h (.ticketed sub.pool sub.ticket)) :
    ∀ op ∈ (sub.afterRefusal : List (Op α)), ∀ rest, op.Owned h rest := by
  intro op hop rest l waiter heq
  unfold afterRefusal at hop
  split at hop
  · rename_i latch hticket
    rcases List.mem_append.mp hop with hop | hop
    · obtain ⟨job, -, rfl⟩ := List.mem_map.mp hop
      cases heq
      exact .inr (Op.not_untold ticketed (by rw [hticket]; rfl))
    · obtain rfl := List.mem_singleton.mp hop
      cases heq
  · obtain rfl := List.mem_singleton.mp hop
    cases heq

/-- The latch at `l` is marked as failed in `after`, and was not in `before`. -/
structure Breaks (before after : List Latch) (l : Nat) : Prop where
  failed : ∃ latch, after[l]? = some latch ∧ latch.value.failed = true
  sound : ∀ latch, before[l]? = some latch → latch.value.failed = false

namespace Breaks

variable {before after : List Latch} {l place : Nat} {old new : Latch}

theorem ne (breaks : Breaks before after l) : after ≠ before := by
  rintro rfl
  obtain ⟨latch, found, failed⟩ := breaks.failed
  rw [breaks.sound latch found] at failed
  cases failed

theorem of_set (breaks : Breaks before (before.set place new) l)
    (there : before[place]? = some old) :
    place = l ∧ new.value.failed = true ∧ old.value.failed = false := by
  obtain ⟨latch, found, failed⟩ := breaks.failed
  rw [List.getElem?_set] at found
  split at found
  · rename_i heq
    subst heq
    rw [if_pos (List.getElem?_eq_some_iff.mp there).1] at found
    cases found
    exact ⟨rfl, failed, breaks.sound old there⟩
  · rw [breaks.sound latch found] at failed
    cases failed

theorem of_append (breaks : Breaks before (before ++ [new]) l) :
    l = before.length ∧ new.value.failed = true := by
  obtain ⟨latch, found, failed⟩ := breaks.failed
  rcases Nat.lt_or_ge l before.length with hlt | hge
  · rw [List.getElem?_append_left hlt] at found
    rw [breaks.sound latch found] at failed
    cases failed
  · rw [List.getElem?_append_right hge, List.getElem?_singleton] at found
    split at found
    · cases found
      exact ⟨by omega, failed⟩
    · cases found

end Breaks

section Deeds

variable {around : Around} {s : Store α} {who : Who} {e : Effect α}

open Op (Along Owned Chargeless along_owned along_of_forall)

theorem Command.Leaves.owned {ops : List (Op α)} (leaves : Command.Leaves s ops)
    (h : List (Who × Entry)) : Along (Owned h) ops [] := by
  cases leaves with
  | count place failed answer named =>
      exact ⟨fun _ _ _ => .inl (.answer answer []), by simp [Owned], trivial⟩
  | terminate place answer named => exact ⟨by simp [Owned], by simp [Owned], trivial⟩
  | _ => exact along_owned (by simp [Chargeless, Op.perform]) _

theorem Action.Leaves.owned {ops : List (Op α)} (leaves : Action.Leaves s ops)
    (h : List (Who × Entry)) (origin : Origin) (position : Nat) (current : Program)
    (later : List Program) (rest : List (Op α)) :
    Along (Owned h) ops (.code origin position (some current) later :: rest) := by
  cases leaves with
  | count place failed named =>
      exact ⟨fun _ _ _ => .inl (.code origin position current later rest), trivial⟩
  | terminate place named => exact ⟨by simp [Owned], trivial⟩
  | _ => exact along_owned (by simp [Chargeless, Op.perform]) _

theorem Deed.owned {op : Op α} (deed : Deed around s who op e) {h : List (Who × Entry)}
    (known : op.Known h s) {rest : List (Op α)} (stack : op.Before who rest) :
    Along (Owned h) e.ops rest := by
  cases deed with
  | commanded command eases leaves plain =>
      cases stack with
      | command => exact leaves.owned h
  | acted origin position action program later eases leaves plain =>
      rw [Op.along_append]
      exact ⟨leaves.owned h .., by simp [Owned], trivial⟩
  | jobAdded submits | freeJobAdded submits =>
      refine along_owned ?_ _
      cases submits <;> simp [Chargeless]
  | monitorTurned place call left | channelTurned place call left =>
      refine along_owned ?_ _
      rcases left with rfl | ⟨call, rfl⟩ <;> simp [Chargeless]
  | countStarted => exact ⟨by simp [Owned, Op.perform], by simp [Owned], trivial⟩
  | countSkipped => exact ⟨by simp [Owned], trivial⟩
  | counted | continued | left =>
      dsimp only
      split <;> simp [Owned]
  | poolReady place l stage pool q name succeeded found awake verdict present =>
      refine along_owned ?_ _
      cases s.names.pools.find? name <;> simp [Chargeless]
  | accepted sub pool found through hands plain => exact along_owned hands.chargeless _
  | refused sub pool found refuses plain => exact along_owned refuses.chargeless _
  | workStarted => exact ⟨by simp [Owned], by simp [Owned], trivial⟩
  | refusing sub pool item found =>
      rw [Op.along_append]
      exact ⟨along_of_forall (Op.owned_discard ⟨_, known.1, known.2 item rfl⟩) _,
        along_of_forall (sub.owned_afterRefusal known.1) _⟩
  | jobRan place index pool item found | jobBroke place index pool item payload found =>
      rw [Op.along_append]
      exact ⟨along_of_forall (Op.owned_complete (known.2 item (List.mem_singleton_self _)) _) _,
        by simp [Owned], trivial⟩
  | drained => exact ⟨by simp [Owned], trivial⟩
  | abandoned place pool items found =>
      rw [Op.along_append]
      refine ⟨along_of_forall (fun op hop rest => ?_) _, by simp [Owned], trivial⟩
      obtain ⟨item, hitem, hop⟩ := List.mem_flatMap.mp hop
      exact Op.owned_discard (known.2 item hitem) op hop rest
  | _ => exact along_owned (by simp [Chargeless, Op.perform]) _

theorem Op.Lands.owned {payload : Payload} {old new : List (Op α)} {notes : List Entry}
    (lands : Op.Lands payload old new notes) (h : List (Who × Entry)) (rest : List (Op α)) :
    Along (Owned h) new rest := by
  cases lands with
  | nowhere => trivial
  | finale | item | batch | latchMade => exact ⟨by simp [Owned], trivial⟩

/-- The turns that mark a latch as failed, or make one that is. -/
theorem Deed.fails {op : Op α} (deed : Deed around s who op e) {l : Nat}
    (breaks : Breaks s.latches e.store.latches l) :
    op = .latch l (.count true) .nobody ∨ (∃ job, op = .latch l (.running job false) .nobody) ∨
      l = s.latches.length ∧ ∃ construction, op = .construct construction false := by
  cases deed with
  | commanded command eases => exact (breaks.ne eases.latches).elim
  | acted origin position action rest later eases => exact (breaks.ne eases.latches).elim
  | handed ticket name same => exact (breaks.ne same.2.1).elim
  | latchMade | poolMade | batchAdded | jobAdded => cases breaks.of_append.2
  | latchSettled name succeeded =>
      obtain ⟨rfl, hfailed⟩ := breaks.of_append
      obtain rfl : succeeded = false := by simpa [Latch.settled] using hfailed
      exact .inr (.inr ⟨rfl, _, rfl⟩)
  | batchSettled place pool batch id asker succeeded =>
      obtain ⟨rfl, hfailed⟩ := breaks.of_append
      obtain rfl : succeeded = false := by simpa [Latch.settled] using hfailed
      exact .inr (.inr ⟨rfl, _, rfl⟩)
  | countSkipped place latch flag job there counts last held spoilt =>
      obtain ⟨rfl, -, hsound⟩ := breaks.of_set there
      obtain rfl : flag = true := by simpa [hsound] using spoilt
      exact .inl rfl
  | countStarted place latch job there => cases (breaks.of_set there).2.1
  | counted place latch flag there =>
      obtain ⟨rfl, hfailed, hsound⟩ := breaks.of_set there
      obtain rfl : flag = true := by simpa [hsound] using hfailed
      exact .inl rfl
  | continued place latch job succeeded there =>
      obtain ⟨rfl, hfailed, hsound⟩ := breaks.of_set there
      obtain rfl : succeeded = false := by simpa [hsound] using hfailed
      exact .inr (.inl ⟨job, rfl⟩)
  | latchTerminated place latch there =>
      obtain ⟨-, hfailed, hsound⟩ := breaks.of_set there
      exact absurd (hsound.symm.trans hfailed) Bool.false_ne_true
  | _ => exact (breaks.ne rfl).elim

end Deeds

namespace World

variable {w v : World α} {index pick l : Nat} {t : Thread α} {old tail : List (Op α)} {e : Effect α}

theorem Took.owned (reachable : w.Reachable) (took : w.Took v index t old tail e)
    (h : ∀ u ∈ w.threads, Op.Along (Op.Owned w.history) u.ops []) :
    ∀ u ∈ v.threads, Op.Along (Op.Owned v.history) u.ops [] := by
  have ht := took.mem_threads
  have stack := took.leads reachable.orderly
  refine took.along (P := fun _ => Op.Owned w.history) (Q := fun _ => Op.Owned v.history)
    (fun who op rest owned => owned.wake)
    (fun who op rest owned => owned.mono took.history_subset) h (fun _ => ?_) fun p i => nofun
  cases took.act with
  | deed deed quiet =>
      have known := reachable.known.ops t ht _ took.due_mem
      exact (deed.owned known stack.1.1).imp fun op rest owned => owned.mono took.history_subset
  | broke payload loose lands uncaught => exact lands.owned _ _

theorem Reachable.owned (h : w.Reachable) :
    ∀ t ∈ w.threads, Op.Along (Op.Owned w.history) t.ops [] := by
  refine h.induct (P := fun w => ∀ t ∈ w.threads, Op.Along (Op.Owned w.history) t.ops [])
    (fun cells t ht => nomatch ht) (fun w command _ ih t ht => ?_)
    fun w v index t old tail e reachable took ih => took.owned reachable ih
  rcases List.mem_append.mp ht with ht | ht
  · exact ih t ht
  · obtain rfl := List.mem_singleton.mp ht
    exact ⟨nofun, trivial⟩

/-- Why a turn of the thread `who`, which has `ops` to do, marks the latch `l` as failed. -/
inductive Blame (w v : World α) (who : Who) (l : Nat) : List (Op α) → Prop
  | panicked (p i : Nat) (item : Item) (payload : Payload) (programs : List Program)
      (self : who = .worker p i) (told : item.latch = some l) (known : item.Known w.history p)
      (noted : (who, .line (.jobPanicked item.id payload)) ∈ w.history)
      (spoilt : w.SpoiltBy who (.item p item.id) programs) :
      Blame w v who l [.latch l (.count true) .nobody, .work p i (.finish item false)]
  | dropped (p : Nat) (item : Item) (rest : List (Op α)) (told : item.latch = some l)
      (known : item.Known w.history p) (dropped : item.Dropped w.history p) :
      Blame w v who l (.latch l (.count true) .nobody :: .backlog p .leave :: rest)
  | behind (sub : Submission) (item : Item) (count : Nat) (rest : List (Op α))
      (told : sub.ticket.latch = some l) (part : item.Part w.history sub.pool sub.ticket)
      (refused : Recorded w.history (.refused sub.pool item)) :
      Blame w v who l (.latch l (.count true) .nobody ::
        (List.replicate count (.latch l (.count true) .nobody) ++
          .latch l (.wait .arriving) (.refused sub) :: rest))
  | asked (rest : List (Op α)) (untold : Untold w.history l) (back : Op.Resumes rest) :
      Blame w v who l (.latch l (.count true) .nobody :: rest)
  | continuation (job : Job) (rest : List (Op α)) (spoilt : v.SpoiltBy who (.latch l) job.programs) :
      Blame w v who l (.latch l (.running job false) .nobody :: rest)
  | finale (p : Nat) (batch : Batch) (id : Nat) (asker : Asker) (programs : List Program)
      (rest : List (Op α)) (fresh : l = w.store.latches.length)
      (spoilt : v.SpoiltBy who (.batch p id) programs) :
      Blame w v who l (.construct (.submission p batch id asker) false :: rest)
  | made (name : String) (rest : List (Op α)) (fresh : l = w.store.latches.length) :
      Blame w v who l (.construct (.latch name) false :: rest)

/-- The end of a performance that a panic has broken off. -/
theorem Took.spoils {op : Op α} (reachable : w.Reachable) (took : w.Took v index t [op] tail e)
    {o : Origin} (ends : op.Ends o) {programs : List Program}
    (hop : op.parts o t.who = {.catcher t.who programs false}) : v.SpoiltBy t.who o programs := by
  simpa using took.settles reachable ends hop

/-- A failing count has a failure of its own submission behind it, or a caller has asked for it. -/
theorem Reachable.blame_of_count (h : w.Reachable) (got : w.threads[index]? = some t)
    {rest : List (Op α)} (ops : t.ops = .latch l (.count true) .nobody :: rest) :
    w.Blame v t.who l t.ops := by
  have ht := List.mem_of_getElem? got
  have charged := h.charged t ht
  have owned := h.owned t ht
  have stack := h.orderly.ordered t ht
  rw [ops] at charged owned stack
  rw [Op.leads_cons, List.append_nil] at stack
  rw [ops]
  obtain ⟨flag, hflag, charge⟩ : ∃ flag, flag = true ∧ Op.Charge w.history t.who l flag rest :=
    ⟨true, rfl, by simpa [Op.Charged] using charged.1⟩
  cases charge with
  | free _ _ untold =>
      rcases owned.1 l .nobody rfl with back | told
      · rw [List.append_nil] at back
        exact .asked rest untold back
      · exact absurd untold told
  | performed p i item succeeded told known evidence =>
      obtain rfl : succeeded = false := by simpa using hflag
      have self := stack.2.1.self
      obtain ⟨payload, noted⟩ := evidence rfl
      obtain ⟨q, j, item', who, hid, -, spoilt⟩ := h.truthful.panicked _ _ _ noted
      cases self.symm.trans who
      exact .panicked p i item payload _ self told known noted spoilt
  | dropped p item rest told known evidence => exact .dropped p item rest told known evidence
  | behind sub item count rest told part ticketed evidence =>
      exact .behind sub item count rest told part evidence

/-- A turn marks a latch as failed only on account of a member, a continuation or a caller of its
own. -/
theorem Reachable.blame (h : w.Reachable) (turn : w.turn index pick = some v)
    (got : w.threads[index]? = some t) {latch : Latch} (found : v.store.latches[l]? = some latch)
    (failed : latch.value.failed = true)
    (sound : ∀ latch, w.store.latches[l]? = some latch → latch.value.failed = false) :
    w.Blame v t.who l t.ops := by
  obtain ⟨t', old, tail, e, took⟩ := took_of_turn h.orderly turn
  obtain rfl := Option.some.inj (got.symm.trans took.got)
  have breaks : Breaks w.store.latches e.store.latches l :=
    ⟨⟨latch, took.store ▸ found, failed⟩, sound⟩
  cases hact : took.act with
  | broke payload loose lands uncaught => exact (breaks.ne rfl).elim
  | deed deed quiet =>
      have ops := took.ops
      rcases deed.fails breaks with rfl | ⟨job, rfl⟩ | ⟨fresh, construction, rfl⟩
      · exact h.blame_of_count got ops
      · rw [ops]
        exact .continuation job tail (took.spoils h (.finale l job false .nobody) (if_pos rfl))
      · rw [ops]
        cases construction with
        | latch name => exact .made name tail fresh
        | submission p batch id asker =>
            exact .finale p batch id asker _ tail fresh
              (took.spoils h (.batch p batch id asker false) (if_pos rfl))

end World

end WorkerPool
