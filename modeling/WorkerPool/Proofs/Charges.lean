import WorkerPool.Proofs.Tickets

/-! The reasons for counts. A count on the latch of a ticket is made by a worker that has performed
an item of the submission, by whoever has discarded or refused such an item, or for the members of a
batch behind one that was refused. So a count that tells of a failure has a failure behind it, and
behind every count stands the operation that settles its item with the pool. -/

namespace WorkerPool

variable {α : Type}

/-- The item came to no good end before anybody performed it. -/
def Item.Dropped (h : List (Who × Entry)) (p : Nat) (item : Item) : Prop :=
  Recorded h (.discarded p item) ∨ Recorded h (.refused p item)

theorem Item.Dropped.mono {h h' : List (Who × Entry)} (sub : h ⊆ h') {p : Nat} {item : Item}
    (dropped : item.Dropped h p) : item.Dropped h' p :=
  dropped.imp (Recorded.mono sub) (Recorded.mono sub)

namespace Op

/-- Why `who` counts on the latch `l`, given what stands behind the count: the latch is nobody's, or
an item was performed, or one was dropped, or it is about a member behind a refused one. -/
inductive Charge (h : List (Who × Entry)) (who : Who) (l : Nat) : Bool → List (Op α) → Prop
  | free (failed : Bool) (rest : List (Op α)) (untold : Untold h l) : Charge h who l failed rest
  | performed (p i : Nat) (item : Item) (succeeded : Bool) (told : item.latch = some l)
      (known : item.Known h p)
      (evidence : succeeded = false → ∃ payload, (who, .line (.jobPanicked item.id payload)) ∈ h) :
      Charge h who l (!succeeded) [.work p i (.finish item succeeded)]
  | dropped (p : Nat) (item : Item) (rest : List (Op α)) (told : item.latch = some l)
      (known : item.Known h p) (evidence : item.Dropped h p) :
      Charge h who l true (.backlog p .leave :: rest)
  | behind (sub : Submission) (item : Item) (count : Nat) (rest : List (Op α))
      (told : sub.ticket.latch = some l) (part : item.Part h sub.pool sub.ticket)
      (ticketed : Recorded h (.ticketed sub.pool sub.ticket))
      (evidence : Recorded h (.refused sub.pool item)) :
      Charge h who l true (List.replicate count (.latch l (.count true) .nobody) ++
        .latch l (.wait .arriving) (.refused sub) :: rest)

/-- Every count has its reason, and so has whoever tells others that it was the last. Nobody takes
away a latch that a ticket was made out for. A shutdown has recorded what it drained. -/
def Charged (h : List (Who × Entry)) (who : Who) : Op α → List (Op α) → Prop
  | .latch l (.count failed) _, rest => Charge h who l failed rest
  | .latch l (.running _ _) _, rest => Charge h who l false rest
  | .latch l .announce _, rest => ∃ failed, Charge h who l failed rest
  | .latch l .terminate _, _ => Untold h l
  | .shutDown p (.call (.announce (.drained items))), _ =>
    ∀ item ∈ items, Recorded h (.discarded p item)
  | _, _ => True

/-- The operation needs no reason. -/
def Chargeless : Op α → Prop
  | .latch _ (.count _) _ | .latch _ (.running _ _) _ | .latch _ .announce _
  | .latch _ .terminate _ | .shutDown _ (.call (.announce (.drained _))) => False
  | _ => True

variable {h h' : List (Who × Entry)} {who : Who}

theorem Chargeless.charged {op : Op α} (free : op.Chargeless) (rest : List (Op α)) :
    op.Charged h who rest := by
  unfold Charged
  split
  · exact free.elim
  · exact free.elim
  · exact free.elim
  · exact free.elim
  · exact free.elim
  · trivial

theorem along_of_chargeless {ops : List (Op α)} (free : ∀ op ∈ ops, op.Chargeless)
    (behind : List (Op α)) : Along (Charged h who) ops behind :=
  along_of_forall (fun op hop rest => (free op hop).charged rest) behind

theorem Charge.mono (sub : h ⊆ h') {l : Nat} (untold : Untold h l → Untold h' l) {failed : Bool}
    {rest : List (Op α)} (charge : Charge h who l failed rest) : Charge h' who l failed rest := by
  cases charge with
  | free _ _ hl => exact .free _ _ (untold hl)
  | performed p i item succeeded told known evidence =>
      exact .performed p i item succeeded told (known.mono sub)
        fun hs => (evidence hs).imp fun _ hmem => sub hmem
  | dropped p item rest told known evidence =>
      exact .dropped p item rest told (known.mono sub) (evidence.mono sub)
  | behind submission item count rest told part ticketed evidence =>
      exact .behind submission item count rest told (part.mono sub) (ticketed.mono sub)
        (evidence.mono sub)

theorem Charged.mono (sub : h ⊆ h') {s : Store α}
    (untold : ∀ l, l < s.latches.length → Untold h l → Untold h' l) {op : Op α} {rest : List (Op α)}
    (known : op.Known h s) (charged : op.Charged h who rest) : op.Charged h' who rest := by
  unfold Charged at charged ⊢
  split
  · exact Charge.mono sub (untold _ known.1) charged
  · exact Charge.mono sub (untold _ known.1) charged
  · exact charged.imp fun _ charge => charge.mono sub (untold _ known.1)
  · exact untold _ known.1 charged
  · exact fun item hitem => (charged item hitem).mono sub
  · trivial

theorem Charged.wake {op : Op α} {rest : List (Op α)} (charged : op.Charged h who rest) :
    op.wake.Charged h who rest := by
  cases op with
  | latch l call waiter => cases call <;> exact charged
  | submit sub phase => cases phase <;> trivial
  | work p i phase => cases phase <;> trivial
  | _ => exact charged

/-- A worker that tells a latch how an item went has performed it. -/
theorem along_complete {p i : Nat} {item : Item} (succeeded : Bool) (known : item.Known h p)
    (evidence : succeeded = false → ∃ payload, (who, .line (.jobPanicked item.id payload)) ∈ h) :
    Along (Charged (α := α) h who)
      (complete item.latch (!succeeded) ++ [.work p i (.finish item succeeded)]) [] := by
  have hfinish : Along (Charged (α := α) h who) [.work p i (.finish item succeeded)] [] :=
    ⟨trivial, trivial⟩
  cases told : item.latch with
  | none => exact hfinish
  | some l => exact ⟨.performed p i item succeeded told known evidence, hfinish⟩

theorem along_discard {p : Nat} {item : Item} (known : item.Known h p) (dropped : item.Dropped h p)
    (behind : List (Op α)) : Along (Charged h who) (discard p item) behind := by
  have hleave : Along (Charged (α := α) h who) [.backlog p .leave] behind := ⟨trivial, trivial⟩
  unfold discard
  cases told : item.latch with
  | none => exact hleave
  | some l => exact ⟨.dropped p item _ told known dropped, hleave⟩

theorem along_flatMap_discard {p : Nat} {items : List Item} (known : ∀ item ∈ items, item.Known h p)
    (dropped : ∀ item ∈ items, item.Dropped h p) (behind : List (Op α)) :
    Along (Charged h who) (items.flatMap (discard p)) behind := by
  induction items with
  | nil => exact trivial
  | cons item items ih =>
      rw [List.flatMap_cons, along_append]
      refine ⟨along_discard (known item List.mem_cons_self) (dropped item List.mem_cons_self) _, ?_⟩
      exact ih (fun item hitem => known item (List.mem_cons_of_mem _ hitem))
        fun item hitem => dropped item (List.mem_cons_of_mem _ hitem)

end Op

section Deeds

variable {around : Around} {s : Store α} {who : Who} {e : Effect α}

open Op (Along Charged Chargeless along_of_chargeless)

theorem Command.Leaves.charged {ops : List (Op α)} (leaves : Command.Leaves s ops)
    {h : List (Who × Entry)} (named : ∀ l, s.NamesLatch l → Untold h l) :
    Along (Charged h who) ops [] := by
  cases leaves with
  | count place failed answer hname =>
      exact ⟨.free failed _ (named place hname), trivial, trivial⟩
  | terminate place answer hname => exact ⟨named place hname, trivial, trivial⟩
  | _ => exact along_of_chargeless (by simp [Chargeless, Op.perform]) _

theorem Action.Leaves.charged {ops : List (Op α)} (leaves : Action.Leaves s ops)
    {h : List (Who × Entry)} (named : ∀ l, s.NamesLatch l → Untold h l) (behind : List (Op α)) :
    Along (Charged h who) ops behind := by
  cases leaves with
  | count place failed hname => exact ⟨.free failed _ (named place hname), trivial⟩
  | terminate place hname => exact ⟨named place hname, trivial⟩
  | _ => exact along_of_chargeless (by simp [Chargeless, Op.perform]) _

theorem Submission.Hands.chargeless {sub : Submission} {ops : List (Op α)} (hands : sub.Hands ops) :
    ∀ op ∈ ops, op.Chargeless := by
  cases hands <;> simp [Chargeless]

theorem Submission.Refuses.chargeless {sub : Submission} {ops : List (Op α)}
    (refuses : sub.Refuses ops) : ∀ op ∈ ops, op.Chargeless := by
  cases refuses <;> simp [Chargeless]

/-- The counts for the members behind a refused item have their reason in the refusal. -/
theorem Submission.charged_afterRefusal {sub : Submission} {h : List (Who × Entry)} {item : Item}
    (part : item.Part h sub.pool sub.ticket) (ticketed : Recorded h (.ticketed sub.pool sub.ticket))
    (refused : Recorded h (.refused sub.pool item)) (behind : List (Op α)) :
    Along (Charged h who) sub.afterRefusal behind := by
  unfold afterRefusal
  split
  · rename_i id size waitable latch hticket
    rw [List.map_const']
    generalize sub.rest.length = count
    induction count with
    | zero => exact ⟨trivial, trivial⟩
    | succ count ih =>
        rw [List.replicate_succ, List.cons_append]
        refine ⟨?_, ih⟩
        have told : sub.ticket.latch = some latch := by rw [hticket]; rfl
        have charge : Op.Charge h who latch true _ :=
          .behind sub item count behind told part ticketed refused
        simpa [Charged] using charge
  · exact ⟨trivial, trivial⟩

/-- A turn leaves counts behind only for a reason. -/
theorem Deed.charged {op : Op α} (deed : Deed around s who op e) {rest : List (Op α)}
    (before : op.Before who rest) {h : List (Who × Entry)}
    (told : ∀ note ∈ e.notes, (who, note) ∈ h)
    (known : op.Known h s) (named : ∀ l, s.NamesLatch l → Untold h l)
    (started : ∀ (p : Nat) (pool : Pool), s.pools[p]? = some pool → Untold h pool.started)
    (charged : op.Charged h who rest) : Along (Charged h who) e.ops rest := by
  cases deed with
  | commanded command eases leaves plain =>
      cases before with
      | command steps => exact leaves.charged named
  | acted origin position action program later eases leaves plain =>
      rw [Op.along_append]
      exact ⟨leaves.charged named _, trivial, trivial⟩
  | jobAdded submits | freeJobAdded submits =>
      refine along_of_chargeless ?_ _
      cases submits <;> simp [Chargeless]
  | monitorTurned place call left | channelTurned place call left =>
      refine along_of_chargeless ?_ _
      rcases left with rfl | ⟨call, rfl⟩ <;> simp [Chargeless]
  | countStarted place l job found counts last held sound =>
      exact ⟨trivial, charged, trivial⟩
  | countSkipped place l failed => exact ⟨⟨failed, charged⟩, trivial⟩
  | counted place l failed =>
      dsimp only
      split
      · exact ⟨⟨failed, charged⟩, trivial⟩
      · trivial
  | continued =>
      dsimp only
      split
      · exact ⟨⟨false, charged⟩, trivial⟩
      · trivial
  | left =>
      refine along_of_chargeless ?_ _
      dsimp only
      split <;> simp [Chargeless]
  | poolReady place l stage pool q name succeeded found awake verdict present =>
      refine along_of_chargeless ?_ _
      cases s.names.pools.find? name <;> simp [Chargeless]
  | accepted sub pool found through hands plain => exact along_of_chargeless hands.chargeless _
  | refused sub pool found refuses plain => exact along_of_chargeless refuses.chargeless _
  | refusing sub pool item found =>
      have part := known.2 item rfl
      have refused : Recorded h (.refused sub.pool item) := ⟨who, told _ (by simp)⟩
      rw [Op.along_append]
      exact ⟨Op.along_discard ⟨_, known.1, part⟩ (.inr refused) _,
        sub.charged_afterRefusal part known.1 refused rest⟩
  | workStarted place index pool found =>
      exact ⟨.free false _ (started place pool found), trivial, trivial⟩
  | jobRan place index pool item found =>
      cases before with
      | work =>
          exact Op.along_complete true (known.2 item (by simp [WorkerPhase.items])) Bool.noConfusion
  | jobBroke place index pool item payload found =>
      cases before with
      | work =>
          have broken := told _ (List.mem_singleton_self _)
          exact Op.along_complete false (known.2 item (by simp [WorkerPhase.items]))
            fun _ => ⟨payload, broken⟩
  | drained place pool ring' found valid empty capacity =>
      refine ⟨fun item hitem => ⟨who, told _ ?_⟩, trivial⟩
      exact List.mem_map_of_mem hitem
  | abandoned place pool items found =>
      rw [Op.along_append]
      refine ⟨Op.along_flatMap_discard known.2 (fun item hitem => .inl (charged item hitem)) _, ?_⟩
      exact ⟨trivial, trivial⟩
  | _ => exact along_of_chargeless (by simp [Chargeless, Op.perform]) _

theorem Op.Lands.charged {payload : Payload} {old new : List (Op α)} {notes : List Entry}
    (lands : Op.Lands payload old new notes) {h : List (Who × Entry)} {rest : List (Op α)}
    (charged : Along (Charged h who) old rest) : Along (Charged h who) new rest := by
  cases lands with
  | nowhere => exact trivial
  | finale position current later l job => exact ⟨charged.2.1, trivial⟩
  | item | batch | latchMade => exact ⟨trivial, trivial⟩

end Deeds

namespace World

/-- Every count that somebody is about to make has its reason. -/
def Charged (w : World α) : Prop :=
  ∀ t ∈ w.threads, Op.Along (Op.Charged w.history t.who) t.ops []

variable {w v : World α} {index : Nat} {t : Thread α} {old tail : List (Op α)} {e : Effect α}

theorem Took.charged (reachable : w.Reachable) (took : w.Took v index t old tail e)
    (h : w.Charged) : v.Charged := by
  have known := reachable.known
  have discreet := reachable.discreet
  have sub := took.history_subset
  have ht := took.mem_threads
  have stack := took.leads reachable.orderly
  have hold : ∀ op ∈ old, op.Known w.history w.store :=
    fun op hop => known.ops t ht op (took.mem_ops hop)
  have hmono : ∀ {who : Who} {op : Op α} {rest : List (Op α)},
      op.Known w.history w.store ∧ op.Charged w.history who rest →
        op.Charged v.history who rest :=
    fun hop => hop.2.mono sub (fun l there untold => took.untold there untold) hop.1
  refine took.along
    (P := fun who op rest => op.Known w.history w.store ∧ op.Charged w.history who rest)
    (Q := fun who op rest => op.Charged v.history who rest) ?_ ?_ ?_ ?_ ?_
  · exact fun who op rest hop => hop.wake
  · exact fun who op rest hop => hmono hop
  · exact fun u hu => (h u hu).and (known.ops u hu)
  · intro hcharged
    have hcharged : Op.Along (Op.Charged v.history t.who) old tail :=
      hcharged.imp fun op rest hop => hmono hop
    cases took.act with
    | deed deed quiet =>
        refine deed.charged stack.1.1 (fun note hnote => took.mem_history.mpr (.inl ⟨rfl, hnote⟩))
          ?_ ?_ ?_ hcharged.1
        · exact (hold _ (List.mem_singleton_self _)).mono sub (Nat.le_refl _) (Nat.le_refl _)
        · exact fun l hl => took.untold (known.store.latchNames l hl) (discreet.named l hl)
        · exact fun p pool found =>
            took.untold (known.store.started p pool found) (discreet.started p pool found)
    | broke payload loose lands uncaught =>
        rw [Op.along_append] at hcharged
        exact lands.charged hcharged.2
  · exact fun p i => trivial

theorem Reachable.charged {w : World α} (h : w.Reachable) : w.Charged := by
  refine h.induct (P := Charged) (fun cells => by simp [Charged, World.start])
    (fun w command _ ih => ?_) fun w v index t old tail e reachable took ih =>
      took.charged reachable ih
  intro u hu
  rcases List.mem_append.mp hu with hu | hu
  · exact ih u hu
  · obtain rfl := List.mem_singleton.mp hu
    exact ⟨trivial, trivial⟩

end World

end WorkerPool
