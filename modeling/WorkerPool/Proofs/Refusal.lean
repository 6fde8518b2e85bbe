import WorkerPool.Proofs.Rejected
import WorkerPool.Proofs.Shutdown

/-! Submissions to a pool that is down. The first item is given back, and what follows is counting:
that item and the members behind it are failures for the latch, and the item leaves the backlog that
it was counted into. When the submission comes to wait on the latch, a failure has been counted for
each member, so the latch is at zero and the wait is over at once. Nothing of this has to wait for
anybody, so the asker is told after a number of turns that only the size of the batch bounds.

No worker takes an item from a pool that is down, so nothing that gets its id then is performed, and
a finale has no completed member to come after. A batch without members is another matter: there is
nothing in it that could be given back, and its finale is performed right away. -/

namespace WorkerPool

variable {α : Type}

namespace World

variable {w v : World α} {index : Nat} {t : Thread α} {p : Nat}

/-! ### What is never performed -/

end World

/-! ### The turns of a refusal -/

namespace Store

/-- The rings and the busy flags of the pools are as they were. -/
def Calm (s s' : Store α) : Prop :=
  ∀ (p : Nat) (pool : Pool), s.pools[p]? = some pool → ∃ pool', s'.pools[p]? = some pool' ∧
    pool'.intake = pool.intake ∧ pool'.busy = pool.busy

theorem calm_of_pools {s s' : Store α} (h : s'.pools = s.pools) : s.Calm s' :=
  fun _ pool found => ⟨pool, h ▸ found, rfl, rfl⟩

theorem calm_of_set {s s' : Store α} {place : Nat} {pool pool' : Pool}
    (found : s.pools[place]? = some pool) (h : s'.pools = s.pools.set place pool')
    (intake : pool'.intake = pool.intake) (busy : pool'.busy = pool.busy) : s.Calm s' := by
  intro p q hq
  by_cases hp : place = p
  · subst hp
    obtain rfl := Option.some.inj (found.symm.trans hq)
    refine ⟨pool', ?_, intake, busy⟩
    rw [h, List.getElem?_set_self (List.getElem?_eq_some_iff.mp hq).1]
  · exact ⟨q, by rw [h, List.getElem?_set_ne hp, hq], rfl, rfl⟩

theorem Calm.ring {s s' : Store α} (calm : s.Calm s') {p : Nat} {pool : Pool}
    (found : s.pools[p]? = some pool) : s'.ring p = s.ring p := by
  obtain ⟨pool', found', intake, -⟩ := calm p pool found
  rw [ring_eq found, ring_eq found', intake]

end Store

namespace Op

/-- How many turns a refusal can take from this operation on. -/
def cost : Op α → Nat
  | .submit sub .next => 2 * sub.rest.length + 8
  | .submit sub (.enlist _) => 2 * sub.rest.length + 9
  | .submit sub (.send _) => 2 * sub.rest.length + 8
  | .submit sub (.refuse _) => 2 * sub.rest.length + 7
  | .submit _ .refused | .latch _ .announce _ | .backlog _ .announce => 1
  | .latch _ (.count _) _ | .latch _ (.wait _) _ | .backlog _ .leave => 2
  | _ => 0

theorem sum_discard_cost (p : Nat) (item : Item) :
    ((discard p item : List (Op α)).map cost).sum ≤ 4 := by
  rw [discard, complete]
  cases item.latch <;> simp [cost]

/-- The end of a submission that is being refused. -/
inductive Concludes (sub : Submission) : Op α → Prop
  | wait (rest : List Job) (l : Nat) (told : sub.ticket.latch = some l) :
      Concludes sub (.latch l (.wait .arriving) (.refused { sub with rest }))
  | refused (rest : List Job) : Concludes sub (.submit { sub with rest } .refused)

/-- What is left to do of a submission that is going to be refused. -/
inductive Refusing (h : List (Who × Entry)) (sub : Submission) : List (Op α) → Prop
  | next (ahead : sub.rest ≠ []) : Refusing h sub [.submit sub .next]
  | enlist (rest : List Job) (item : Item) :
      Refusing h sub [.submit { sub with rest } (.enlist item)]
  | offer (rest : List Job) (item : Item) :
      Refusing h sub [.submit { sub with rest } (.send (.offer item))]
  | refuse (rest : List Job) (item : Item) :
      Refusing h sub [.submit { sub with rest } (.refuse item)]
  | clearing (left : List (Op α)) (clears : ∀ op ∈ left, op.Clears h sub.pool) (last : Op α)
      (concludes : last.Concludes sub) : Refusing h sub (left ++ [last])

theorem Refusing.mono {h h' : List (Who × Entry)} (subset : h ⊆ h') {sub : Submission}
    {ops : List (Op α)} (refusing : Refusing h sub ops) : Refusing h' sub ops := by
  cases refusing with
  | next ahead => exact .next ahead
  | enlist rest item => exact .enlist rest item
  | offer rest item => exact .offer rest item
  | refuse rest item => exact .refuse rest item
  | clearing left clears last concludes =>
      exact .clearing left (fun op hop => (clears op hop).mono subset) last concludes

theorem Urgent.awake {op : Op α} (urgent : op.Urgent) : op.sleepsAt = none := by
  cases hbell : op.sleepsAt with
  | none => rfl
  | some bell => exact absurd (.asleep op bell hbell) urgent.goes

theorem Clears.urgent {h : List (Who × Entry)} {p : Nat} {op : Op α} (clears : op.Clears h p) :
    op.Urgent := by
  cases clears <;> rfl

/-- A refusal has something to do until it is over, and has not to wait for anybody with it. -/
theorem Refusing.head {h : List (Who × Entry)} {sub : Submission} {ops : List (Op α)}
    (refusing : Refusing h sub ops) : ∃ op tail, ops = op :: tail ∧ op.OfCall ∧ op.Urgent := by
  cases refusing with
  | next | enlist | refuse => exact ⟨_, _, rfl, trivial, trivial⟩
  | offer => exact ⟨_, _, rfl, trivial, rfl⟩
  | clearing left clears last concludes =>
      cases left with
      | nil => cases concludes <;> exact ⟨_, _, rfl, trivial, by trivial⟩
      | cons op left =>
          have := clears op List.mem_cons_self
          exact ⟨op, _, rfl, this.ofCall, this.urgent⟩

end Op

section Deeds

variable {around : Around} {s : Store α} {who : Who} {e : Effect α}

/-- Functions are called by the operation that performs them. -/
theorem Deed.silent {op : Op α} (deed : Deed around s who op e)
    (other : ∀ origin position current later, op = .code origin position current later →
      ∃ action program, current = some (action :: program)) (o : Origin) :
    e.calls o who = [] := by
  refine List.filter_eq_nil_iff.mpr fun entry hentry => ?_
  obtain ⟨note, hnote, rfl⟩ := List.mem_map.mp (List.mem_reverse.mp hentry)
  rcases deed.writes hnote with plain | writes
  · simp [plain.calls o who]
  · cases writes with
    | called | returned =>
        obtain ⟨action, program, hcurrent⟩ := other _ _ _ _ rfl
        cases hcurrent
    | _ => simp [Entry.calls]

/-- A turn of a refusal leaves the rings and the flags as they are and calls no function. It brings
the refusal nearer to its end, and counts as failures what it has no longer at stake. -/
structure Op.Declines (s : Store α) (who : Who) (op : Op α) (e : Effect α) : Prop where
  calm : s.Calm e.store
  silent : ∀ o, e.calls o who = []
  nearer : (e.ops.map Op.cost).sum < op.cost
  counted : ∀ l,
    (e.notes.map (Entry.counts l true)).sum + (e.ops.map (Op.stakes l)).sum = op.stakes l

theorem Deed.declines_of_clears {op : Op α} (deed : Deed around s who op e)
    {h : List (Who × Entry)} {p : Nat} (clears : op.Clears h p)
    (effective : ∀ l failed waiter, op = .latch l (.count failed) waiter →
      ∃ latch, s.latches[l]? = some latch ∧ latch.counts = true) : op.Declines s who e := by
  refine ⟨?_, deed.silent fun _ _ _ _ hop => ?_, ?_, (deed.clears clears effective).2⟩
  · cases clears with
    | leave =>
        cases deed with
        | jobAdded submits | freeJobAdded submits => cases submits
        | left _ pool found => exact Store.calm_of_set found rfl rfl rfl
    | _ =>
        cases deed with
        | jobAdded submits | freeJobAdded submits => cases submits
        | _ => exact Store.calm_of_pools rfl
  · subst hop
    cases clears
  · cases clears with
    | count =>
        cases deed with
        | jobAdded submits | freeJobAdded submits => cases submits
        | countIgnored | countSkipped => simp [Op.cost]
        | counted =>
            dsimp only
            split <;> simp [Op.cost]
    | leave =>
        cases deed with
        | jobAdded submits | freeJobAdded submits => cases submits
        | left =>
            dsimp only
            split <;> simp [Op.cost]
    | zero | idle =>
        cases deed with
        | jobAdded submits | freeJobAdded submits => cases submits
        | _ => simp [Op.cost]

/-- A member is taken on as long as there is one. -/
theorem Deed.declines_of_next {sub : Submission} (deed : Deed around s who (.submit sub .next) e)
    (ahead : sub.rest ≠ []) : Op.Declines s who (.submit sub .next) e ∧
      ∃ rest item, e.ops = [.submit { sub with rest } (.enlist item)] := by
  refine ⟨⟨?_, deed.silent nofun, ?_, fun l => ?_⟩, ?_⟩
  all_goals cases deed with
    | jobAdded submits | freeJobAdded submits => cases submits
    | accepted _ pool found through => exact absurd through ahead
    | memberAdded _ pool job rest found hrest => ?_
  · exact Store.calm_of_set found rfl rfl rfl
  · simp only [List.map_singleton, List.sum_singleton, Op.cost, hrest, List.length_cons]
    omega
  · simp [Entry.counts, Op.stakes, SubmissionPhase.item?, hrest]
  · exact ⟨rest, _, rfl⟩

theorem Deed.declines_of_enlist {sub : Submission} {item : Item}
    (deed : Deed around s who (.submit sub (.enlist item)) e) :
    Op.Declines s who (.submit sub (.enlist item)) e ∧
      e.ops = [.submit sub (.send (.offer item))] := by
  have silent := deed.silent nofun
  cases deed with
  | jobAdded submits | freeJobAdded submits => cases submits
  | enlisted _ pool _ found =>
      exact ⟨⟨Store.calm_of_set found rfl rfl rfl, silent, by simp [Op.cost],
        fun l => by simp [Op.stakes, SubmissionPhase.item?]⟩, rfl⟩

/-- A pool that is down gives back what is offered to it. -/
theorem Deed.declines_of_offer {sub : Submission} {item : Item}
    (deed : Deed around s who (.submit sub (.send (.offer item))) e) (down : s.IsDown sub.pool) :
    Op.Declines s who (.submit sub (.send (.offer item))) e ∧
      e.ops = [.submit sub (.refuse item)] := by
  have silent := deed.silent nofun
  cases deed with
  | jobAdded submits | freeJobAdded submits => cases submits
  | offered _ pool _ found up =>
      obtain ⟨pool', found', hdown⟩ := down
      obtain rfl := Option.some.inj (found.symm.trans found')
      rw [hdown] at up
      cases up
  | givenBack _ pool item' _ found hdown sends =>
      have same : item = item' := by
        rcases sends with hcall | ⟨stage, -, hcall⟩
        · exact Channel.Call.offer.inj hcall
        · cases hcall
      exact ⟨⟨Store.calm_of_pools rfl, silent, by simp [Op.cost],
        fun l => by simp [Op.stakes, SubmissionPhase.item?]⟩, by rw [same]⟩

/-- What is left to do for the item that was given back, the members behind it and the asker. -/
theorem Deed.declines_of_refuse {sub : Submission} {item : Item}
    (deed : Deed around s who (.submit sub (.refuse item)) e) (fits : sub.Fits (.refuse item)) :
    Op.Declines s who (.submit sub (.refuse item)) e ∧
      e.ops = Op.discard sub.pool item ++ sub.afterRefusal := by
  have silent := deed.silent nofun
  cases deed with
  | jobAdded submits | freeJobAdded submits => cases submits
  | refusing _ pool _ found =>
      refine ⟨⟨Store.calm_of_pools rfl, silent, ?_, fun l => ?_⟩, rfl⟩
      · have hitem := Op.sum_discard_cost (α := α) sub.pool item
        have hafter : ((sub.afterRefusal : List (Op α)).map Op.cost).sum ≤
            2 * sub.rest.length + 2 := by
          unfold Submission.afterRefusal
          split
          · simp [Op.cost, List.map_const', Nat.mul_comm]
          · simp [Op.cost]
        rw [List.map_append, List.sum_append]
        have hcost : Op.cost (.submit sub (.refuse item) : Op α) = 2 * sub.rest.length + 7 := rfl
        omega
      · have latch := fits.latch item rfl
        simp only [List.map_append, List.sum_append, Op.sum_discard_stakes,
          Submission.sum_afterRefusal_stakes fits, Item.tells, latch, Op.stakes,
          SubmissionPhase.item?, List.map_cons, List.map_nil, List.sum_cons, List.sum_nil,
          Entry.counts]
        by_cases told : sub.ticket.latch = some l
        · simp [told, Nat.add_comm]
        · simp [told]

/-- At zero there is nothing to wait for. -/
theorem Deed.declines_of_wait {sub : Submission} {l : Nat} {latch : Latch}
    (deed : Deed around s who (.latch l (.wait .arriving) (.refused sub)) e)
    (found : s.latches[l]? = some latch) (zero : latch.value.remaining = 0) :
    Op.Declines s who (.latch l (.wait .arriving) (.refused sub)) e ∧
      e.ops = [.submit sub .refused] := by
  have silent := deed.silent nofun
  cases deed with
  | jobAdded submits | freeJobAdded submits => cases submits
  | waitSlept _ latch' _ _ found' awake up held =>
      obtain rfl := Option.some.inj (found.symm.trans found')
      omega
  | refusedWaited => exact ⟨⟨Store.calm_of_pools rfl, silent, by simp [Op.cost], fun l => rfl⟩, rfl⟩

theorem Deed.declines_of_refused {sub : Submission}
    (deed : Deed around s who (.submit sub .refused) e) :
    Op.Declines s who (.submit sub .refused) e := by
  have silent := deed.silent nofun
  cases deed with
  | jobAdded submits | freeJobAdded submits => cases submits
  | refused _ pool found refuses plain =>
      refine ⟨Store.calm_of_pools rfl, silent, ?_, fun l => ?_⟩
      · cases refuses <;> simp [Op.cost]
      · rw [sum_map_eq_zero fun note hnote => ((plain note hnote).ended l 0 [] true who).1]
        cases refuses <;> rfl

/-- The first turn of a submission with members: it gives out an id for it and makes out a ticket.
-/
structure Submission.Begins (sub : Submission) (phase : SubmissionPhase) (s : Store α)
    (e : Effect α) : Prop where
  quiet : e.panic = none
  calm : s.Calm e.store
  backlog : e.store.backlog sub.pool = s.backlog sub.pool
  next : ∃ pool, s.pools[sub.pool]? = some pool ∧ pool.nextId = sub.ticket.id
  told : .ticketed sub.pool sub.ticket ∈ e.notes
  phase : (phase = .next ∧ sub.rest.length = sub.ticket.size) ∨
    ∃ item, phase = .enlist item ∧ sub.rest = [] ∧ sub.ticket.size = 1

theorem Op.Submits.of_code {origin : Origin} {position : Nat} {current : Option Program}
    {later : List Program} {made : List (Op α)} {asker : Asker}
    (submits : Submits (.code origin position current later) made asker) :
    ∃ action program, current = some (action :: program) := by
  cases submits
  exact ⟨_, _, rfl⟩

theorem Deed.begins {op : Op α} (deed : Deed around s who op e) {sub : Submission}
    {phase : SubmissionPhase} {made : List (Op α)} (submits : op.Submits made sub.asker)
    (left : e.ops = .submit sub phase :: made) : sub.Begins phase s e := by
  have commanded : ∀ {ops : List (Op α)}, Command.Leaves s ops →
      ops ≠ .submit sub phase :: made := by
    rintro ops leaves rfl
    cases leaves
  have acted : ∀ {ops behind : List (Op α)}, Action.Leaves s ops →
      (∀ op ∈ behind, op ≠ .submit sub phase) → ops ++ behind ≠ .submit sub phase :: made := by
    intro ops behind leaves other heq
    have hmem : .submit sub phase ∈ ops ++ behind := heq ▸ List.mem_cons_self
    rcases List.mem_append.mp hmem with hmem | hmem
    · cases leaves <;> simp [Op.perform] at hmem
    · exact other _ hmem rfl
  cases deed with
  | commanded _ _ leaves => exact absurd left (commanded leaves)
  | acted _ _ _ _ _ _ leaves => exact absurd left (acted leaves (by simp))
  | jobAdded _ place pool job found | freeJobAdded _ place pool job found =>
      obtain ⟨hop, -⟩ := List.cons.inj left
      cases hop
      exact ⟨rfl, Store.calm_of_set found rfl rfl rfl,
        (Store.same_of_set found (by rfl) (by rfl) (by rfl) place).1, ⟨pool, found, rfl⟩, by simp,
        .inr ⟨_, rfl, rfl, rfl⟩⟩
  | batchAdded _ place pool batch _ found | freeBatchAdded _ place pool batch _ found =>
      obtain ⟨hop, -⟩ := List.cons.inj left
      cases hop
      exact ⟨rfl, Store.calm_of_set found rfl rfl rfl,
        (Store.same_of_set found (by rfl) (by rfl) (by rfl) place).1, ⟨pool, found, rfl⟩, by simp,
        .inl ⟨rfl, rfl⟩⟩
  | _ => first | cases submits | (cases left)

end Deeds

/-- Behind an item that was given back stands what there is to settle, and then the end. -/
theorem Submission.refusing_afterRefusal {sub : Submission} {h : List (Who × Entry)}
    (ticketed : Recorded h (.ticketed sub.pool sub.ticket)) {item : Item}
    (known : item.Known h sub.pool) (rest : List Job) :
    Op.Refusing h sub
      (Op.discard sub.pool item ++ ({ sub with rest } : Submission).afterRefusal : List (Op α)) := by
  unfold afterRefusal
  split
  · rename_i id size waitable l hticket
    have told : sub.ticket.latch = some l := by rw [hticket, Ticket.latch]
    rw [← List.append_assoc]
    refine .clearing _ (fun op hop => ?_) _ (.wait rest l told)
    rcases List.mem_append.mp hop with hop | hop
    · exact Op.clears_discard known op hop
    · obtain ⟨job, -, rfl⟩ := List.mem_map.mp hop
      exact .count l sub.pool sub.ticket ticketed told
  · exact .clearing _ (Op.clears_discard known) _ (.refused rest)

theorem Submission.head_refuse (sub : Submission) (s : Store α) :
    ∃ tail, (sub.refuse s).ops = .release sub.pool :: tail := by
  rw [refuse]
  cases sub.asker <;> exact ⟨_, rfl⟩

namespace World

variable {w v : World α} {index : Nat} {t : Thread α}

/-- Items stay where they are, no worker sets its flag or clears it, and no function is called. -/
structure Undisturbed (w v : World α) : Prop where
  calm : w.store.Calm v.store
  calls : ∀ o, v.calls o = w.calls o

/-- A latch on which a failure has been counted for each member is at zero. -/
theorem Reachable.zero_of_counts (h : w.Reachable) {p l : Nat} {ticket : Ticket}
    (recorded : Recorded w.history (.ticketed p ticket)) (hl : ticket.latch = some l)
    (some : 0 < ticket.size) (counted : ticket.size ≤ w.counts l true) :
    ∃ latch, w.store.latches[l]? = .some latch ∧ latch.value.remaining = 0 := by
  have there := h.known.store.latches p ticket l recorded hl
  have found : w.store.latches[l]? = .some w.store.latches[l] := List.getElem?_eq_getElem there
  have total := h.total recorded hl found
  have runs := (h.tallied.composed l _ found).runs
  refine ⟨_, found, ?_⟩
  split at runs
  · rename_i finishing
    obtain ⟨who, hmem⟩ := recorded
    obtain ⟨-, -, issue, issued, -⟩ := h.known.entries who _ hmem
    obtain ⟨-, -, -, -, -, none, -⟩ := (h.finale ⟨who, hmem⟩ hl issued found).of_finishing finishing
    omega
  · omega

/-- Each turn of a refusal goes on with it, or is the last one. -/
theorem Took.declines (h : w.Reachable) {op : Op α} {front tail : List (Op α)} {e : Effect α}
    (took : w.Took v index t [op] tail e) (deed : Deed (w.around index) w.store t.who op e)
    {sub : Submission} (down : w.store.IsDown sub.pool) (some : 0 < sub.ticket.size)
    (refusing : Op.Refusing w.history sub (op :: front))
    (counted : ∀ l, sub.ticket.latch = .some l →
      sub.ticket.size ≤ w.counts l true + ((op :: front).map (Op.stakes l)).sum) :
    op.Declines w.store t.who e ∧ (Op.Refusing v.history sub (e.ops ++ front) ∨
      front = [] ∧ ∃ rest, op = .submit { sub with rest } .refused) := by
  have ht := took.mem_threads
  have hop : op ∈ t.ops := took.due_mem
  obtain ⟨above, rest, -, before⟩ := (h.orderly.ordered t ht).before hop
  have known := h.known.ops t ht op hop
  generalize hleft : op :: front = left at refusing
  cases refusing with
  | next ahead =>
      obtain ⟨rfl, rfl⟩ := List.cons.inj hleft
      obtain ⟨declines, rest, item, hops⟩ := deed.declines_of_next ahead
      exact ⟨declines, .inl (hops ▸ .enlist rest item)⟩
  | enlist rest item =>
      obtain ⟨rfl, rfl⟩ := List.cons.inj hleft
      obtain ⟨declines, hops⟩ := deed.declines_of_enlist
      exact ⟨declines, .inl (hops ▸ .offer rest item)⟩
  | offer rest item =>
      obtain ⟨rfl, rfl⟩ := List.cons.inj hleft
      obtain ⟨declines, hops⟩ := deed.declines_of_offer down
      exact ⟨declines, .inl (hops ▸ .refuse rest item)⟩
  | refuse rest item =>
      obtain ⟨rfl, rfl⟩ := List.cons.inj hleft
      obtain ⟨declines, hops⟩ := deed.declines_of_refuse before.fits
      refine ⟨declines, .inl ?_⟩
      rw [hops, List.append_nil]
      have ticketed := known.1.mono took.history_subset
      exact sub.refusing_afterRefusal ticketed
        ⟨sub.ticket, ticketed, (known.2 item rfl).mono took.history_subset⟩ rest
  | clearing left clears last concludes =>
      cases left with
      | cons op' left =>
          have hcons : op :: front = op' :: (left ++ [last]) := hleft
          obtain ⟨rfl, rfl⟩ := List.cons.inj hcons
          have mine := clears op List.mem_cons_self
          have goes := (took.clears h deed mine).1
          refine ⟨deed.declines_of_clears mine fun l failed waiter heq => ?_, .inl ?_⟩
          · cases mine with
            | count k q ticket ticketed told =>
                cases heq
                exact h.count_effective ticketed told ht hop
            | _ => cases heq
          · rw [← List.append_assoc]
            refine .clearing _ (fun op' hop' => ?_) last concludes
            rcases List.mem_append.mp hop' with hop' | hop'
            · exact goes op' hop'
            · exact (clears op' (List.mem_cons_of_mem op hop')).mono took.history_subset
      | nil =>
          obtain ⟨rfl, rfl⟩ := List.cons.inj hleft
          cases concludes with
          | wait rest l told =>
              obtain ⟨latch, found, zero⟩ := h.zero_of_counts known.2 told some
                (by simpa [Op.stakes] using counted l told)
              obtain ⟨declines, hops⟩ := deed.declines_of_wait found zero
              exact ⟨declines, .inl (hops ▸
                .clearing [] (fun _ hop => absurd hop List.not_mem_nil) _ (.refused rest))⟩
          | refused rest => exact ⟨deed.declines_of_refused, .inr ⟨rfl, rest, rfl⟩⟩

/-- The latest one of the turns has told the asker of the refusal. -/
def Denied (index : Nat) (behind : List (Op α)) (sub : Submission)
    (turns : List (World α × World α)) : Prop :=
  ∃ u pick t earlier, turns = (u, u.apply index pick t behind (sub.refuse u.store)) :: earlier

/-- How far a refusal has come that has taken the turns `turns` and has `front` left to do. What its
turns have changed about the backlog is to be settled by what is left. -/
structure Declining (index : Nat) (behind : List (Op α)) (sub : Submission) (front : List (Op α))
    (w : World α) (turns : List (World α × World α)) : Prop where
  down : w.store.IsDown sub.pool
  still : ∀ turn ∈ turns, turn.1.Undisturbed turn.2
  paid : share (fun w => (w.store.backlog sub.pool : Int)) turns =
    ((front.map (Op.dues sub.pool)).sum : Nat)
  counted : ∀ l, sub.ticket.latch = some l →
    sub.ticket.size ≤ w.counts l true + (front.map (Op.stakes l)).sum
  bounded : turns.length + (front.map Op.cost).sum ≤ 2 * sub.ticket.size + 8
  stage : Op.Refusing w.history sub front ∨
    (Denied index behind sub turns ∧ ∃ s : Store α, front = (sub.refuse s).ops)

/-- A turn of the thread that is refused goes on with the refusal. -/
theorem Took.declining (h : w.Reachable) {op : Op α} {front behind : List (Op α)} {e : Effect α}
    {pick : Nat} (took : w.Took v index t [op] (front ++ behind) e) (mine : op.OfCall)
    (effect : op.effect (w.around index) w.store t.who = some e)
    (step : v = w.apply index pick t (front ++ behind) e)
    (deed : Deed (w.around index) w.store t.who op e) {sub : Submission}
    (some : 0 < sub.ticket.size) {turns : List (World α × World α)}
    (declining : Declining index behind sub (op :: front) w turns) :
    Declining index behind sub (e.ops ++ front) v ((w, v) :: turns) := by
  have refusing : Op.Refusing w.history sub (op :: front) := by
    refine declining.stage.resolve_right ?_
    rintro ⟨-, s, hfront⟩
    obtain ⟨tail, hrefuse⟩ := sub.head_refuse s
    obtain ⟨rfl, -⟩ := List.cons.inj (hfront.trans hrefuse)
    exact mine
  obtain ⟨declines, next⟩ := took.declines h deed declining.down some refusing declining.counted
  refine ⟨took.isDown declining.down, ?_, ?_, fun l hl => ?_, ?_, ?_⟩
  · intro turn hturn
    rcases List.mem_cons.mp hturn with rfl | hturn
    · exact ⟨took.store ▸ declines.calm, fun o => by
        rw [took.calls, declines.silent, List.nil_append]⟩
    · exact declining.still turn hturn
  · obtain ⟨pool, found, -⟩ := declining.down
    have enough : op.dues sub.pool ≤ w.store.backlog sub.pool := by
      rw [h.backlog_eq]
      exact Nat.le_add_left_of_le (dues_of_mem took.mem_threads took.due_mem)
    have dues := deed.dues h.orderly.rings sub.pool enough
    have paid := declining.paid
    rw [declines.calm.ring found] at dues
    rw [List.map_cons, List.sum_cons] at paid
    rw [share_cons, paid, took.store, List.map_append, List.sum_append]
    omega
  · have counts := declines.counted l
    have counted := declining.counted l hl
    rw [List.map_cons, List.sum_cons] at counted
    rw [took.counts, List.map_append, List.sum_append]
    omega
  · have nearer := declines.nearer
    have bounded := declining.bounded
    rw [List.map_cons, List.sum_cons] at bounded
    rw [List.length_cons, List.map_append, List.sum_append]
    omega
  · refine next.imp_right ?_
    rintro ⟨rfl, rest, rfl⟩
    obtain ⟨pool, -, effect⟩ := Option.bind_eq_some_iff.mp effect
    obtain rfl : sub.refuse w.store = e := Option.some.inj effect
    exact ⟨⟨w, pick, t, turns, by rw [step]; rfl⟩, w.store, List.append_nil _⟩

/-- A refusal goes on whatever others do in between. -/
theorem During.declines {turns : List (World α × World α)} (during : w.During index turns v)
    (h : w.Reachable) {front behind : List (Op α)} {sub : Submission} (some : 0 < sub.ticket.size)
    (got : w.threads[index]? = .some t) (ops : t.ops = front ++ behind)
    (after : ∀ op tail, behind = op :: tail → ¬op.OfCall)
    (declining : Declining index behind sub front w []) :
    ∃ t front, v.threads[index]? = .some t ∧ t.ops = front ++ behind ∧
      Declining index behind sub front v turns := by
  refine during.keeps h (P := Declining index behind sub) after ?_ ⟨t, front, got, ops, declining⟩
    ?_ ?_ ?_
  · intro front u turns declining op tail hops
    rcases declining.stage with refusing | ⟨-, s, rfl⟩
    · obtain ⟨op', tail', rfl, -, urgent⟩ := refusing.head
      obtain ⟨rfl, -⟩ := List.cons.inj hops
      exact urgent.awake
    · obtain ⟨tail', hrefuse⟩ := sub.head_refuse s
      rw [hrefuse] at hops
      obtain ⟨rfl, -⟩ := List.cons.inj hops
      rfl
  · intro front u turns command _ declining
    exact ⟨declining.down, declining.still, declining.paid, declining.counted, declining.bounded,
      declining.stage⟩
  · intro front u v turns i t old tail e s _ _ took _ _ _ _ declining
    refine ⟨took.isDown declining.down, declining.still, declining.paid, fun l hl => ?_,
      declining.bounded, declining.stage.imp_left (.mono took.history_subset)⟩
    have := declining.counted l hl
    rw [took.counts]
    omega
  · intro op front u v turns pick t e hu _ mine effect step took deed declining
    exact took.declining hu mine effect step deed some declining

end World

end WorkerPool
