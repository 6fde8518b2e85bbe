import WorkerPool.Proofs.Actions

/-! What a batch writes when it is parallel. Its members are performed in any order and at the same
time, so their writes come mixed, but what each member writes is fixed and comes in its own order,
and the finale writes after all of them. If no two members write into the same cell, the writes into
one cell are therefore those of one member and then those of the finale, whatever the schedule, and
by the time a wait for the ticket ends with success all of them have been made. -/

namespace WorkerPool

variable {α : Type}

/-- What a chain of functions writes, in order. -/
def writesOf (programs : List Program) : List (Nat × Int) :=
  programs.flatten.filterMap Action.write?

/-- The functions of the job write into the cell. -/
def Job.Writes (job : Job) (i : Nat) : Prop :=
  ∃ value, Action.write i value ∈ job.programs.flatten

/-- The functions of the batch write into the first `size` cells and do nothing else, and no cell is
written by two members. -/
structure Batch.Scatters (b : Batch) (size : Nat) : Prop where
  writes : ∀ action ∈ b.programs.flatten, ∃ i value, action = .write i value ∧ i < size
  apart : b.members.Pairwise fun job other => ∀ i, job.Writes i → ¬other.Writes i

/-- What is written in a turn, and on whose account. -/
def Moment.put? (m : Moment α) : Option (Origin × Nat × Int) :=
  m.act?.bind fun (o, action) => action.write?.map fun write => (o, write)

theorem writesOf_append (front back : List Program) :
    writesOf (front ++ back) = writesOf front ++ writesOf back := by
  rw [writesOf, List.flatten_append, List.filterMap_append]
  rfl

theorem writesOf_flatMap {β : Type} (l : List β) (f : β → List Program) :
    writesOf (l.flatMap f) = l.flatMap fun x => writesOf (f x) := by
  induction l with
  | nil => rfl
  | cons x l ih => rw [List.flatMap_cons, List.flatMap_cons, writesOf_append, ih]

theorem Job.writes_of_mem {job : Job} {write : Nat × Int}
    (mem : write ∈ writesOf job.programs) : job.Writes write.1 := by
  obtain ⟨action, hmem, wrote⟩ := List.mem_filterMap.mp mem
  exact ⟨write.2, Action.of_write? wrote ▸ hmem⟩

theorem Moment.of_put? {m : Moment α} {o : Origin} {write : Nat × Int}
    (h : m.put? = some (o, write)) : m.act? = some (o, .write write.1 write.2) := by
  obtain ⟨⟨o', action⟩, act, h⟩ := Option.bind_eq_some_iff.mp h
  obtain ⟨write', wrote, h⟩ := Option.map_eq_some_iff.mp h
  obtain ⟨rfl, rfl⟩ := Prod.mk.inj h
  rw [act, Action.of_write? wrote]

/-- What some turns write into one cell. -/
def putsAt (i : Nat) (moments : List (Moment α)) : List (Origin × Nat × Int) :=
  (moments.filterMap Moment.put?).filter (·.2.1 == i)

/-- Into the cell only those write, in the turns and on the accounts, that are `own`. -/
def WrittenOnly (i : Nat) (own : Moment α → Origin → Prop) (moments : List (Moment α)) : Prop :=
  ∀ m ∈ moments, ∀ o value, m.act? = some (o, .write i value) → own m o

theorem of_mem_putsAt {i : Nat} {moments : List (Moment α)} {x : Origin × Nat × Int}
    (mem : x ∈ putsAt i moments) :
    x.2.1 = i ∧ ∃ m ∈ moments, m.act? = some (x.1, .write i x.2.2) := by
  obtain ⟨mem, hit⟩ := List.mem_filter.mp mem
  obtain ⟨m, hm, put⟩ := List.mem_filterMap.mp mem
  have hit : x.2.1 = i := by simpa using hit
  exact ⟨hit, m, hm, hit ▸ Moment.of_put? put⟩

/-- What is written into a cell is what is written into it on all accounts. -/
theorem map_snd_putsAt (i : Nat) (moments : List (Moment α)) :
    (putsAt i moments).map Prod.snd = (moments.filterMap (·.write?)).filter (·.1 == i) := by
  have all : moments.filterMap (·.write?) = (moments.filterMap Moment.put?).map Prod.snd := by
    rw [List.map_filterMap]
    congr 1
    funext m
    unfold Moment.put? Moment.write?
    cases m.act? with
    | none => rfl
    | some act => cases h : act.2.write? <;> simp [h]
  rw [all, List.filter_map]
  rfl

/-- What is written into a cell on one account are the writes into this cell among the actions on
this account. -/
theorem filter_putsAt (o : Origin) (i : Nat) (moments : List (Moment α)) :
    ((putsAt i moments).filter (·.1 == o)).map Prod.snd =
      ((moments.filterMap (·.actOf? o)).filterMap Action.write?).filter (·.1 == i) := by
  have own : (moments.filterMap (·.actOf? o)).filterMap Action.write? =
      ((moments.filterMap Moment.put?).filter (·.1 == o)).map Prod.snd := by
    rw [List.filter_filterMap, List.map_filterMap, List.filterMap_filterMap]
    congr 1
    funext m
    unfold Moment.put? Moment.actOf?
    cases m.act? with
    | none => rfl
    | some act =>
        by_cases hit : act.1 = o <;> cases h : act.2.write? <;> simp [h, hit]
  rw [own, putsAt, List.filter_comm, List.filter_map]
  rfl

namespace World

variable {u v w : World α} {moments : List (Moment α)} {b : Batch} {p bid l id : Nat}

/-- In the turn from `w` to `v` a wait for the ticket with the latch `l` and the id `id` ends with
success. -/
inductive Awaited (l id : Nat) (w v : World α) : Prop
  | intro {index pick : Nat} {t t' : Thread α} {stage : Stage} {rest : List (Op α)}
      (got : w.threads[index]? = some t)
      (ops : t.ops = .latch l (.wait stage) (.ticket id) :: rest)
      (turn : w.turn index pick = some v) (after : v.threads[index]? = some t')
      (through : t'.ops = rest) (success : t'.answer = some (.ok .nothing))

/-- The batch `b` was submitted to the pool `p` in the run from `u` to `w`, where it got the id
`bid` and a ticket with the latch `l`, and then the ticket has been waited for with success. -/
structure Parallel (b : Batch) (p bid l : Nat) (u : World α) (moments : List (Moment α))
    (w v : World α) : Prop where
  reachable : u.Reachable
  unknown : ∀ issue, ¬Recorded u.history (.issued p bid issue)
  run : u.Run moments w
  issued : Recorded w.history (.issued p bid (.batch b))
  ticketed : ∃ size waitable,
    Recorded w.history (.ticketed p (.batch bid size waitable (some l)))
  awaited : Awaited l bid w v

/-- The account of a member of the batch, or that of its finale. -/
def AccountOf (w : World α) (b : Batch) (p bid l : Nat) (o : Origin) : Prop :=
  (∃ id ∈ (WorkerPool.membersOf w.history p bid).map Prod.fst, o = .item p id) ∨
    o = (Issue.batch b).finaleOrigin p bid l

/-- The turns of a run come one after the other. -/
theorem Run.pairwise_later (run : u.Run moments w) :
    moments.Pairwise fun m m' => m.world.Later m'.world := by
  induction run with
  | nil => exact .nil
  | issue run command ih => exact ih
  | turn run index pick turn ih =>
      refine List.pairwise_append.mpr ⟨ih, List.pairwise_singleton _ _, fun m hm m' hm' => ?_⟩
      obtain rfl := List.mem_singleton.mp hm'
      obtain ⟨before, after, v, pick, -, -, turn, run⟩ := run.of_mem hm
      exact .head (.turn _ pick turn) run.later

/-- What is past is not taken up again. -/
theorem Past.not_act {o : Origin} (past : w.Past o) {m : Moment α} (later : w.Later m.world)
    (action : Action) : m.act? ≠ some (o, action) := by
  intro act
  obtain ⟨t, position, left, chain, rest, got, ops⟩ := of_act? act
  have hop : .code o position (some (action :: left)) chain ∈ t.ops := ops ▸ List.mem_cons_self
  obtain ⟨r, hload⟩ :=
    load_of_mem (fun who op => Op.parts o who op) (List.mem_of_getElem? got) hop
  rw [Op.parts, if_pos rfl] at hload
  exact Multiset.cons_ne_zero (hload.symm.trans (past _ later).1)

/-! ### No function is called before the submission -/

theorem Reachable.known_of_called (h : w.Reachable) (called : w.calls (.item p id) ≠ []) :
    ∃ item : Item, item.id = id ∧ item.Known w.history p := by
  obtain ⟨state, stands⟩ := h.stands (o := .item p id) Origin.noConfusion
  have active : state ≠ .idle := by
    rintro rfl
    exact called (List.reverse_eq_nil_iff.mp stands.trail.reverse_eq)
  obtain ⟨who, started⟩ := stands.begun active
  obtain ⟨lot, course, -⟩ := h.course p id
  obtain ⟨index, item, -, hlot⟩ := course.of_started started
  obtain ⟨hitem, hworker⟩ : lot.item? = some item ∧ lot.worker? = some index := by
    rcases hlot with rfl | rfl | rfl | rfl <;> exact ⟨rfl, rfl⟩
  exact ⟨item, course.id_eq hitem, h.known_of_lot course hitem hworker⟩

namespace Parallel

variable (parallel : Parallel b p bid l u moments w v)

include parallel

theorem ended : w.Reachable :=
  parallel.run.reachable parallel.reachable

theorem unticketed {ticket : Ticket} (named : ticket.id = bid) :
    ¬Recorded u.history (.ticketed p ticket) := by
  rintro ⟨who, recorded⟩
  obtain ⟨-, -, issue, issued, -⟩ := parallel.reachable.known.entries who _ recorded
  exact parallel.unknown issue (named ▸ issued)

theorem uncalled_member {job : Job} (issued : Recorded w.history (.issued p id (.member bid job))) :
    u.calls (.item p id) = [] := by
  by_contra called
  obtain ⟨item, rfl, ticket, recorded, part⟩ := parallel.reachable.known_of_called called
  have later := parallel.run.later.history_subset parallel.reachable
  refine parallel.unticketed ?_ recorded
  cases part with
  | job _ issued' => cases parallel.ended.issue_eq issued (issued'.mono later)
  | member _ _ _ _ issued' =>
      cases parallel.ended.issue_eq issued (issued'.mono later)
      rfl

theorem uncalled_finale : u.calls ((Issue.batch b).finaleOrigin p bid l) = [] := by
  by_contra called
  rw [Issue.finaleOrigin] at called
  split at called
  · obtain ⟨x, mem⟩ := List.exists_mem_of_ne_nil _ called
    obtain ⟨b', -, issued, -⟩ := parallel.reachable.batch_called mem
    exact parallel.unknown _ ⟨_, issued⟩
  · obtain ⟨state, stands⟩ := parallel.reachable.stands (o := .latch l) Origin.noConfusion
    have active : state ≠ .idle := by
      rintro rfl
      exact called (List.reverse_eq_nil_iff.mp stands.trail.reverse_eq)
    obtain ⟨latch, found, -⟩ := stands.begun active
    obtain ⟨size, waitable, ticketed⟩ := parallel.ticketed
    have there := (List.getElem?_eq_some_iff.mp found).1
    refine parallel.run.later.untold parallel.reachable there ?_ p _ ticketed rfl
    intro q other recorded hl
    have later := parallel.run.later.history_subset parallel.reachable
    obtain ⟨rfl, rfl⟩ := parallel.ended.ticket_eq (recorded.mono later) ticketed hl rfl
    exact parallel.unticketed rfl recorded

/-! ### What is carried out for the batch -/

theorem fulfilled : ∃ size waitable,
    (Ticket.batch bid size waitable (some l)).Honoured w.history p ∧
      w.Fulfilled p l (.batch bid size waitable (some l)) := by
  obtain ⟨size, waitable, ticketed⟩ := parallel.ticketed
  obtain ⟨got, ops, turn, after, through, success⟩ := parallel.awaited
  obtain ⟨q, ticket, honoured, awaited, -, succeeds, -⟩ :=
    parallel.ended.verdict got ops turn after through
  obtain ⟨rfl, rfl⟩ := parallel.ended.ticket_eq honoured.1 ticketed
    (Ticket.latch_of_awaited awaited) rfl
  exact ⟨size, waitable, honoured, succeeds.mp success⟩

/-- For a member its functions are carried out, from the first action to the last. -/
theorem acts_of_member {job : Job} (mem : (id, job) ∈ WorkerPool.membersOf w.history p bid) :
    moments.filterMap (·.actOf? (.item p id)) = job.programs.flatten := by
  obtain ⟨size, waitable, -, fulfilled⟩ := parallel.fulfilled
  have issued := mem_membersOf_pair.mp mem
  obtain ⟨i, item, named, known, completed⟩ := fulfilled.members id (List.mem_map_of_mem mem)
  rw [parallel.ended.job_of_known issued rfl named known] at completed
  exact parallel.run.acts_of_completedBy parallel.reachable Origin.noConfusion
    (parallel.uncalled_member issued) completed

/-- For the finale its functions are carried out, if there is one. -/
theorem acts_of_finale :
    moments.filterMap (·.actOf? ((Issue.batch b).finaleOrigin p bid l)) =
      ((b.finale.map Job.programs).getD []).flatten := by
  obtain ⟨size, waitable, honoured, fulfilled⟩ := parallel.fulfilled
  have ho := Issue.finaleOrigin_ne_caller p bid l (.batch b)
  cases finale : b.finale with
  | some job =>
      obtain ⟨who, completed⟩ := fulfilled.finale (.batch b) job parallel.issued finale
      exact parallel.run.acts_of_completedBy parallel.reachable ho parallel.uncalled_finale
        completed
  | none =>
      refine parallel.run.acts_of_uncalled parallel.reachable ho parallel.uncalled_finale ?_
      rw [Issue.finaleOrigin]
      split
      · refine List.eq_nil_iff_forall_not_mem.mpr fun x mem => ?_
        obtain ⟨b', job, issued, -, some⟩ := parallel.ended.batch_called mem
        cases parallel.ended.issue_eq parallel.issued ⟨_, issued⟩
        rw [finale] at some
        cases some
      · have there := parallel.ended.known.store.latches p _ l honoured.1 rfl
        have absent := parallel.ended.finale honoured.1 rfl parallel.issued
          (List.getElem?_eq_getElem there)
        rw [Issue.finale?, finale] at absent
        cases absent with
        | absent _ _ _ untouched => exact List.reverse_eq_nil_iff.mp untouched.trail.reverse_eq

/-- Once the finale is under way, nothing is carried out for the members any more. -/
theorem finale_last :
    moments.Pairwise fun m m' => ∀ action, m.act? = some
      ((Issue.batch b).finaleOrigin p bid l, action) →
        ∀ id ∈ (WorkerPool.membersOf w.history p bid).map Prod.fst, ∀ action',
          m'.act? ≠ some (.item p id, action') := by
  obtain ⟨size, waitable, honoured, -⟩ := parallel.fulfilled
  refine parallel.run.pairwise_later.imp_of_mem fun {m m'} hm _ later action act id hid action' =>
    ?_
  obtain ⟨before, after, v', pick, -, hbefore, turn, hafter⟩ := parallel.run.of_mem hm
  have reachable : m.world.Reachable := hbefore.reachable parallel.reachable
  have ahead : m.world.Later w := .head (.turn _ pick turn) hafter.later
  obtain ⟨t, position, left, chain, rest, got, ops⟩ := of_act? act
  have ht := List.mem_of_getElem? got
  have stack := reachable.orderly.ordered t ht
  rw [ops] at stack
  have some : b.members ≠ [] := fun empty =>
    parallel.ended.not_mem_members honoured parallel.issued empty hid
  rw [Issue.finaleOrigin, if_neg some] at stack
  obtain ⟨job, hop⟩ : ∃ job, .latch l (.running job true) .nobody ∈ t.ops := by
    obtain ⟨before, -⟩ := stack
    rw [List.append_nil] at before
    cases before with
    | code _ _ _ _ after =>
        cases after with
        | finale _ job rest => exact ⟨job, by simp [ops]⟩
  have completed := ahead.completed_of_running reachable honoured rfl ht hop id hid
  exact (reachable.past_of_completed completed).not_act later action'

/-- What is written for a member into a cell. -/
theorem puts_of_member {job : Job} (mem : (id, job) ∈ WorkerPool.membersOf w.history p bid)
    (i : Nat) :
    ((putsAt i moments).filter (·.1 == .item p id)).map Prod.snd =
      (writesOf job.programs).filter (·.1 == i) := by
  rw [filter_putsAt, parallel.acts_of_member mem]
  rfl

theorem puts_of_finale (i : Nat) :
    ((putsAt i moments).filter (·.1 == (Issue.batch b).finaleOrigin p bid l)).map Prod.snd =
      (writesOf ((b.finale.map Job.programs).getD [])).filter (·.1 == i) := by
  rw [filter_putsAt, parallel.acts_of_finale]
  rfl

/-- The writes into a cell for the members are those of one of them. -/
theorem puts_of_members {size : Nat} (scatters : b.Scatters size) (i : Nat) :
    (putsAt i moments).filter (fun x =>
        (WorkerPool.membersOf w.history p bid).any fun member => x.1 == .item p member.1) =
      (WorkerPool.membersOf w.history p bid).flatMap fun member =>
        (putsAt i moments).filter (·.1 == .item p member.1) := by
  obtain ⟨size, waitable, honoured, -⟩ := parallel.fulfilled
  have writes : ∀ member ∈ WorkerPool.membersOf w.history p bid, ∀ x ∈ putsAt i moments,
      (x.1 == .item p member.1) = true → member.2.Writes i := by
    intro member hmember x hx own
    have mem : x.2 ∈ (writesOf member.2.programs).filter (·.1 == i) := by
      rw [← parallel.puts_of_member hmember]
      exact List.mem_map_of_mem (List.mem_filter.mpr ⟨hx, own⟩)
    have wrote := Job.writes_of_mem (List.mem_filter.mp mem).1
    rwa [(of_mem_putsAt hx).1] at wrote
  have apart : (WorkerPool.membersOf w.history p bid).Pairwise fun member other =>
      ∀ i, member.2.Writes i → ¬other.2.Writes i := by
    have := scatters.apart
    rwa [← parallel.ended.members_eq honoured parallel.issued, List.pairwise_map] at this
  refine filter_any_eq_flatMap fun member others suffix => ?_
  obtain ⟨hmember, hothers⟩ := List.forall_mem_cons.mp suffix.subset
  have alone := (List.pairwise_cons.mp (apart.sublist suffix.sublist)).1
  have never : ∀ x ∈ putsAt i moments, ∀ y ∈ putsAt i moments,
      (others.any fun other => x.1 == .item p other.1) = true →
        (y.1 == .item p member.1) = false := by
    intro x hx y hy some
    obtain ⟨other, hother, own⟩ := List.any_eq_true.mp some
    by_contra own'
    exact alone other hother i (writes member hmember y hy (by simpa using own'))
      (writes other (hothers other hother) x hx own)
  exact filter_or_of_pairwise (fun x hx => never x hx x hx)
    (List.pairwise_of_forall_mem_list fun x hx y hy => never x hx y hy)

/-- Into a cell that only the batch writes into, the members write first and then the finale. -/
theorem puts_divide {i : Nat}
    (alone : WrittenOnly i (fun _ o => w.AccountOf b p bid l o) moments) :
    putsAt i moments =
      (putsAt i moments).filter (fun x =>
        (WorkerPool.membersOf w.history p bid).any fun member => x.1 == .item p member.1) ++
      (putsAt i moments).filter (·.1 == (Issue.batch b).finaleOrigin p bid l) := by
  have last : (putsAt i moments).Pairwise fun x y =>
      (x.1 == (Issue.batch b).finaleOrigin p bid l) = true →
        ((WorkerPool.membersOf w.history p bid).any fun member => y.1 == .item p member.1) =
          false := by
    apply List.Pairwise.sublist List.filter_sublist
    rw [List.pairwise_filterMap]
    refine parallel.finale_last.imp fun {m m'} none x hx y hy own => ?_
    refine List.any_eq_false.mpr fun member hmember own' => ?_
    have act : m.act? = some (x.1, .write x.2.1 x.2.2) := Moment.of_put? hx
    have act' : m'.act? = some (y.1, .write y.2.1 y.2.2) := Moment.of_put? hy
    rw [eq_of_beq own] at act
    rw [eq_of_beq own'] at act'
    exact none _ act member.1 (List.mem_map_of_mem hmember) _ act'
  refine Eq.trans ?_ (filter_or_of_pairwise (fun x _ own => ?_) last)
  · refine (List.filter_eq_self.mpr fun x hx => ?_).symm
    obtain ⟨-, m, hm, act⟩ := of_mem_putsAt hx
    rw [Bool.or_eq_true_iff, List.any_eq_true, beq_iff_eq]
    rcases alone m hm x.1 x.2.2 act with ⟨id, hid, own⟩ | own
    · obtain ⟨member, hmember, rfl⟩ := List.mem_map.mp hid
      exact .inl ⟨member, hmember, beq_iff_eq.mpr own⟩
    · exact .inr own
  · refine List.any_eq_false.mpr fun member _ own' => ?_
    have same := (eq_of_beq own).symm.trans (eq_of_beq own')
    rw [Issue.finaleOrigin] at same
    split at same <;> cases same

/-- The writes into a cell that only the batch writes into are those of the batch, in order. -/
theorem writes_at {size : Nat} (scatters : b.Scatters size) {i : Nat}
    (alone : WrittenOnly i (fun _ o => w.AccountOf b p bid l o) moments) :
    (moments.filterMap (·.write?)).filter (·.1 == i) = (writesOf b.programs).filter (·.1 == i) := by
  obtain ⟨size, waitable, honoured, -⟩ := parallel.fulfilled
  have members : ((putsAt i moments).filter fun x =>
      (WorkerPool.membersOf w.history p bid).any fun member => x.1 == .item p member.1).map
        Prod.snd = (writesOf (b.members.flatMap Job.programs)).filter (·.1 == i) := by
    rw [parallel.puts_of_members scatters, List.map_flatMap,
      ← parallel.ended.members_eq honoured parallel.issued, List.flatMap_map, writesOf_flatMap,
      List.filter_flatMap]
    exact List.flatMap_congr fun member hmember => parallel.puts_of_member hmember i
  calc (moments.filterMap (·.write?)).filter (·.1 == i)
      = (putsAt i moments).map Prod.snd := (map_snd_putsAt i moments).symm
    _ = (writesOf (b.members.flatMap Job.programs)).filter (·.1 == i) ++
          (writesOf ((b.finale.map Job.programs).getD [])).filter (·.1 == i) := by
        rw [parallel.puts_divide alone, List.map_append, members, parallel.puts_of_finale]
    _ = (writesOf b.programs).filter (·.1 == i) := by
        rw [← List.filter_append, ← writesOf_append]
        rfl

/-- What is found in a cell that only the batch writes into, after its ticket has been waited for.
-/
theorem cell {size : Nat} (scatters : b.Scatters size) {i : Nat}
    (alone : WrittenOnly i (fun _ o => w.AccountOf b p bid l o) moments) :
    v.store.cells[i]? = (overwrite u.store.cells (writesOf b.programs))[i]? := by
  obtain ⟨got, ops, turn, -, -, -⟩ := parallel.awaited
  have idle := cells_of_turn parallel.ended.orderly turn
  rw [Moment.write?, act?_eq got ops] at idle
  calc v.store.cells[i]?
      = w.store.cells[i]? := congrArg (·[i]?) idle
    _ = (overwrite u.store.cells (moments.filterMap (·.write?)))[i]? := by
        rw [parallel.run.cells parallel.reachable]
    _ = (overwrite u.store.cells (writesOf b.programs))[i]? :=
        overwrite_congr rfl (parallel.writes_at scatters alone)

end Parallel

end World

end WorkerPool
