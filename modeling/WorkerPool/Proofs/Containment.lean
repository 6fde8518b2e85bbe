import WorkerPool.Proofs.Blame
import WorkerPool.Proofs.Callers
import WorkerPool.Proofs.Duties
import WorkerPool.Proofs.Flags
import WorkerPool.Proofs.Urgency

/-! Panics are contained. A panic of a function ends the job or the continuation that the function
is part of and nothing else. The worker that performs the job is still there afterwards and goes on
with its round: it tells the latch of the item, clears its flag and counts the item out of the
backlog. None of this can be held up by anybody, so when a world has come to rest every round in
which a job has panicked is whole. -/

namespace WorkerPool

variable {α : Type}

namespace Op

/-- What a worker has to do after the job of `item` has panicked, until the item is out of the
backlog. -/
inductive Reels (p i : Nat) (item : Item) : List (Op α) → Prop
  | caught (payload : Payload) : Reels p i item [.work p i (.running item (some payload))]
  | counting (l : Nat) :
      Reels p i item [.latch l (.count true) .nobody, .work p i (.finish item false)]
  | counted (l : Nat) :
      Reels p i item [.latch l .announce .nobody, .work p i (.finish item false)]
  | told : Reels p i item [.work p i (.finish item false)]
  | cleared : Reels p i item [.backlog p .leave, .work p i (.receive (.receive .arriving))]

/-- Nothing of it can be held up. -/
theorem Reels.goes {p i : Nat} {item : Item} {ops : List (Op α)} (reels : Reels p i item ops) :
    ∃ op rest, ops = op :: rest ∧ ¬op.Waits := by
  cases reels <;> refine ⟨_, _, rfl, ?_⟩ <;> rintro ⟨_, bell, sleeps⟩ <;> cases sleeps

/-- Nothing stands above a job that has panicked. -/
theorem Leads.caught {p i : Nat} {item : Item} {payload : Payload} {ops : List (Op α)}
    (stack : Leads (.worker p i) ops []) (hop : .work p i (.running item (some payload)) ∈ ops) :
    ops = [.work p i (.running item (some payload))] := by
  obtain ⟨above, rest, rfl⟩ := List.append_of_mem hop
  rw [leads_append, List.append_nil] at stack
  obtain rfl : rest = [] := by simpa using stack.2.1.alone
  rw [stack.1.front_eq_nil fun above before => by cases before.aboveLoop]
  rfl

/-- Nothing stands above a continuation that has panicked. -/
theorem Before.not_broken {who : Who} {above : Op α} {l : Nat} {job : Job} {rest : List (Op α)}
    (before : above.Before who (.latch l (.running job false) .nobody :: rest)) : False := by
  cases before with
  | code origin position current later after =>
      cases after with
      | caller back => cases back
  | count l failed after | latchAnnounce l failed after =>
      cases after with
      | called failed back => cases back
      | settled q behind => cases behind
  | running l job succeeded after =>
      generalize false = failed at after
      cases after with
      | called failed back => cases back
      | settled q behind => cases behind
  | terminate l back => cases back
  | waitTicket steps l stage id after => rcases after with h | ⟨q, h⟩ <;> cases h
  | waitRefused l stage sub told fits after | submit sub phase proper fits after => cases after
  | leave q after | backlogAnnounce q after =>
      cases after with
      | clearing behind => cases behind
  | shutDown q phase proper after => cases after
  | join q k waiting after | release q after =>
      cases after with
      | resumes back => cases back
  | hand ticket name after | answer given after =>
      rcases after with ⟨h, -⟩ | ⟨q, rest, h⟩ <;> cases h

/-- Above the end of a job that has gone well nothing can be held up but the continuation of the
latch of the item. -/
theorem Leads.goes_of_finish {p i l : Nat} {item : Item} {above : List (Op α)}
    (stack : Leads (.worker p i) (above ++ [.work p i (.finish item true)]) [])
    (told : item.latch = some l) (silent : ∀ job, .latch l (.running job true) .nobody ∉ above) :
    ∃ op rest, above ++ [.work p i (.finish item true)] = op :: rest ∧ ¬op.Waits := by
  rcases List.eq_nil_or_concat above with rfl | ⟨front, op, rfl⟩
  · exact ⟨_, _, rfl, by rintro ⟨_, bell, sleeps⟩; cases sleeps⟩
  rw [List.concat_eq_append] at stack silent ⊢
  rw [leads_append, leads_append] at stack
  suffices hfront : front = [] ∧ ¬op.Waits from ⟨op, _, by rw [hfront.1]; rfl, hfront.2⟩
  have habove := stack.1.2.1.aboveLoop
  cases habove with
  | counting l' | counted l' =>
      refine ⟨stack.1.1.front_eq_nil fun above before => before.not_accounts trivial, ?_⟩
      rintro ⟨_, bell, sleeps⟩
      cases sleeps
  | continuing l' job fine _ told' =>
      obtain rfl : l' = l := Option.some.inj (told'.symm.trans told)
      cases fine with
      | true => exact (silent job (by simp)).elim
      | false =>
          refine ⟨stack.1.1.front_eq_nil fun above before => before.not_broken, ?_⟩
          rintro ⟨_, bell, sleeps⟩
          cases sleeps

end Op

theorem Standing.item_of_ended {standing : Standing} {item : Item} {panic : Option Payload}
    (ended : .ended item panic ∈ standing.duties) : standing.item? = some item := by
  cases standing with
  | ended _ _ | cleared _ _ =>
      obtain ⟨rfl, -⟩ := by simpa [duties] using ended
      rfl
  | _ => simp [duties] at ended

/-- Where a round stands of which the job has panicked. -/
theorem Standing.Shows.reels {p i : Nat} {standing : Standing} {ops : List (Op α)}
    (shows : standing.Shows p i ops) {item : Item} {payload : Payload}
    (ended : .ended item (some payload) ∈ standing.duties) : Op.Reels p i item ops := by
  cases shows with
  | counting l | counted l | broken =>
      simp only [duties, List.mem_cons, reduceCtorEq, Duty.ended.injEq, List.not_mem_nil,
        or_false, false_or] at ended
      obtain ⟨rfl, -⟩ := ended
      constructor
  | cleared => exact .cleared
  | _ => simp [duties] at ended

/-- A round of which the job has gone well can be held up by nothing but the continuation of the
latch of its item. -/
theorem Standing.Shows.goes_of_sound {p i l : Nat} {standing : Standing} {ops : List (Op α)}
    (shows : standing.Shows p i ops) {item : Item} (ended : .ended item none ∈ standing.duties)
    (stack : Op.Leads (.worker p i) ops []) (told : item.latch = some l)
    (silent : ∀ job, .latch l (.running job true) .nobody ∉ ops) :
    ∃ op rest, ops = op :: rest ∧ ¬op.Waits := by
  have held := item_of_ended ended
  cases shows with
  | cleared => exact ⟨_, _, rfl, by rintro ⟨_, bell, sleeps⟩; cases sleeps⟩
  | ended above item' =>
      obtain rfl : item' = item := by cases held; rfl
      exact stack.goes_of_finish told fun job hop => silent job (List.mem_append_left _ hop)
  | counting | counted | broken => simp [duties] at ended
  | _ => cases held <;> simp [duties] at ended

/-- An item that a worker holds has only been taken. -/
theorem Standing.Shows.lots {p i : Nat} {item : Item} {ops : List (Op α)}
    (shows : (Standing.holding item).Shows p i ops) (who : Who) :
    ∃ op ∈ ops, op.lots p item.id who = {.taken i item} := by
  cases shows <;> exact ⟨_, List.mem_singleton_self _, if_pos ⟨rfl, rfl⟩⟩

/-- The operation that catches the panics of a job stands behind the job. -/
theorem Standing.Shows.parts {p i : Nat} {item : Item} {ops : List (Op α)}
    (shows : (Standing.performing item).Shows p i ops) (who : Who) :
    ∃ op ∈ ops, ∃ fine, .catcher who item.job.programs fine ∈ op.parts (.item p item.id) who := by
  cases shows with
  | performing above _ panic =>
      exact ⟨.work p i (.running item panic), by simp, panic.isNone, by simp [Op.parts]⟩

namespace World

variable {w v : World α} {index pick : Nat} {t : Thread α} {p i : Nat} {moments : List (Moment α)}

/-! ### What follows a panic -/

/-- A job that has panicked is with its worker until the worker has noted that. -/
theorem caught_of_broken {id : Nat} {who : Who} {done later : List Program} {program : Program}
    (stands : w.Stands (.item p id) (.broken who done program later)) :
    ∃ t ∈ w.threads, ∃ i item payload, t.who = who ∧ item.id = id ∧
      .work p i (.running item (some payload)) ∈ t.ops := by
  have hmem : .catcher who (done ++ program :: later) false ∈ w.parts (.item p id) := by
    rw [stands.left]
    exact Multiset.mem_singleton_self _
  obtain ⟨t, ht, op, hop, hpart⟩ := mem_load.mp hmem
  refine ⟨t, ht, ?_⟩
  unfold Op.parts at hpart
  split at hpart
  · split at hpart
    · cases Multiset.mem_singleton.mp hpart
    · exact absurd hpart (Multiset.notMem_zero _)
  · rename_i q i item panic
    split at hpart
    · rename_i same
      cases same
      obtain ⟨hwho, -, hpanic⟩ := by simpa using hpart
      cases panic with
      | none => cases hpanic
      | some payload => exact ⟨i, item, payload, hwho.symm, rfl, hop⟩
    · exact absurd hpart (Multiset.notMem_zero _)
  · split at hpart
    · rename_i same
      cases same
    · exact absurd hpart (Multiset.notMem_zero _)
  · split at hpart
    · rename_i same
      cases same
    · exact absurd hpart (Multiset.notMem_zero _)
  · exact absurd hpart (Multiset.notMem_zero _)

/-- A worker that stands in a round is there. -/
theorem Rounds.thread {rounds : List Round} {standing : Standing}
    (h : w.Rounds p i moments rounds standing) (busy : standing ≠ .free) :
    ∃ t ∈ w.threads, t.who = .worker p i ∧ standing.Shows p i t.ops := by
  obtain ⟨t, ht, who⟩ := exists_of_crew (Nat.pos_of_ne_zero fun none => busy (h.absent none))
  exact ⟨t, ht, who, h.shows t ht who⟩

/-- Whoever holds an item of which the job has been started and is over has noted how it ended. -/
theorem Rounds.ended_of_over {rounds : List Round} {standing : Standing} {item : Item}
    (h : w.Rounds p i moments rounds standing) (reachable : w.Reachable)
    (held : standing.item? = some item) {who : Who}
    (started : (who, .line (.jobStarted item.id)) ∈ w.course p item.id)
    (gone : w.parts (.item p item.id) = 0) : ∃ panic, .ended item panic ∈ standing.duties := by
  obtain ⟨t, ht, hwho, shows⟩ := h.thread (by rintro rfl; cases held)
  cases standing with
  | free => cases held
  | ended _ panic | cleared _ panic =>
      cases held
      exact ⟨panic, by simp [Standing.duties]⟩
  | holding =>
      cases held
      obtain ⟨op, hop, hlots⟩ := shows.lots t.who
      obtain ⟨_, _, -, hlot | hlot | hlot | hlot⟩ :=
        (reachable.course_of_op ht hop hlots).of_started started <;> cases hlot
  | performing =>
      cases held
      obtain ⟨op, hop, fine, hpart⟩ := shows.parts t.who
      have hmem := mem_load.mpr ⟨t, ht, op, hop, hpart⟩
      change _ ∈ w.parts (.item p item.id) at hmem
      rw [gone] at hmem
      exact absurd hmem (Multiset.notMem_zero _)

/-- An item whose job is spoilt has a round of the worker that has performed it, and in this round
the job has ended with a panic. -/
theorem Run.round_of_spoilt {cells : List Int} (run : (World.start cells).Run moments w) {id : Nat}
    {who : Who} {done later : List Program} {program : Program}
    (stands : w.Stands (.item p id) (.spoilt who done program later)) :
    ∃ i item rounds standing payload, who = .worker p i ∧ item.id = id ∧
      w.Rounds p i moments rounds standing ∧
      (⟨item, some payload⟩ ∈ rounds ∨ .ended item (some payload) ∈ standing.duties) := by
  have reachable : w.Reachable := run.reachable (.start cells)
  obtain ⟨who', started⟩ := stands.begun Performance.noConfusion
  obtain ⟨lot, course, -⟩ := reachable.course p id
  obtain ⟨i, item, rfl, hlot⟩ := course.of_started started
  obtain ⟨hitem, hworker⟩ : lot.item? = some item ∧ lot.worker? = some i := by
    rcases hlot with rfl | rfl | rfl | rfl <;> exact ⟨rfl, rfl⟩
  obtain rfl := course.id_eq hitem
  obtain ⟨rounds, standing, h⟩ := run.rounds p i
  have ended : ∀ {panic}, .ended item panic ∈ diary p i moments →
      who = .worker p i ∧ ∃ payload, panic = some payload := fun {panic} mem => by
    have verdict := run.ended mem
    cases panic with
    | none => exact absurd stands.raised (CompletedBy.not_raised verdict)
    | some payload => exact ⟨SpoiltBy.who_of_raised verdict stands.raised, payload, rfl⟩
  have taken : item ∈ rounds.map (·.item) ++ standing.item?.toList := by
    rw [← taken_rounds, ← h.diary, ← run.takenBy]
    exact mem_takenBy.mpr (List.mem_filter.mp (course.taken_mem hitem hworker)).1
  rcases List.mem_append.mp taken with mem | mem
  · obtain ⟨⟨_, panic⟩, hr, rfl⟩ := List.mem_map.mp mem
    obtain ⟨hwho, payload, rfl⟩ := ended (h.ended_mem hr)
    exact ⟨i, _, rounds, standing, payload, hwho, rfl, h, .inl hr⟩
  · have held : standing.item? = some item := Option.mem_toList.mp mem
    obtain ⟨panic, mem⟩ := h.ended_of_over reachable held started stands.left
    obtain ⟨hwho, payload, rfl⟩ := ended (h.diary ▸ List.mem_append_right _ mem)
    exact ⟨i, item, rounds, standing, payload, hwho, rfl, h, .inr mem⟩

/-- After a panic of its job an item has a round that is whole, or its worker is still settling it.
-/
theorem Run.after_panic {cells : List Int} (run : (World.start cells).Run moments w) {id k : Nat}
    {who : Who} (raised : (who, .raised (.item p id) k) ∈ w.history) :
    ∃ i item rounds standing, who = .worker p i ∧ item.id = id ∧
      w.Rounds p i moments rounds standing ∧
      ((∃ payload, ⟨item, some payload⟩ ∈ rounds) ∨
        ∃ t ∈ w.threads, t.who = .worker p i ∧ standing.item? = some item ∧
          Op.Reels p i item t.ops) := by
  have reachable : w.Reachable := run.reachable (.start cells)
  obtain ⟨state, stands⟩ := reachable.stands (o := .item p id) Origin.noConfusion
  obtain ⟨done, program, later, rfl | rfl⟩ := Performance.of_raised (stands.mem_account raised)
  · obtain ⟨t, ht, i, item, payload, rfl, rfl, hop⟩ := caught_of_broken stands
    obtain ⟨above, rest, -, before⟩ := (reachable.orderly.ordered t ht).before hop
    have hwho := before.self
    obtain ⟨rounds, standing, h⟩ := run.rounds p i
    have stack := reachable.orderly.ordered t ht
    rw [hwho] at stack
    have hops := stack.caught hop
    have shows : standing.Shows p i ([] ++ [.work p i (.running item (some payload))]) :=
      hops ▸ h.shows t ht hwho
    have held := shows.item_of_last item (List.mem_singleton_self _)
    exact ⟨i, item, rounds, standing, hwho, rfl, h,
      .inr ⟨t, ht, hwho, held, hops ▸ .caught payload⟩⟩
  · obtain ⟨i, item, rounds, standing, payload, hwho, hid, h, hr | mem⟩ :=
      run.round_of_spoilt stands
    · exact ⟨i, item, rounds, standing, hwho, hid, h, .inl ⟨payload, hr⟩⟩
    · obtain ⟨t, ht, who', shows⟩ := h.thread (by rintro rfl; cases mem)
      exact ⟨i, item, rounds, standing, hwho, hid, h,
        .inr ⟨t, ht, who', Standing.item_of_ended mem, shows.reels mem⟩⟩

/-! ### What the worker does afterwards -/

/-- The worker `i` has a whole round with `item`: it has told how the job ended, which was with a
panic if the job is `broken`, has cleared its flag and has counted the item out of the backlog. -/
def Whole (w : World α) (p i : Nat) (moments : List (Moment α)) (item : Item) (broken : Bool) :
    Prop :=
  ∃ rounds standing, w.Rounds p i moments rounds standing ∧
    ∃ panic : Option Payload, ⟨item, panic⟩ ∈ rounds ∧ panic.isSome = broken

/-- The round with `item` is whole, or the worker is in it and can go on, whatever the others do. -/
def Recovers (w : World α) (p i : Nat) (moments : List (Moment α)) (item : Item) (broken : Bool) :
    Prop :=
  w.Whole p i moments item broken ∨
    ∃ rounds standing, w.Rounds p i moments rounds standing ∧ standing.item? = some item ∧
      ∃ index t, w.threads[index]? = some t ∧ t.who = .worker p i ∧
        ∀ pick, (w.turn index pick).isSome = true

/-- Where no thread can take a turn the round is whole. -/
theorem Recovers.whole {item : Item} {broken : Bool}
    (recovers : w.Recovers p i moments item broken) (quiet : w.Quiescent) :
    w.Whole p i moments item broken := by
  rcases recovers with whole | ⟨rounds, standing, -, -, index, t, -, -, goes⟩
  · exact whole
  · simpa [quiet index 0] using goes 0

theorem Rounds.recovers {rounds : List Round} {standing : Standing} {item : Item} {broken : Bool}
    (h : w.Rounds p i moments rounds standing) (reachable : w.Reachable)
    (held : standing.item? = some item) (ht : t ∈ w.threads) (who : t.who = .worker p i)
    {op : Op α} {rest : List (Op α)} (ops : t.ops = op :: rest) (goes : ¬op.Waits) :
    w.Recovers p i moments item broken := by
  obtain ⟨index, got⟩ := List.mem_iff_getElem?.mp ht
  exact .inr ⟨rounds, standing, h, held, index, t, got, who, reachable.isSome_turn got ops goes⟩

theorem Run.recovers_of_job {cells : List Int} (run : (World.start cells).Run moments w)
    {id k : Nat} {who : Who} (raised : (who, .raised (.item p id) k) ∈ w.history) :
    ∃ i item, who = .worker p i ∧ item.id = id ∧ w.Recovers p i moments item true := by
  obtain ⟨i, item, rounds, standing, hwho, hid, h, ⟨payload, hr⟩ | ⟨t, ht, who', held, reels⟩⟩ :=
    run.after_panic raised
  · exact ⟨i, item, hwho, hid, .inl ⟨rounds, standing, h, some payload, hr, rfl⟩⟩
  · obtain ⟨op, rest, ops, goes⟩ := reels.goes
    exact ⟨i, item, hwho, hid, h.recovers (run.reachable (.start cells)) held ht who' ops goes⟩

/-- A continuation that has panicked is not being performed any more. -/
theorem Reachable.silent_of_raised (h : w.Reachable) {l k : Nat} {who : Who}
    (raised : (who, .raised (.latch l) k) ∈ w.history) (ht : t ∈ w.threads) (job : Job) :
    .latch l (.running job true) .nobody ∉ t.ops := by
  intro hop
  obtain ⟨state, stands⟩ := h.stands (o := .latch l) Origin.noConfusion
  have hpart : .catcher t.who job.programs true ∈ w.parts (.latch l) :=
    mem_load.mpr ⟨t, ht, _, hop, by simp [Op.parts]⟩
  rw [stands.left] at hpart
  obtain ⟨done, program, later, rfl | rfl⟩ := Performance.of_raised (stands.mem_account raised) <;>
    simp [Performance.parts] at hpart

theorem Run.recovers_of_finale {cells : List Int} (run : (World.start cells).Run moments w)
    {l k : Nat} {who : Who} (raised : (who, .raised (.latch l) k) ∈ w.history)
    (told : ¬Untold w.history l) :
    ∃ p i item, who = .worker p i ∧ item.latch = some l ∧ item.Known w.history p ∧
      w.Recovers p i moments item false := by
  have reachable : w.Reachable := run.reachable (.start cells)
  obtain ⟨p, i, item, hwho, hlatch, known, mem⟩ := run.host raised (by simp [Entry.calls]) told
  obtain ⟨rounds, standing, h⟩ := run.rounds p i
  refine ⟨p, i, item, hwho, hlatch, known, ?_⟩
  rw [h.diary, List.mem_append, List.mem_flatMap] at mem
  rcases mem with ⟨⟨_, panic⟩, hr, mem⟩ | mem
  · obtain ⟨rfl, rfl⟩ : item = _ ∧ none = panic := by simpa [Round.duties] using mem
    exact .inl ⟨rounds, standing, h, none, hr, rfl⟩
  · obtain ⟨t, ht, who', shows⟩ := h.thread (by rintro rfl; cases mem)
    have stack := reachable.orderly.ordered t ht
    rw [who'] at stack
    obtain ⟨op, rest, ops, goes⟩ := shows.goes_of_sound mem stack hlatch
      (reachable.silent_of_raised raised ht)
    exact h.recovers reachable (Standing.item_of_ended mem) ht who' ops goes

/-- What panics leave alone in the pool at `p`, at the end of a run with the turns `moments`. -/
structure Contained (w : World α) (moments : List (Moment α)) (p : Nat) (pool : Pool) : Prop where
  crew : w.Made p → ∀ i < pool.threads, ∃! index : Nat, ∃ t,
    w.threads[index]? = some t ∧ t.who = .worker p i
  alive : pool.isDown = false → ∀ t ∈ w.threads, ∀ i, t.who = .worker p i →
    t.ops ≠ [] ∧ ∃ standing : Standing, standing.Shows p i t.ops
  resting : pool.isDown = false → w.Quiescent → ∀ t ∈ w.threads, ∀ i, t.who = .worker p i →
    t.ops = [.work p i (.receive (.receive .asleep))] ∨
      t.ops.any Op.inside = true ∧
        ∃ (standing : Standing) (item : Item), standing.Shows p i t.ops ∧ standing.item? = some item
  /-- What a worker does is a row of rounds, and no item is in two of them. -/
  rounds : ∀ i, ∃ rounds standing, w.Rounds p i moments rounds standing ∧
    ((rounds.map (·.item) ++ standing.item?.toList).map (·.id)).Nodup
  duties : ∀ m ∈ moments, ∀ i duty, m.duty? p i = some duty →
    ∀ pick v, m.world.turn m.index pick = some v → m.world.Done v p i duty
  jobs : ∀ who id k, (who, .raised (.item p id) k) ∈ w.history →
    ∃ i item, who = .worker p i ∧ item.id = id ∧ w.Recovers p i moments item true
  finales : ∀ who ticket l k, Recorded w.history (.ticketed p ticket) → ticket.latch = some l →
    (who, .raised (.latch l) k) ∈ w.history →
      ∃ i item, who = .worker p i ∧ item.Part w.history p ticket ∧
        w.Recovers p i moments item false
  /-- A latch fails on account of its own items or its own continuation. -/
  blame : ∀ m ∈ moments, ∀ t pick v, m.world.threads[m.index]? = some t →
    m.world.turn m.index pick = some v → ∀ l latch, v.store.latches[l]? = some latch →
      latch.value.failed = true →
        (∀ latch, m.world.store.latches[l]? = some latch → latch.value.failed = false) →
          m.world.Blame v t.who l t.ops

/-- No item is in two rounds of a worker. -/
theorem Run.nodup_rounds {cells : List Int} (run : (World.start cells).Run moments w)
    {rounds : List Round} {standing : Standing} {i : Nat}
    (h : w.Rounds p i moments rounds standing) :
    ((rounds.map (·.item) ++ standing.item?.toList).map (·.id)).Nodup := by
  have succession := (run.reachable (.start cells)).succession p
  have nodup := succession.nodup
  rw [succession.order, List.append_assoc, List.map_append, List.map_map] at nodup
  rw [← taken_rounds, ← h.diary, ← run.takenBy, World.takenBy, List.map_map]
  exact ((List.nodup_append.mp nodup).1).sublist (List.filter_sublist.map _)

/-- However the functions of a run panic, the workers of a pool that is up are all there, an item
whose job or whose continuation has panicked is settled as any other, and no latch fails on account
of an item that does not belong to it. -/
theorem Run.panics_contained {cells : List Int} (run : (World.start cells).Run moments w)
    {pool : Pool} (found : w.store.pools[p]? = some pool) : w.Contained moments p pool := by
  have reachable : w.Reachable := run.reachable (.start cells)
  have up (h : pool.isDown = false) : ¬w.store.IsDown p := by
    rintro ⟨pool', found', down⟩
    obtain rfl := Option.some.inj (found.symm.trans found')
    rw [h] at down
    cases down
  have early : ∀ m ∈ moments, m.world.Reachable := fun m hm => by
    obtain ⟨before, after, v, pick, rfl, run', -⟩ := run.of_mem hm
    exact run'.reachable (.start cells)
  constructor
  case crew =>
    intro made i within
    obtain ⟨index, t, got, who⟩ := made.worker reachable found within
    exact ⟨index, ⟨t, got, who⟩, fun index' ⟨t', got', who'⟩ =>
      reachable.worker_unique got' got who' who⟩
  case alive =>
    intro isUp t ht i who
    exact ⟨fun ended => up isUp (reachable.closed.ended t ht p i who ended), reachable.shows ht who⟩
  case resting =>
    intro isUp quiet t ht i who
    rcases quiet.worker_cases reachable ht who with ⟨-, down⟩ | ⟨ops, -⟩ | inside
    · exact (up isUp down).elim
    · exact .inl ops
    · obtain ⟨standing, shows⟩ := reachable.shows ht who
      have engaged := shows.engaged_of_inside inside
      cases standing with
      | performing item | ended item panic => exact .inr ⟨inside, _, item, shows, rfl⟩
      | _ => exact engaged.elim
  case rounds =>
    intro i
    obtain ⟨rounds, standing, h⟩ := run.rounds p i
    exact ⟨rounds, standing, h, run.nodup_rounds h⟩
  case duties =>
    intro m hm i duty due pick v turn
    exact (early m hm).done turn due
  case jobs => exact fun who id k raised => run.recovers_of_job raised
  case finales =>
    intro who ticket l k recorded told raised
    obtain ⟨q, i, item, rfl, hlatch, ⟨ticket', recorded', part⟩, recovers⟩ :=
      run.recovers_of_finale raised (Op.not_untold recorded told)
    obtain ⟨rfl, rfl⟩ := reachable.ticket_eq recorded recorded' told (part.latch ▸ hlatch)
    exact ⟨i, item, rfl, part, recovers⟩
  case blame =>
    intro m hm t pick v got turn l latch found failed sound
    exact (early m hm).blame turn got found failed sound

/-- A pool with one worker. The function of a job panics, and so does the continuation of a batch. -/
def rough : List (Command Unit) :=
  [.newPool "p" (.given { capacity := 2, threads := some 1, name := "p" }),
    .newBatch "b" 1 true,
    .onBatch "b" (.add (.link [] true)),
    .onBatch "b" (.setFinale (.link [.panic (.text "no")] true) false),
    .onPool "p" (.submit (.link [.panic (.text "no")] true) none .holding),
    .onPool "p" (.submitBatch "b" none)]

theorem panics_contained_of_rough :
    ∃ pool, (follow 60 rough (.start [])).store.pools[0]? = some pool ∧
      (follow 60 rough (.start [])).Contained (following 60 rough (.start [])) 0 pool ∧
      (follow 60 rough (.start [])).Quiescent ∧
      (.worker 0 0, .raised (.item 0 1) 0) ∈ (follow 60 rough (.start [])).history ∧
      (.worker 0 0, .raised (.latch 2) 0) ∈ (follow 60 rough (.start [])).history := by
  have there : (follow 60 rough (.start [])).store.pools[0]?.isSome = true := by decide
  obtain ⟨pool, found⟩ := Option.isSome_iff_exists.mp there
  exact ⟨pool, found, (run_following 60 rough (.start [])).panics_contained found, by decide,
    List.mem_of_getElem? (i := 16) rfl, List.mem_of_getElem? (i := 2) rfl⟩

end World

end WorkerPool
