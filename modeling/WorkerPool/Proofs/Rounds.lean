import WorkerPool.Proofs.Moments
import WorkerPool.Proofs.Standing

/-! The rounds of a worker. A worker makes one round for each item: it takes the item, begins it,
ends it with a panic or without, clears its flag and counts the item out of the backlog. The diary
of a worker is what it does of this in a run. However the run goes and whatever the functions do,
the diary is a row of whole rounds and the beginning of one more; and where that beginning breaks
off is where the worker stands. -/

namespace WorkerPool

variable {α : Type}

/-- One thing that a worker does for an item. -/
inductive Duty
  | took (item : Item)
  | began (item : Item)
  | ended (item : Item) (panic : Option Payload)
  | cleared (item : Item)
  | left

/-- A round from the taking of an item on, with the panic that has ended its job, if any. -/
structure Round where
  item : Item
  panic : Option Payload

def Round.duties (r : Round) : List Duty :=
  [.took r.item, .began r.item, .ended r.item r.panic, .cleared r.item, .left]

/-- What has been done of the round that a worker stands in. -/
def Standing.duties : Standing → List Duty
  | .free => []
  | .holding item => [.took item]
  | .performing item => [.took item, .began item]
  | .ended item panic => [.took item, .began item, .ended item panic]
  | .cleared item panic => [.took item, .began item, .ended item panic, .cleared item]

/-- What a worker does in a turn, and where it stands afterwards. -/
inductive Standing.Goes : Standing → Option Duty → Standing → Prop
  | stays (standing : Standing) : Goes standing none standing
  | took (item : Item) : Goes .free (some (.took item)) (.holding item)
  | began (item : Item) : Goes (.holding item) (some (.began item)) (.performing item)
  | ended (item : Item) (panic : Option Payload) :
      Goes (.performing item) (some (.ended item panic)) (.ended item panic)
  | cleared (item : Item) (panic : Option Payload) :
      Goes (.ended item panic) (some (.cleared item)) (.cleared item panic)
  | left (item : Item) (panic : Option Payload) :
      Goes (.cleared item panic) (some .left) .free

/-- The item that the next worker takes: the oldest one, as long as the pool is up. -/
def Store.next? (s : Store α) (p : Nat) : Option Item :=
  s.pools[p]?.bind fun pool => if pool.isDown then none else pool.intake.value.toList.head?

/-- What a worker with this stack does for an item in its next turn. -/
def Store.duty? (s : Store α) : List (Op α) → Option Duty
  | [.work p _ (.receive (.receive _))] => (s.next? p).map .took
  | [.work _ _ (.begin item)] => some (.began item)
  | [.work _ _ (.running item panic)] => some (.ended item panic)
  | [.work _ _ (.finish item _)] => some (.cleared item)
  | [.backlog _ .leave, .work _ _ (.receive _)] => some .left
  | _ => none

/-- What the worker `i` of the pool at `p` does for an item in a moment. -/
def Moment.duty? (p i : Nat) (m : Moment α) : Option Duty :=
  m.world.threads[m.index]?.bind fun t =>
    if t.who = .worker p i then m.world.store.duty? t.ops else none

/-- What the worker does for its items in a run. -/
def diary (p i : Nat) (moments : List (Moment α)) : List Duty :=
  moments.filterMap (Moment.duty? p i)

theorem Standing.Shows.wake {p i : Nat} {standing : Standing} {ops : List (Op α)}
    (shows : standing.Shows p i ops) : standing.Shows p i (ops.modifyHead Op.wake) := by
  cases shows with
  | stopped => exact .stopped
  | starting => exact .starting
  | reporting l => exact .reporting l
  | reported l => exact .reported l
  | receiving stage => exact .receiving stage.wake
  | announcing => exact .announcing
  | taken item => exact .taken item
  | received item => exact .received item
  | performing above item panic =>
      cases above with
      | nil => exact .performing [] item panic
      | cons op above => exact .performing (op.wake :: above) item panic
  | ended above item =>
      cases above with
      | nil => exact .ended [] item
      | cons op above => exact .ended (op.wake :: above) item
  | counting l item payload told => exact .counting l item payload told
  | counted l item payload => exact .counted l item payload
  | broken item payload => exact .broken item payload
  | cleared item panic => exact .cleared item panic

/-- What stands above a job in the hands of a worker is none of its own duties. -/
theorem Store.duty?_of_above {s : Store α} {p i : Nat} {op : Op α} {above : List (Op α)}
    {phase : WorkerPhase} (busy : ∀ call, phase ≠ .receive call) :
    s.duty? (op :: (above ++ [.work p i phase])) = none := by
  unfold Store.duty?
  split
  case h_5 heq =>
      obtain ⟨-, heq⟩ := List.cons.inj heq
      cases above with
      | nil =>
          simp only [List.nil_append, List.cons.injEq, Op.work.injEq, and_true] at heq
          exact absurd heq.2.2 (busy _)
      | cons => simp at heq
  case h_6 => rfl
  all_goals
    rename_i heq
    simp at heq

section Deeds

variable {around : Around} {s : Store α} {who : Who} {op : Op α} {e : Effect α} {p i : Nat}
  {rest : List (Op α)}

/-- The turn of a worker that has no item in its hands. A latch on which workers report has no
continuation. -/
theorem Deed.goes_of_free (deed : Deed around s who op e) (rings : s.RingsValid)
    (bare : ∀ l latch, op = .latch l (.count false) .nobody → s.latches[l]? = some latch →
      latch.value.continuation = none)
    (shows : Standing.free.Shows p i (op :: rest)) :
    ∃ standing : Standing, standing.Shows p i (e.ops ++ rest) ∧
      Standing.free.Goes (s.duty? (op :: rest)) standing := by
  cases shows with
  | starting =>
      cases deed with
      | jobAdded submits | freeJobAdded submits => cases submits
      | workStarted => exact ⟨.free, .reporting _, .stays _⟩
  | reporting l =>
      cases deed with
      | jobAdded submits | freeJobAdded submits => cases submits
      | countIgnored => exact ⟨.free, .receiving _, .stays _⟩
      | countSkipped _ latch _ job found _ _ held | countStarted _ latch job found _ _ held =>
          simp [bare l latch rfl found] at held
      | counted =>
          refine ⟨.free, ?_, .stays _⟩
          dsimp only
          split
          · exact .reported l
          · exact .receiving _
  | reported l =>
      cases deed with
      | jobAdded submits | freeJobAdded submits => cases submits
      | latchAnnounced => exact ⟨.free, .receiving _, .stays _⟩
  | receiving stage =>
      have hduty : ∀ (item? : Option Item) {standing : Standing}, s.next? p = item? →
          Standing.free.Goes (item?.map .took) standing →
          Standing.free.Goes (s.duty? [.work p i (.receive (.receive stage))]) standing :=
        fun item? _ hnext goes => by
          rw [Store.duty?, hnext]
          exact goes
      cases deed with
      | jobAdded submits | freeJobAdded submits => cases submits
      | receiveSlept _ _ pool _ found awake up empty =>
          have hring := (rings p pool found).isEmpty_iff.mp empty
          exact ⟨.free, .receiving _, hduty none (by simp [Store.next?, found, hring])
            (.stays _)⟩
      | taken _ _ pool _ item ring found awake up valid first =>
          exact ⟨.holding item, .taken item, hduty (some item)
            (by simp [Store.next?, found, up, first]) (.took item)⟩
      | workerStopped _ _ pool _ found awake down =>
          exact ⟨.free, .stopped, hduty none (by simp [Store.next?, found, down])
            (.stays _)⟩
  | announcing =>
      cases deed with
      | jobAdded submits | freeJobAdded submits => cases submits
      | backlogAnnounced => exact ⟨.free, .receiving _, .stays _⟩

/-- The turn of a worker that has an item in its hands, or of something that the worker does while
it performs the item. -/
theorem Deed.goes_of_item (deed : Deed around s who op e) {standing : Standing}
    (busy : standing ≠ .free) (shows : standing.Shows p i (op :: rest)) :
    ∃ standing' : Standing, standing'.Shows p i (e.ops ++ rest) ∧
      standing.Goes (s.duty? (op :: rest)) standing' := by
  generalize hops : op :: rest = ops at shows
  cases shows with
  | stopped | starting | reporting | reported | receiving | announcing => exact absurd rfl busy
  | taken item =>
      obtain ⟨rfl, rfl⟩ := List.cons.inj hops
      cases deed with
      | jobAdded submits | freeJobAdded submits => cases submits
      | receiveAnnounced => exact ⟨.holding item, .received item, .stays _⟩
  | received item =>
      obtain ⟨rfl, rfl⟩ := List.cons.inj hops
      cases deed with
      | jobAdded submits | freeJobAdded submits => cases submits
      | jobStarted => exact ⟨.performing item, .performing [_] item none, .began item⟩
  | performing above item panic =>
      cases above with
      | cons op' above =>
          obtain ⟨rfl, rfl⟩ := List.cons.inj hops
          rw [List.append_eq, List.cons_append, Store.duty?_of_above (by simp), ← List.append_assoc]
          exact ⟨.performing item, .performing _ item panic, .stays _⟩
      | nil =>
          obtain ⟨rfl, rfl⟩ := List.cons.inj hops
          cases deed with
          | jobAdded submits | freeJobAdded submits => cases submits
          | jobRan =>
              rw [List.append_nil]
              exact ⟨.ended item none, .ended _ item, .ended item none⟩
          | jobBroke _ _ pool _ payload =>
              refine ⟨.ended item (some payload), ?_, .ended item _⟩
              rw [List.append_nil]
              cases hl : item.latch with
              | none => exact .broken item payload
              | some l => exact .counting l item payload hl
  | ended above item =>
      cases above with
      | cons op' above =>
          obtain ⟨rfl, rfl⟩ := List.cons.inj hops
          rw [List.append_eq, List.cons_append, Store.duty?_of_above (by simp), ← List.append_assoc]
          exact ⟨.ended item none, .ended _ item, .stays _⟩
      | nil =>
          obtain ⟨rfl, rfl⟩ := List.cons.inj hops
          cases deed with
          | jobAdded submits | freeJobAdded submits => cases submits
          | jobFinished => exact ⟨.cleared item none, .cleared item none, .cleared item none⟩
  | counting l item payload told =>
      obtain ⟨rfl, rfl⟩ := List.cons.inj hops
      cases deed with
      | jobAdded submits | freeJobAdded submits => cases submits
      | countIgnored => exact ⟨.ended item (some payload), .broken item payload, .stays _⟩
      | countSkipped => exact ⟨.ended item (some payload), .counted l item payload, .stays _⟩
      | counted =>
          refine ⟨.ended item (some payload), ?_, .stays _⟩
          dsimp only
          split
          · exact .counted l item payload
          · exact .broken item payload
  | counted l item payload =>
      obtain ⟨rfl, rfl⟩ := List.cons.inj hops
      cases deed with
      | jobAdded submits | freeJobAdded submits => cases submits
      | latchAnnounced => exact ⟨.ended item (some payload), .broken item payload, .stays _⟩
  | broken item payload =>
      obtain ⟨rfl, rfl⟩ := List.cons.inj hops
      cases deed with
      | jobAdded submits | freeJobAdded submits => cases submits
      | jobFinished =>
          exact ⟨.cleared item (some payload), .cleared item _, .cleared item (some payload)⟩
  | cleared item panic =>
      obtain ⟨rfl, rfl⟩ := List.cons.inj hops
      cases deed with
      | jobAdded submits | freeJobAdded submits => cases submits
      | left =>
          refine ⟨.free, ?_, .left item panic⟩
          dsimp only
          split
          · exact .announcing
          · exact .receiving _

end Deeds

namespace World

variable {w v : World α} {index pick : Nat} {t : Thread α} {p i : Nat}

/-- The operation at the bottom of a stack stays there when others take their turns above it. Only
the panic of a function reaches the operation that performs it. -/
theorem Took.bottom {old tail : List (Op α)} {e : Effect α} (took : w.Took v index t old tail e)
    {front : List (Op α)} {phase : WorkerPhase} (ops : t.ops = front ++ [.work p i phase]) :
    (front = [] ∧ old = [.work p i phase]) ∨
      (∃ front', e.ops ++ tail = front' ++ [.work p i phase]) ∨
      ∃ item payload, phase = .running item none ∧
        e.ops ++ tail = [.work p i (.running item (some payload))] := by
  have hops := took.ops.symm.trans ops
  rcases List.eq_nil_or_concat tail with rfl | ⟨tail', last, rfl⟩
  · rw [List.append_nil] at hops
    cases took.act with
    | deed deed quiet =>
        have hlength := congrArg List.length hops
        obtain rfl : front = [] := by
          rw [← List.length_eq_zero_iff]
          simpa using hlength
        exact .inl ⟨rfl, hops⟩
    | broke payload loose lands uncaught =>
        have hlast := congrArg List.getLast? hops
        rw [List.getLast?_concat] at hlast
        cases lands with
        | nowhere =>
            rw [List.append_nil] at hlast
            exact (loose _ (List.mem_of_getLast? hlast)).elim
        | item position current later q j item =>
            simp at hlast
            obtain ⟨rfl, rfl, rfl⟩ := hlast
            exact .inr (.inr ⟨item, payload, rfl, by simp⟩)
        | finale | batch | latchMade => simp at hlast
  · rw [List.concat_eq_append, ← List.append_assoc] at hops ⊢
    obtain ⟨-, hlast⟩ := List.append_inj' hops rfl
    exact .inr (.inl ⟨e.ops ++ tail', by rw [← hlast, List.append_assoc]⟩)

theorem Took.shows {old tail : List (Op α)} {e : Effect α} (took : w.Took v index t old tail e)
    {standing : Standing} (shows : standing.Shows p i (e.ops ++ tail)) :
    ∃ t', v.threads[index]? = some t' ∧ standing.Shows p i t'.ops := by
  obtain ⟨t', got', -, ⟨other, -⟩ | ⟨-, hops | hops⟩⟩ := took.stays took.got
  · exact absurd rfl other
  · exact ⟨t', got', hops ▸ shows⟩
  · exact ⟨t', got', hops ▸ shows.wake⟩

/-- A panic in the hands of a worker stays within the job that the worker performs, or within the
continuation that it performs after the job. -/
theorem Took.goes_of_raises {old tail : List (Op α)} {e : Effect α}
    (took : w.Took v index t old tail e) {op : Op α} {rest : List (Op α)}
    (ops : t.ops = op :: rest) (raises : op.Raises) {standing : Standing}
    (shows : standing.Shows p i (op :: rest)) :
    ∃ standing' : Standing, standing'.Shows p i (e.ops ++ tail) ∧
      standing.Goes (w.store.duty? (op :: rest)) standing' := by
  rw [← ops] at shows
  generalize hops : t.ops = stack at shows
  cases shows with
  | performing above item panic =>
      cases above with
      | nil =>
          obtain ⟨rfl, rfl⟩ := List.cons.inj (ops.symm.trans hops)
          cases raises
      | cons op' above =>
          obtain ⟨rfl, rfl⟩ := List.cons.inj (ops.symm.trans hops)
          rw [List.append_eq, Store.duty?_of_above (by simp)]
          obtain ⟨hfront, -⟩ | ⟨front, hfront⟩ | ⟨_, payload, hphase, hbroke⟩ :=
            took.bottom (show t.ops = (op :: above) ++ [.work p i (.running item panic)] from hops)
          · cases hfront
          · exact ⟨_, hfront ▸ .performing front item panic, .stays _⟩
          · cases hphase
            exact ⟨_, hbroke ▸ .performing [] item (some payload), .stays _⟩
  | ended above item =>
      cases above with
      | nil =>
          obtain ⟨rfl, rfl⟩ := List.cons.inj (ops.symm.trans hops)
          cases raises
      | cons op' above =>
          obtain ⟨rfl, rfl⟩ := List.cons.inj (ops.symm.trans hops)
          rw [List.append_eq, Store.duty?_of_above (by simp)]
          obtain ⟨hfront, -⟩ | ⟨front, hfront⟩ | ⟨_, payload, hphase, -⟩ :=
            took.bottom (show t.ops = (op :: above) ++ [.work p i (.finish item true)] from hops)
          · cases hfront
          · exact ⟨_, hfront ▸ .ended front item, .stays _⟩
          · cases hphase
  | stopped => cases ops.symm.trans hops
  | _ =>
      obtain ⟨rfl, -⟩ := List.cons.inj (ops.symm.trans hops)
      cases raises

/-- What the turn of a worker is for the round that it stands in. -/
theorem Reachable.goes (h : w.Reachable) (turn : w.turn index pick = some v)
    (got : w.threads[index]? = some t) {standing : Standing} (shows : standing.Shows p i t.ops) :
    ∃ standing' t', v.threads[index]? = some t' ∧ standing'.Shows p i t'.ops ∧
      standing.Goes (w.store.duty? t.ops) standing' := by
  cases hops : t.ops with
  | nil => simp [World.turn, got, hops] at turn
  | cons op rest =>
      rw [hops] at shows
      have hgoes : ∃ old tail e, w.Took v index t old tail e ∧ ∃ standing' : Standing,
          standing'.Shows p i (e.ops ++ tail) ∧
            standing.Goes (w.store.duty? (op :: rest)) standing' := by
        by_cases raises : op.Raises
        · obtain ⟨t', old, tail, e, took⟩ := took_of_turn h.orderly turn
          obtain rfl := Option.some.inj (got.symm.trans took.got)
          exact ⟨old, tail, e, took, took.goes_of_raises hops raises shows⟩
        · obtain ⟨e, took, deed⟩ := took_of_turn_of_firm h.orderly got hops raises turn
          refine ⟨[op], rest, e, took, ?_⟩
          by_cases free : standing = .free
          · subst free
            refine deed.goes_of_free h.orderly.rings ?_ shows
            rintro l latch rfl found
            -- only a report has a count above the loop, and it is made on the latch of the pool
            cases shows with
            | reporting =>
                obtain ⟨pool, hpool, rfl⟩ := (hops ▸ h.dutiful.ops t (List.mem_of_getElem? got)).1
                exact h.dutiful.bare p pool latch hpool found
          · exact deed.goes_of_item free shows
      obtain ⟨old, tail, e, took, standing', shows', goes⟩ := hgoes
      obtain ⟨t', got', shows'⟩ := took.shows shows'
      exact ⟨standing', t', got', shows', goes⟩

/-- What a worker does in a turn is the next entry of its diary, and no other turn is one. -/
theorem duty?_eq (got : w.threads[index]? = some t) (p i : Nat) :
    (Moment.mk w index).duty? p i =
      if t.who = .worker p i then w.store.duty? t.ops else none := by
  simp [Moment.duty?, got]

theorem of_duty? {duty : Duty} (h : (Moment.mk w index).duty? p i = some duty) :
    ∃ t, w.threads[index]? = some t ∧ t.who = .worker p i ∧ w.store.duty? t.ops = some duty := by
  obtain ⟨t, got, h⟩ := Option.bind_eq_some_iff.mp h
  split at h
  · exact ⟨t, got, ‹_›, h⟩
  · cases h

end World

/-- A round that is gone on with is the same round, and whole when the worker is free again. -/
theorem Standing.Goes.duties {standing standing' : Standing} {duty : Option Duty}
    (goes : standing.Goes duty standing') :
    ∃ rounds : List Round, standing.duties ++ duty.toList =
      rounds.flatMap Round.duties ++ standing'.duties := by
  cases goes with
  | stays => exact ⟨[], by simp⟩
  | left item panic => exact ⟨[⟨item, panic⟩], rfl⟩
  | _ => exact ⟨[], rfl⟩

namespace World

/-- What a worker has done in a run is `rounds` and what belongs to its `standing`. -/
structure Rounds (w : World α) (p i : Nat) (moments : List (Moment α)) (rounds : List Round)
    (standing : Standing) : Prop where
  diary : diary p i moments = rounds.flatMap Round.duties ++ standing.duties
  shows : ∀ t ∈ w.threads, t.who = .worker p i → standing.Shows p i t.ops
  absent : w.crew p i = 0 → standing = .free

variable {w v : World α} {index pick : Nat} {t : Thread α} {p i : Nat}
  {moments : List (Moment α)}

/-- The turn of somebody else leaves a worker where it stands. -/
theorem Rounds.other {rounds : List Round} {standing : Standing}
    (h : w.Rounds p i moments rounds standing) (reachable : w.Reachable)
    {old tail : List (Op α)} {e : Effect α} (took : w.Took v index t old tail e)
    (other : t.who ≠ .worker p i) : v.Rounds p i (moments ++ [⟨w, index⟩]) rounds standing := by
  refine ⟨?_, ?_, fun absent => h.absent ?_⟩
  · rw [WorkerPool.diary, filterMap_concat, duty?_eq took.got, if_neg other, Option.toList_none,
      List.append_nil]
    exact h.diary
  · refine took.forall_threads (P := fun who ops => who = .worker p i → standing.Shows p i ops)
      (fun who op ops shows hwho => (shows hwho).wake) h.shows (fun hwho => absurd hwho other) ?_
    intro u hu hwho
    have hbirth : 0 < e.recruits p i := by
      obtain ⟨r, hsum⟩ := sum_map_of_mem
        (fun u : Thread α => if u.who = .worker p i then 1 else 0) hu
      rw [Effect.recruits, hsum, if_pos hwho]
      omega
    have hsingle := (took.manned reachable.known reachable.manned).single p i
    rw [took.crew] at hsingle
    obtain ⟨q, j, name, rfl, -⟩ := took.birth hu
    cases hwho
    rw [h.absent (by omega)]
    exact .starting
  · have := took.crew p i
    omega

/-- A worker goes on with its round. -/
theorem Rounds.turn {rounds : List Round} {standing : Standing}
    (h : w.Rounds p i moments rounds standing) (reachable : w.Reachable)
    (turn : w.turn index pick = some v) (got : w.threads[index]? = some t)
    (who : t.who = .worker p i) : ∃ rounds' standing',
      standing.Goes (w.store.duty? t.ops) standing' ∧
        v.Rounds p i (moments ++ [⟨w, index⟩]) (rounds ++ rounds') standing' := by
  obtain ⟨standing', t', got', shows', goes⟩ :=
    reachable.goes turn got (h.shows t (List.mem_of_getElem? got) who)
  obtain ⟨rounds', hduties⟩ := goes.duties
  have reachable' : v.Reachable := .next reachable (.turn index pick turn)
  obtain ⟨t₀, old, tail, e, took⟩ := took_of_turn reachable.orderly turn
  obtain rfl := Option.some.inj (got.symm.trans took.got)
  have who' : t'.who = .worker p i := by
    obtain ⟨t'', got'', hwho, -⟩ := took.stays got
    obtain rfl := Option.some.inj (got'.symm.trans got'')
    rw [hwho, who]
  refine ⟨rounds', standing', goes, ?_, fun u hu hwho => ?_, fun absent => ?_⟩
  · rw [WorkerPool.diary, filterMap_concat, duty?_eq got, if_pos who, List.flatMap_append,
      List.append_assoc, ← hduties, ← List.append_assoc]
    exact congrArg (· ++ _) h.diary
  · obtain ⟨k, gotk⟩ := List.mem_iff_getElem?.mp hu
    obtain rfl := reachable'.worker_unique gotk got' hwho who'
    obtain rfl := Option.some.inj (gotk.symm.trans got')
    exact shows'
  · obtain ⟨r, hcrew⟩ := sum_map_of_mem (fun u : Thread α => if u.who = .worker p i then 1 else 0)
      (List.mem_of_getElem? got')
    rw [crew, World.total, hcrew, if_pos who'] at absent
    omega

/-- What a worker does in a run is a row of whole rounds and the beginning of one more. -/
theorem Run.rounds {cells : List Int} (run : (World.start cells).Run moments w) (p i : Nat) :
    ∃ rounds standing, w.Rounds p i moments rounds standing := by
  induction run with
  | nil => exact ⟨[], .free, rfl, by simp [World.start], fun _ => rfl⟩
  | issue run command ih =>
      obtain ⟨rounds, standing, h⟩ := ih
      refine ⟨rounds, standing, h.diary, fun t ht who => ?_, fun absent => h.absent ?_⟩
      · rcases List.mem_append.mp ht with ht | ht
        · exact h.shows t ht who
        · obtain rfl := List.mem_singleton.mp ht
          cases who
      · simpa [crew, World.total, World.issue] using absent
  | @turn moments w v run index pick turn ih =>
      obtain ⟨rounds, standing, h⟩ := ih
      have reachable : w.Reachable := run.reachable (.start cells)
      obtain ⟨t, old, tail, e, took⟩ := took_of_turn reachable.orderly turn
      by_cases who : t.who = .worker p i
      · obtain ⟨rounds', standing', -, h'⟩ := h.turn reachable turn took.got who
        exact ⟨_, standing', h'⟩
      · exact ⟨rounds, standing, h.other reachable took who⟩

end World

end WorkerPool
