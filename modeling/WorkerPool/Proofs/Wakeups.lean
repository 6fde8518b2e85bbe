import WorkerPool.Proofs.Intake
import WorkerPool.Proofs.Tally

/-! Why nobody sleeps for nothing. Whoever falls asleep has just seen, under the lock, what it is
that holds it back. From then on this still holds, or somebody has changed it and is on the way to
ring the bell: the change and the waking are two turns of one call, and the second stands in place
of the first until it is taken. So when no bell is about to be rung, every sleeper has its reason.
-/

namespace WorkerPool

variable {α : Type}

namespace Op

/-- Whether the operation is about to wake all who sleep at the bell. -/
def rings (bell : Bell) : Op α → Nat
  | .latch l .announce _ => if bell = .latch l then 1 else 0
  | .backlog p .announce => if bell = .backlog p then 1 else 0
  | .submit sub (.send (.announce _)) => if bell = .intake sub.pool then 1 else 0
  | .work p _ (.receive (.announce _)) | .shutDown p (.call (.announce _)) =>
    if bell = .intake p then 1 else 0
  | _ => 0

/-- What holds back whoever sleeps in the operation: completions that are missing, items that have
not been counted out, a ring without room, or a ring without items. -/
def Held (s : Store α) : Op α → Prop
  | .latch l (.wait _) _ => ∃ latch, s.latches[l]? = some latch ∧ latch.terminated = false ∧
    0 < latch.value.remaining
  | .backlog p (.awaitIdle _) => 0 < s.backlog p
  | .submit sub (.send (.send _ _)) => ∃ pool, s.pools[sub.pool]? = some pool ∧
    pool.isDown = false ∧ pool.intake.value.full = true
  | .work p _ (.receive (.receive _)) => ∃ pool, s.pools[p]? = some pool ∧
    pool.isDown = false ∧ pool.intake.value.isEmpty = true
  | _ => True

theorem rings_wake (bell : Bell) (op : Op α) : op.wake.rings bell = op.rings bell := by
  cases op with
  | latch l call waiter => cases call <;> rfl
  | backlog p call => cases call <;> rfl
  | submit sub phase =>
      cases phase with
      | send call => cases call <;> rfl
      | _ => rfl
  | work q i phase =>
      cases phase with
      | receive call => cases call <;> rfl
      | _ => rfl
  | _ => rfl

theorem Plain.rings {op : Op α} (h : op.Plain) (bell : Bell) : op.rings bell = 0 := by
  unfold Op.rings
  split
  all_goals first | exact h.elim | rfl

theorem Lands.rings {payload : Payload} {old new : List (Op α)} {notes : List Entry}
    (lands : Op.Lands payload old new notes) (bell : Bell) : (old.map (Op.rings bell)).sum = 0 := by
  cases lands <;> simp [Op.rings]

/-- Nobody who has been woken is asleep. -/
theorem sleepsAt_wake (op : Op α) : op.wake.sleepsAt = none := by
  have hstage : ∀ stage : Stage, (stage.wake == .asleep) = false := by
    intro stage
    cases stage <;> rfl
  cases op with
  | monitor place call =>
      cases call <;> simp [wake, sleepsAt, Monitor.Call.wake, Monitor.Call.asleep, hstage]
  | channel place call =>
      cases call <;> simp [wake, sleepsAt, Channel.Call.wake, Channel.Call.asleep, hstage]
  | latch l call waiter =>
      cases call <;> simp [wake, sleepsAt, Latch.Call.wake, Latch.Call.asleep, hstage]
  | backlog p call =>
      cases call <;> simp [wake, sleepsAt, Backlog.Call.wake, Backlog.Call.asleep, hstage]
  | submit sub phase =>
      cases phase with
      | send call =>
          cases call <;> simp [wake, sleepsAt, Channel.Call.wake, Channel.Call.asleep, hstage]
      | _ => rfl
  | work p i phase =>
      cases phase with
      | receive call =>
          cases call <;> simp [wake, sleepsAt, Channel.Call.wake, Channel.Call.asleep, hstage]
      | _ => rfl
  | _ => rfl

theorem Resumes.awake {op : Op α} {rest : List (Op α)} (h : Resumes (op :: rest)) :
    op.sleepsAt = none := by
  cases h <;> rfl

theorem Clearing.awake {p : Nat} {op : Op α} {rest : List (Op α)} (h : Clearing p (op :: rest)) :
    op.sleepsAt = none := by
  cases h <;> rfl

theorem AfterCount.awake {l : Nat} {failed : Bool} {op : Op α} {rest : List (Op α)}
    (h : AfterCount l failed (op :: rest)) : op.sleepsAt = none := by
  cases h with
  | called _ back => exact back.awake
  | settled _ behind => exact behind.awake
  | duty | performed => rfl

/-- Behind another operation nobody sleeps. -/
theorem Before.awake {who : Who} {op op' : Op α} {rest : List (Op α)}
    (before : op.Before who (op' :: rest)) : op'.sleepsAt = none := by
  cases before with
  | code _ _ _ _ after =>
      cases after with
      | caller back => exact back.awake
      | latchMade | batch | finale | item => rfl
  | count _ _ after | running _ _ _ after | latchAnnounce _ _ after => exact after.awake
  | terminate _ back => exact back.awake
  | waitTicket _ _ _ _ after =>
      rcases after with hnil | ⟨p, hcons⟩
      · cases hnil
      · cases hcons
        rfl
  | waitRefused _ _ _ _ _ after | submit _ _ _ _ after =>
      cases after
      rfl
  | leave _ after | backlogAnnounce _ after =>
      cases after with
      | work => rfl
      | clearing behind => exact behind.awake
  | awaitIdle => rfl
  | shutDown _ _ _ after => cases after <;> rfl
  | join _ _ _ after | release _ after =>
      cases after with
      | hand => rfl
      | resumes back => exact back.awake
  | hand _ _ after | answer _ after =>
      rcases after with ⟨hnil, -⟩ | ⟨p, rest', hcons⟩
      · cases hnil
      · cases hcons
        rfl

/-- Who is asleep is so in the operation that is due. -/
theorem Leads.asleep {who : Who} {ops : List (Op α)} (stack : Leads who ops []) {op : Op α}
    (hop : op ∈ ops) {bell : Bell} (asleep : op.sleepsAt = some bell) :
        ∃ rest, ops = op :: rest := by
  obtain ⟨above, rest, rfl⟩ := List.append_of_mem hop
  rcases List.eq_nil_or_concat above with rfl | ⟨above, last, rfl⟩
  · exact ⟨rest, rfl⟩
  · rw [List.concat_eq_append, List.append_assoc, leads_append, List.append_nil] at stack
    have awake := stack.2.1.awake
    rw [asleep] at awake
    cases awake

end Op

section Deeds

variable {around : Around} {s : Store α} {who : Who} {e : Effect α}

/-- Who is about to ring a bell rings it. -/
theorem Deed.alarm_of_rings {op : Op α} (deed : Deed around s who op e) {bell : Bell}
    (rings : op.rings bell ≠ 0) : e.alarm = .everyone bell := by
  have hbell : ∀ {bell' : Bell}, (if bell = bell' then 1 else 0) ≠ 0 →
      Alarm.everyone bell' = .everyone bell := by
    intro bell' h
    by_cases heq : bell = bell'
    · rw [heq]
    · rw [if_neg heq] at h
      exact absurd rfl h
  cases deed with
  | latchAnnounced | backlogAnnounced | sendAnnounced | receiveAnnounced | abandoned =>
      exact hbell rings
  | jobAdded submits | freeJobAdded submits => cases submits <;> exact absurd rfl rings
  | givenBack sub pool item call found down sends =>
      rcases sends with rfl | ⟨stage, -, rfl⟩ <;> exact absurd rfl rings
  | _ => exact absurd rfl rings

/-- A latch that holds somebody back does so after a turn, too, or those who wait are going to be
told. -/
theorem Deed.latch_held {op : Op α} (deed : Deed around s who op e) {l : Nat} {latch : Latch}
    (found : s.latches[l]? = some latch) (up : latch.terminated = false)
    (held : 0 < latch.value.remaining) :
    (∃ latch', e.store.latches[l]? = some latch' ∧ latch'.terminated = false ∧
      0 < latch'.value.remaining) ∨
    e.alarm = .everyone (.latch l) ∨ 0 < (e.ops.map (Op.rings (.latch l))).sum := by
  by_cases apart : ∀ call waiter, op ≠ .latch l call waiter
  · have there := (List.getElem?_eq_some_iff.mp found).1
    exact .inl ⟨latch, (deed.latch_kept there apart).trans found, up, held⟩
  push Not at apart
  obtain ⟨call, waiter, rfl⟩ := apart
  have hset : ∀ {m m' : Latch}, s.latches[l]? = some m → m'.terminated = m.terminated →
      0 < m'.value.remaining → ∃ latch', (s.setLatch l m').latches[l]? = some latch' ∧
        latch'.terminated = false ∧ 0 < latch'.value.remaining := by
    intro m m' hm hterminated hpos
    obtain rfl : latch = m := Option.some.inj (found.symm.trans hm)
    exact ⟨m', by rw [Store.getElem?_setLatch hm, if_pos rfl], hterminated.trans up, hpos⟩
  cases deed with
  | jobAdded submits | freeJobAdded submits => cases submits
  | countSkipped => exact .inr (.inr (by simp [Op.rings]))
  | countStarted _ m job hm counts last =>
      exact .inl (hset hm rfl (by rw [last]; exact Nat.one_pos))
  | counted _ m failed hm counts plain =>
      obtain rfl : latch = m := Option.some.inj (found.symm.trans hm)
      by_cases last : latch.value.remaining = 1
      · exact .inr (.inr (by simp [last, Op.rings]))
      · exact .inl (hset hm rfl (by dsimp only; omega))
  | continued _ m job succeeded hm =>
      obtain rfl : latch = m := Option.some.inj (found.symm.trans hm)
      by_cases last : latch.value.remaining - 1 = 0
      · exact .inr (.inr (by simp [last, Op.rings]))
      · exact .inl (hset hm rfl (Nat.pos_of_ne_zero last))
  | latchTerminated => exact .inr (.inl rfl)
  | _ => exact .inl ⟨latch, found, up, held⟩

/-- A backlog that holds somebody back does so after a turn, too, or those who wait are going to be
told. -/
theorem Deed.backlog_held {op : Op α} (deed : Deed around s who op e) {p : Nat}
    (held : 0 < s.backlog p) :
    0 < e.store.backlog p ∨ 0 < (e.ops.map (Op.rings (.backlog p))).sum := by
  have hpools : e.store.pools = s.pools →
      0 < e.store.backlog p ∨ 0 < (e.ops.map (Op.rings (.backlog p))).sum :=
    fun h => .inl (Store.backlog_of_pools h p ▸ held)
  have hset : ∀ {place : Nat} {q q' : Pool}, s.pools[place]? = some q →
      e.store.pools = s.pools.set place q' → q.backlog.value ≤ q'.backlog.value →
        0 < e.store.backlog p ∨ 0 < (e.ops.map (Op.rings (.backlog p))).sum := by
    intro place q q' found h hle
    have hbacklog : e.store.backlog p = (s.setPool place q').backlog p :=
      Store.backlog_of_pools h p
    rw [hbacklog, Store.backlog_setPool found]
    split
    · rename_i hp
      rw [hp, Store.backlog_eq found] at held
      exact .inl (Nat.lt_of_lt_of_le held hle)
    · exact .inl held
  cases deed with
  | commanded command eases => exact hpools eases.pools
  | acted origin position action rest later eases => exact hpools eases.pools
  | handed ticket name same => exact hpools same.1
  | poolMade => exact .inl (Nat.lt_of_lt_of_eq held (Store.backlog_append rfl rfl p).symm)
  | jobAdded _ _ _ _ hq | freeJobAdded _ _ _ _ hq | batchAdded _ _ _ _ _ hq
  | freeBatchAdded _ _ _ _ _ hq | emptyBatchAdded _ _ _ _ _ _ hq | memberAdded _ _ _ _ hq
  | pushed _ _ _ _ hq | taken _ _ _ _ _ _ hq | jobStarted _ _ _ _ hq | jobFinished _ _ _ _ _ hq
  | poolTerminated _ _ hq | drained _ _ _ hq => exact hset hq (by rfl) (by exact Nat.le_refl _)
  | enlisted _ _ _ hq => exact hset hq (by rfl) (by exact Nat.le_succ _)
  | left place q hq =>
      by_cases last : q.backlog.value - 1 = 0 ∧ place = p
      · exact .inr (by simp [last, Op.rings])
      · refine .inl ?_
        rw [Store.backlog_setPool hq]
        split
        · rename_i hp
          exact Nat.pos_of_ne_zero fun h => last ⟨h, hp.symm⟩
        · exact held
  | _ => exact hpools rfl

/-- A change of an intake is followed by the waking of those who sleep there. -/
theorem Deed.intake_held {op : Op α} (deed : Deed around s who op e) {p : Nat} {pool : Pool}
    (found : s.pools[p]? = some pool) :
    (∃ pool', e.store.pools[p]? = some pool' ∧ pool'.intake = pool.intake) ∨
    e.alarm = .everyone (.intake p) ∨ 0 < (e.ops.map (Op.rings (.intake p))).sum := by
  obtain ⟨pool', found', turn⟩ := deed.intake found
  generalize hc : pool'.intake = c at turn
  cases turn with
  | kept => exact .inl ⟨pool', found', hc⟩
  | pushed sub item stage _ mine up ops => exact .inr (.inr (by simp [ops, Op.rings, mine]))
  | taken i stage item ring _ up ops => exact .inr (.inr (by simp [ops, Op.rings]))
  | terminated _ ops alarm => exact .inr (.inl alarm)
  | drained ring _ empty ops => exact .inr (.inr (by simp [ops, Op.rings]))

/-- What holds back a sleeper still does so after a turn, or the bell is rung, or it is going to be.
-/
theorem Deed.held {op : Op α} (deed : Deed around s who op e) {op' : Op α} {bell : Bell}
    (asleep : op'.sleepsAt = some bell) (held : op'.Held s) :
    op'.Held e.store ∨ e.alarm = .everyone bell ∨ 0 < (e.ops.map (Op.rings bell)).sum := by
  have hsome : ∀ {b : Bool} {bell' : Bell}, (if b then some bell' else none) = some bell →
      bell' = bell := by
    intro b bell' h
    split at h
    · exact Option.some.inj h
    · cases h
  cases op' with
  | latch l call waiter =>
      cases call with
      | wait stage =>
          obtain rfl := hsome asleep
          obtain ⟨latch, found, up, pos⟩ := held
          exact deed.latch_held found up pos
      | _ => exact .inl trivial
  | backlog p call =>
      cases call with
      | awaitIdle stage =>
          obtain rfl := hsome asleep
          exact (deed.backlog_held held).imp_right .inr
      | _ => exact .inl trivial
  | submit sub phase =>
      cases phase with
      | send call =>
          cases call with
          | send item stage =>
              obtain rfl := hsome asleep
              obtain ⟨pool, found, up, full⟩ := held
              refine (deed.intake_held found).imp_left ?_
              rintro ⟨pool', found', same⟩
              exact ⟨pool', found', by rw [Pool.isDown, same]; exact up, by rw [same]; exact full⟩
          | _ => exact .inl trivial
      | _ => exact .inl trivial
  | work p i phase =>
      cases phase with
      | receive call =>
          cases call with
          | receive stage =>
              obtain rfl := hsome asleep
              obtain ⟨pool, found, up, empty⟩ := held
              refine (deed.intake_held found).imp_left ?_
              rintro ⟨pool', found', same⟩
              exact ⟨pool', found', by rw [Pool.isDown, same]; exact up, by rw [same]; exact empty⟩
          | _ => exact .inl trivial
      | _ => exact .inl trivial
  | _ => exact .inl trivial

theorem Command.Leaves.awake {ops : List (Op α)} (leaves : Command.Leaves s ops) :
    ∀ op ∈ ops, op.sleepsAt = none := by
  cases leaves with
  | monitor place call awake => simp [Op.sleepsAt, awake]
  | channel place call awake => simp [Op.sleepsAt, awake]
  | _ => simp [Op.sleepsAt, Op.perform, Latch.Call.asleep, Backlog.Call.asleep]

theorem Action.Leaves.awake {ops : List (Op α)} (leaves : Action.Leaves s ops) :
    ∀ op ∈ ops, op.sleepsAt = none := by
  cases leaves <;> simp [Op.sleepsAt, Op.perform, Latch.Call.asleep]

theorem Op.Settles.awake {op : Op α} (settles : op.Settles) : op.sleepsAt = none := by
  cases settles <;> rfl

/-- Whoever falls asleep is held back. -/
theorem Deed.held_of_asleep {op : Op α} (deed : Deed around s who op e) :
    ∀ op' ∈ e.ops, op'.sleepsAt = none ∨ op'.Held e.store := by
  intro op' hop
  have hawake : (∀ op ∈ e.ops, op.sleepsAt = none) → op'.sleepsAt = none ∨ op'.Held e.store :=
    fun h => .inl (h op' hop)
  have hsettles : ∀ {ops : List (Op α)}, (∀ op ∈ ops, op.Settles) → op' ∈ ops →
      op'.sleepsAt = none ∨ op'.Held e.store := fun h hop => .inl (h op' hop).awake
  cases deed with
  | commanded command eases leaves plain => exact .inl (leaves.awake op' hop)
  | acted origin position action rest later eases leaves plain =>
      rcases List.mem_append.mp hop with hop | hop
      · exact .inl (leaves.awake op' hop)
      · obtain rfl := List.mem_singleton.mp hop
        exact .inl rfl
  | waitSlept l latch stage waiter found awake up held =>
      obtain rfl := List.mem_singleton.mp hop
      exact .inr ⟨latch, found, up, held⟩
  | idleSlept p pool stage found awake held =>
      obtain rfl := List.mem_singleton.mp hop
      exact .inr (Nat.lt_of_lt_of_eq held (Store.backlog_eq found).symm)
  | sendSlept sub pool item stage found awake up full =>
      obtain rfl := List.mem_singleton.mp hop
      exact .inr ⟨pool, found, up, full⟩
  | receiveSlept p i pool stage found awake up empty =>
      obtain rfl := List.mem_singleton.mp hop
      exact .inr ⟨pool, found, up, empty⟩
  | monitorTurned place call left | channelTurned place call left =>
      rcases left with rfl | ⟨call, rfl⟩
      · cases hop
      · obtain rfl := List.mem_singleton.mp hop
        exact .inr trivial
  | jobAdded submits | freeJobAdded submits =>
      rcases List.mem_append.mp hop with hsub | hmade
      · obtain rfl := List.mem_singleton.mp hsub
        exact .inl rfl
      · cases submits with
        | command => cases hmade
        | action =>
            obtain rfl := List.mem_singleton.mp hmade
            exact .inl rfl
  | accepted sub pool found through hands =>
      refine hawake ?_
      cases hands <;> simp [Op.sleepsAt]
  | refused sub pool found refuses =>
      refine hawake ?_
      cases refuses <;> simp [Op.sleepsAt]
  | refusing sub pool item found =>
      rcases List.mem_append.mp hop with hop | hop
      · exact hsettles (Op.discard_settles sub.pool item) hop
      · exact hsettles sub.afterRefusal_settles hop
  | jobRan place i pool item found | jobBroke place i pool item payload found =>
      rcases List.mem_append.mp hop with hop | hop
      · exact hsettles (Op.complete_settles item.latch _) hop
      · obtain rfl := List.mem_singleton.mp hop
        exact .inl rfl
  | abandoned place pool items found =>
      rcases List.mem_append.mp hop with hop | hop
      · exact hsettles (Op.flatMap_discard_settles place items) hop
      · obtain rfl := List.mem_singleton.mp hop
        exact .inl rfl
  | poolReady =>
      simp only [List.mem_append, List.mem_map, List.mem_singleton] at hop
      rcases hop with ⟨q, -, rfl⟩ | rfl <;> exact .inl rfl
  | counted | continued | left =>
      dsimp only at hop
      split at hop
      · obtain rfl := List.mem_singleton.mp hop
        exact .inl rfl
      · cases hop
  | _ =>
      refine hawake ?_
      simp [Op.sleepsAt, Op.perform, Latch.Call.asleep, Backlog.Call.asleep, Channel.Call.asleep]

theorem Op.Lands.awake {payload : Payload} {old new : List (Op α)} {notes : List Entry}
    (lands : Op.Lands payload old new notes) : ∀ op ∈ new, op.sleepsAt = none := by
  cases lands <;> simp [Op.sleepsAt, Latch.Call.asleep]

end Deeds

namespace World

/-- How many operations are about to wake all who sleep at the bell. -/
def alarms (w : World α) (bell : Bell) : Nat :=
  w.load fun _ => Op.rings bell

/-- Every sleeper is held back, or its bell is about to be rung. -/
def Wakeful (w : World α) : Prop :=
  ∀ t ∈ w.threads, ∀ op rest bell, t.ops = op :: rest → op.sleepsAt = some bell →
    op.Held w.store ∨ 0 < w.alarms bell

variable {w v : World α} {index : Nat} {t : Thread α} {old tail : List (Op α)} {e : Effect α}

/-- Who is still asleep after an alarm was so before, and the alarm was not for all at the bell. -/
theorem mem_rouse_asleep {alarm : Alarm} {pick : Nat} {threads : List (Thread α)} {u : Thread α}
    (h : u ∈ rouse alarm pick threads) {op : Op α} {rest : List (Op α)} {bell : Bell}
    (hops : u.ops = op :: rest) (asleep : op.sleepsAt = some bell) :
    u ∈ threads ∧ alarm ≠ .everyone bell := by
  have hwoken : ∀ u' : Thread α, u ≠ u'.wake := by
    rintro u' rfl
    cases hops' : u'.ops with
    | nil => simp [Thread.wake, hops'] at hops
    | cons op' ops' =>
        simp only [Thread.wake, hops', List.modifyHead_cons, List.cons.injEq] at hops
        rw [← hops.1, Op.sleepsAt_wake] at asleep
        cases asleep
  constructor
  · obtain ⟨u', hu', rfl | rfl⟩ := mem_rouse h
    · exact hu'
    · exact absurd rfl (hwoken u')
  · rintro rfl
    obtain ⟨u', hu', heq⟩ := List.mem_map.mp h
    split at heq
    · exact hwoken u' heq.symm
    · rename_i hne
      subst heq
      exact hne (by simp [Thread.sleepsAt, hops, asleep])

/-- Alarms are put off by no turn: who is about to ring a bell is still about to, or has rung it. -/
theorem Took.alarms (took : w.Took v index t old tail e) {bell : Bell}
    (unrung : e.alarm ≠ .everyone bell) (h : 0 < w.alarms bell) : 0 < v.alarms bell := by
  obtain ⟨r, hbefore, hafter⟩ := took.load_of_start (fun _ => Op.rings bell)
    (fun _ op => op.rings_wake bell) fun _ _ _ => rfl
  have hold : (old.map (Op.rings bell)).sum = 0 := by
    cases took.act with
    | @deed op e deed quiet =>
        by_contra rings
        exact unrung (deed.alarm_of_rings (by simpa using rings))
    | broke payload loose lands uncaught =>
        rw [List.map_append, List.sum_append, lands.rings, sum_map_eq_zero, Nat.add_zero]
        exact fun op hop => (loose op hop).plain.rings bell
  rw [World.alarms] at h ⊢
  omega

/-- Who is asleep after a turn was so before, or has fallen asleep in this turn. -/
theorem Took.asleep (took : w.Took v index t old tail e) (orderly : w.Orderly) {u : Thread α}
    (hu : u ∈ v.threads) {op : Op α} {rest : List (Op α)} (hops : u.ops = op :: rest) {bell : Bell}
    (asleep : op.sleepsAt = some bell) :
    e.alarm ≠ .everyone bell ∧
      ((∃ u' ∈ w.threads, ∃ rest', u'.ops = op :: rest') ∨ op ∈ e.ops) := by
  obtain ⟨pick, answer, -, hthreads⟩ := took.threads
  rw [hthreads, List.mem_append] at hu
  rcases hu with hu | hu
  swap
  · obtain ⟨p, i, name, rfl, -⟩ := took.birth hu
    cases hops
    cases asleep
  obtain ⟨hu, unrung⟩ := mem_rouse_asleep hu hops asleep
  refine ⟨unrung, ?_⟩
  rcases List.mem_or_eq_of_mem_set hu with hu | rfl
  · exact .inl ⟨u, hu, rest, hops⟩
  have ht := took.mem_threads
  have stack := took.leads orderly
  cases he : e.ops with
  | nil =>
      -- What stood behind the operations of the turn was not asleep.
      simp only [he, List.nil_append] at hops
      subst hops
      rcases List.eq_nil_or_concat old with rfl | ⟨above, last, rfl⟩
      · exact .inl ⟨t, ht, rest, took.ops⟩
      · rw [List.concat_eq_append, Op.leads_append] at stack
        rw [stack.1.2.1.awake] at asleep
        cases asleep
  | cons op' ops' =>
      simp only [he, List.cons_append, List.cons.injEq] at hops
      obtain ⟨rfl, -⟩ := hops
      exact .inr List.mem_cons_self

theorem Took.wakeful (took : w.Took v index t old tail e) (orderly : w.Orderly) (h : w.Wakeful) :
    v.Wakeful := by
  intro u hu op rest bell hops asleep
  obtain ⟨unrung, ⟨u', hu', rest', hops'⟩ | hop⟩ := took.asleep orderly hu hops asleep
  · obtain ⟨r, -, hafter⟩ := took.load_of_start (fun _ => Op.rings bell)
      (fun _ op => op.rings_wake bell) fun _ _ _ => rfl
    rcases h u' hu' op rest' bell hops' asleep with held | alarms
    · cases took.act with
      | deed deed quiet =>
          rcases deed.held asleep held with held | rung | rings
          · exact .inl (took.store ▸ held)
          · exact absurd rung unrung
          · exact .inr (by rw [World.alarms]; omega)
      | broke payload loose lands uncaught => exact .inl (took.store ▸ held)
    · exact .inr (took.alarms unrung alarms)
  · cases took.act with
    | deed deed quiet =>
        rcases deed.held_of_asleep op hop with awake | held
        · rw [awake] at asleep
          cases asleep
        · exact .inl (took.store ▸ held)
    | broke payload loose lands uncaught =>
        rw [lands.awake op hop] at asleep
        cases asleep

theorem Reachable.wakeful {w : World α} (h : w.Reachable) : w.Wakeful := by
  refine h.induct (P := Wakeful) (fun cells => by simp [Wakeful, World.start])
    (fun w command _ ih => ?_) fun w v index t old tail e reachable took ih =>
      took.wakeful reachable.orderly ih
  intro u hu op rest bell hops asleep
  rw [World.alarms, load_issue]
  rcases List.mem_append.mp hu with hu | hu
  · exact ih u hu op rest bell hops asleep
  · obtain rfl := List.mem_singleton.mp hu
    cases hops
    cases asleep

end World

end WorkerPool
