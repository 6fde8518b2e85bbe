import WorkerPool.Proofs.Act
import WorkerPool.Scenario

/-! Runs. In every world that a run can come to, each thread has its operations in order and each
pool has a sound ring. So every turn replaces the operations at the front of one thread by an act;
the other threads are woken at most, and new threads come last. `Took` says this of two worlds, and
it is what all inductions over runs go on. -/

namespace WorkerPool

variable {α : Type}

namespace Op

/-- Something holds of each of the operations `ops` and of what stands behind it, where `behind`
stands behind all of them. -/
def Along (P : Op α → List (Op α) → Prop) : List (Op α) → List (Op α) → Prop
  | [], _ => True
  | op :: ops, behind => P op (ops ++ behind) ∧ Along P ops behind

variable {P Q : Op α → List (Op α) → Prop}

@[simp] theorem along_nil (behind : List (Op α)) : Along P [] behind := trivial

@[simp] theorem along_cons (op : Op α) (ops behind : List (Op α)) :
    Along P (op :: ops) behind ↔ P op (ops ++ behind) ∧ Along P ops behind := Iff.rfl

theorem along_append (ops ops' behind : List (Op α)) :
    Along P (ops ++ ops') behind ↔ Along P ops (ops' ++ behind) ∧ Along P ops' behind := by
  induction ops with
  | nil => simp
  | cons op ops ih => simp [ih, and_assoc]

theorem along_of_forall {ops : List (Op α)} (h : ∀ op ∈ ops, ∀ rest, P op rest)
    (behind : List (Op α)) : Along P ops behind := by
  induction ops with
  | nil => exact trivial
  | cons op ops ih =>
      exact ⟨h op List.mem_cons_self _, ih fun op hop => h op (List.mem_cons_of_mem _ hop)⟩

theorem Along.imp (hPQ : ∀ op rest, P op rest → Q op rest) {ops behind : List (Op α)}
    (h : Along P ops behind) : Along Q ops behind := by
  induction ops with
  | nil => exact trivial
  | cons op ops ih => exact ⟨hPQ op _ h.1, ih h.2⟩

theorem Along.and {R : Op α → Prop} {ops behind : List (Op α)} (h : Along P ops behind)
    (hR : ∀ op ∈ ops, R op) : Along (fun op rest => R op ∧ P op rest) ops behind := by
  induction ops with
  | nil => exact trivial
  | cons op ops ih =>
      exact ⟨⟨hR op List.mem_cons_self, h.1⟩, ih h.2 fun op hop => hR op (List.mem_cons_of_mem _ hop)⟩

theorem Along.of_mem {ops : List (Op α)} (h : Along P ops []) {op : Op α} (hop : op ∈ ops) :
    ∃ above rest, ops = above ++ op :: rest ∧ P op rest := by
  obtain ⟨above, rest, rfl⟩ := List.append_of_mem hop
  rw [along_append] at h
  exact ⟨above, rest, rfl, by simpa using h.2.1⟩

end Op

namespace World

/-- Every ring is sound and every thread has its operations in order. -/
structure Orderly (w : World α) : Prop where
  rings : w.store.RingsValid
  ordered : ∀ t ∈ w.threads, Op.Leads t.who t.ops []

/-- `v` comes from `w` by a turn of the thread `t` at `index`: its operations `old` in front of
`tail` are replaced with the effect `e`, and an answer that the turn finds is its answer. -/
structure Took (w v : World α) (index : Nat) (t : Thread α) (old tail : List (Op α))
    (e : Effect α) : Prop where
  got : w.threads[index]? = some t
  ops : t.ops = old ++ tail
  act : Act (w.around index) w.store t.who old e
  store : v.store = e.store
  history : v.history = (e.notes.map (t.who, ·)).reverse ++ w.history
  threads : ∃ pick answer, (∀ given, e.answer = some given → answer = some given) ∧ v.threads =
    rouse e.alarm pick (w.threads.set index { t with ops := e.ops ++ tail, answer }) ++ e.births

section

variable {w v : World α} {index : Nat} {t : Thread α} {old tail : List (Op α)} {e : Effect α}

theorem Took.mem_threads (took : w.Took v index t old tail e) : t ∈ w.threads :=
  List.mem_of_getElem? took.got

theorem Took.mem_ops (took : w.Took v index t old tail e) {op : Op α} (hop : op ∈ old) :
    op ∈ t.ops := by
  rw [took.ops]
  exact List.mem_append_left tail hop

theorem Took.due_mem {op : Op α} (took : w.Took v index t (op :: old) tail e) : op ∈ t.ops :=
  took.mem_ops List.mem_cons_self

/-- What a turn replaces stands in order in front of what it leaves alone. -/
theorem Took.leads (took : w.Took v index t old tail e) (orderly : w.Orderly) :
    Op.Leads t.who old tail ∧ Op.Leads t.who tail [] := by
  have stack := orderly.ordered t took.mem_threads
  rwa [took.ops, Op.leads_append, List.append_nil] at stack

end

section Due

variable {w v : World α} {index pick : Nat} {t : Thread α} {op : Op α} {rest : List (Op α)}
  {e : Effect α}

/-- The turn of a thread is the turn of the operation that is due. -/
theorem turn_eq (got : w.threads[index]? = some t) (ops : t.ops = op :: rest) (pick : Nat) :
    w.turn index pick =
      (op.effect (w.around index) w.store t.who).map (w.apply index pick t rest) := by
  rw [turn, got, Option.bind_some, ops]

theorem turn_of_effect (got : w.threads[index]? = some t) (ops : t.ops = op :: rest)
    (effect : op.effect (w.around index) w.store t.who = some e) (pick : Nat) :
    w.turn index pick = some (w.apply index pick t rest e) := by
  rw [turn_eq got ops, effect]
  rfl

theorem apply_of_turn (got : w.threads[index]? = some t) (ops : t.ops = op :: rest)
    (turn : w.turn index pick = some v) :
    ∃ e, op.effect (w.around index) w.store t.who = some e ∧ w.apply index pick t rest e = v :=
  Option.map_eq_some_iff.mp ((turn_eq got ops pick).symm.trans turn)

/-- Who takes a turn has not ended. -/
theorem not_ended_of_turn (got : w.threads[index]? = some t) (turn : w.turn index pick = some v) :
    t.ops ≠ [] := by
  intro ops
  rw [World.turn, got, Option.bind_some, ops] at turn
  cases turn

end Due

theorem continued_of_panic {t : Thread α} {rest : List (Op α)} {e : Effect α} {payload : Payload}
    (h : e.panic = some payload) {notes : List Entry} {left : Option (List (Op α))}
    (hunwind : unwind payload (e.ops ++ rest) = (notes, left)) :
    ∃ answer, continued t rest e = ({ t with ops := left.getD [], answer }, notes) := by
  simp only [continued, h, hunwind]
  cases left with
  | none => exact ⟨_, rfl⟩
  | some ops => exact ⟨_, rfl⟩

/-- A turn without a panic replaces the operation that is due. -/
theorem took_of_deed {w : World α} {index : Nat} {t : Thread α} {op : Op α} {rest : List (Op α)}
    {e : Effect α} (got : w.threads[index]? = some t) (hops : t.ops = op :: rest)
    (deed : Deed (w.around index) w.store t.who op e) (quiet : e.panic = none) (pick : Nat) :
    w.Took (w.apply index pick t rest e) index t [op] rest e := by
  refine ⟨got, hops, .deed deed quiet, rfl, ?_, pick, e.answer.or t.answer,
    fun given h => by rw [h]; rfl, ?_⟩
  · simp [apply, continued, quiet]
  · simp only [apply, continued, quiet]

/-- A turn with a panic replaces all operations up to the one that catches it. -/
theorem took_of_panic {w : World α} {index : Nat} {t : Thread α} {op : Op α} {rest : List (Op α)}
    {e : Effect α} {payload : Payload} (got : w.threads[index]? = some t) (hops : t.ops = op :: rest)
    (stack : Op.Leads t.who t.ops []) (deed : Deed (w.around index) w.store t.who op e)
    (panic : e.panic = some payload) (pick : Nat) :
    ∃ above old new notes tail, (∀ passed ∈ above, passed.Loose) ∧ Op.Lands payload old new notes ∧
      (old = [] → tail = []) ∧ w.Took (w.apply index pick t rest e) index t (above ++ old) tail
        { store := w.store, ops := new, notes := above.flatMap Op.raisedNotes ++ notes } := by
  rw [hops] at stack
  obtain ⟨raises, hstore, hnotes, halarm, hbirths, hunwind⟩ := deed.of_panic panic
  obtain ⟨above, old, new, notes, tail, hsplit, loose, lands, hend, hleft⟩ :=
    unwind_eq payload raises stack
  obtain ⟨answer, hnext⟩ := continued_of_panic (t := t) panic ((hunwind rest).trans hleft)
  refine ⟨above, old, new, notes, tail, loose, lands, fun h => (hend h).1, got,
    by rw [hops, hsplit],
    .broke payload loose lands fun h => (hend h).2, hstore, ?_, pick, answer,
    (fun given h => nomatch h), ?_⟩
  · simp only [apply, hnext, hnotes, List.nil_append]
  · have hops : (if old.isEmpty then none else some (new ++ tail)).getD [] = new ++ tail := by
      cases lands with
      | nowhere => simp [(hend rfl).1]
      | _ => rfl
    simp only [apply, hnext, halarm, hbirths, hops]

/-- A turn replaces the operation that is due, or a panic begins with it. -/
theorem took_cases {w v : World α} (orderly : w.Orderly) {index pick : Nat} {t : Thread α}
    {op : Op α} {rest : List (Op α)} (got : w.threads[index]? = some t) (hops : t.ops = op :: rest)
    (h : w.turn index pick = some v) :
    ∃ e, op.effect (w.around index) w.store t.who = some e ∧ v = w.apply index pick t rest e ∧
      Deed (w.around index) w.store t.who op e ∧
      ((e.panic = none ∧ w.Took v index t [op] rest e) ∨
        ∃ payload above old new notes tail, e.panic = some payload ∧
          (∀ passed ∈ above, passed.Loose) ∧ Op.Lands payload old new notes ∧
          (old = [] → tail = []) ∧ w.Took v index t (above ++ old) tail
            { store := w.store, ops := new, notes := above.flatMap Op.raisedNotes ++ notes }) := by
  obtain ⟨e, heffect, rfl⟩ := apply_of_turn got hops h
  have stack := orderly.ordered t (List.mem_of_getElem? got)
  have deed := op.deed (hops ▸ stack).1.proper orderly.rings heffect
  refine ⟨e, heffect, rfl, deed, ?_⟩
  cases hpanic : e.panic with
  | none => exact .inl ⟨rfl, took_of_deed got hops deed hpanic pick⟩
  | some payload =>
      obtain ⟨above, old, new, notes, tail, falls⟩ := took_of_panic got hops stack deed hpanic pick
      exact .inr ⟨payload, above, old, new, notes, tail, rfl, falls⟩

theorem took_of_turn {w v : World α} (orderly : w.Orderly) {index pick : Nat}
    (h : w.turn index pick = some v) : ∃ t old tail e, w.Took v index t old tail e := by
  obtain ⟨t, got, due⟩ := Option.bind_eq_some_iff.mp h
  split at due
  · cases due
  · rename_i op rest hops
    obtain ⟨e, -, -, -, ⟨-, took⟩ | ⟨_, above, old, _, _, tail, -, -, -, -, took⟩⟩ :=
      took_cases orderly got hops h
    · exact ⟨t, [op], rest, e, took⟩
    · exact ⟨t, above ++ old, tail, _, took⟩

/-- The turn of an operation that does not panic, with the effect that the operation has. -/
theorem took_of_effect {w v : World α} (orderly : w.Orderly) {index pick : Nat} {t : Thread α}
    {op : Op α} {rest : List (Op α)} (got : w.threads[index]? = some t) (hops : t.ops = op :: rest)
    (firm : ¬op.Raises) (h : w.turn index pick = some v) :
    ∃ e, op.effect (w.around index) w.store t.who = some e ∧ v = w.apply index pick t rest e ∧
      w.Took v index t [op] rest e ∧ Deed (w.around index) w.store t.who op e := by
  obtain ⟨e, heffect, hv, deed, ⟨-, took⟩ | ⟨_, _, _, _, _, _, hpanic, -⟩⟩ :=
    took_cases orderly got hops h
  · exact ⟨e, heffect, hv, took, deed⟩
  · exact absurd (deed.of_panic hpanic).1 firm

/-- The turn of an operation that does not panic. -/
theorem took_of_turn_of_firm {w v : World α} (orderly : w.Orderly) {index pick : Nat} {t : Thread α}
    {op : Op α} {rest : List (Op α)} (got : w.threads[index]? = some t) (hops : t.ops = op :: rest)
    (firm : ¬op.Raises) (h : w.turn index pick = some v) :
    ∃ e, w.Took v index t [op] rest e ∧ Deed (w.around index) w.store t.who op e := by
  obtain ⟨e, -, -, took, deed⟩ := took_of_effect orderly got hops firm h
  exact ⟨e, took, deed⟩

/-! ### The threads after a turn -/

/-- Whoever has taken a turn that wakes nobody goes on with what the turn leaves. -/
theorem thread_of_silent {w : World α} {index : Nat} {t : Thread α} {e : Effect α}
    (got : w.threads[index]? = some t) (calm : e.alarm = .silent) (quiet : e.panic = none)
    (pick : Nat) (rest : List (Op α)) :
    (w.apply index pick t rest e).threads[index]? =
      some { t with ops := e.ops ++ rest, answer := e.answer.or t.answer } := by
  have there : index < w.threads.length := (List.getElem?_eq_some_iff.mp got).1
  simp only [apply, continued, quiet, calm, rouse]
  rw [List.getElem?_append_left (by simpa using there), List.getElem?_set_self there]

/-- A thread as it was, or woken. -/
theorem mem_wakeOne {bell : Bell} {pick : Nat} {threads : List (Thread α)} {t : Thread α}
    (h : t ∈ wakeOne bell pick threads) : ∃ t' ∈ threads, t = t' ∨ t = t'.wake := by
  induction threads generalizing pick with
  | nil => simp [wakeOne] at h
  | cons u rest ih =>
      have hrest : ∀ {pick : Nat}, t ∈ u :: wakeOne bell pick rest →
          ∃ t' ∈ u :: rest, t = t' ∨ t = t'.wake := by
        intro pick h
        rcases List.mem_cons.mp h with rfl | h
        · exact ⟨t, List.mem_cons_self, .inl rfl⟩
        · obtain ⟨t', ht', h⟩ := ih h
          exact ⟨t', List.mem_cons_of_mem u ht', h⟩
      unfold wakeOne at h
      split at h
      · split at h
        · rcases List.mem_cons.mp h with rfl | h
          · exact ⟨u, List.mem_cons_self, .inr rfl⟩
          · exact ⟨t, List.mem_cons_of_mem u h, .inl rfl⟩
        · exact hrest h
      · exact hrest h

theorem mem_rouse {alarm : Alarm} {pick : Nat} {threads : List (Thread α)} {t : Thread α}
    (h : t ∈ rouse alarm pick threads) : ∃ t' ∈ threads, t = t' ∨ t = t'.wake := by
  cases alarm with
  | silent => exact ⟨t, h, .inl rfl⟩
  | one bell => exact mem_wakeOne h
  | everyone bell =>
      obtain ⟨t', ht', rfl⟩ := List.mem_map.mp h
      refine ⟨t', ht', ?_⟩
      split
      · exact .inr rfl
      · exact .inl rfl

theorem getElem?_wakeOne {bell : Bell} {pick i : Nat} {threads : List (Thread α)} {t : Thread α}
    (h : threads[i]? = some t) :
    (wakeOne bell pick threads)[i]? = some t ∨ (wakeOne bell pick threads)[i]? = some t.wake := by
  induction threads generalizing pick i with
  | nil => simp at h
  | cons u rest ih =>
      unfold wakeOne
      cases i with
      | zero =>
          obtain rfl : u = t := by simpa using h
          split
          · split
            · exact .inr rfl
            · exact .inl rfl
          · exact .inl rfl
      | succ i =>
          have h : rest[i]? = some t := by simpa using h
          split
          · split
            · exact .inl (by simpa using h)
            · simpa using ih h
          · simpa using ih h

theorem getElem?_rouse (alarm : Alarm) (pick : Nat) {i : Nat} {threads : List (Thread α)}
    {t : Thread α} (h : threads[i]? = some t) :
    (rouse alarm pick threads)[i]? = some t ∨ (rouse alarm pick threads)[i]? = some t.wake := by
  cases alarm with
  | silent => exact .inl h
  | one bell => exact getElem?_wakeOne h
  | everyone bell =>
      simp only [rouse, wakeAll, List.getElem?_map, h, Option.map_some]
      split
      · exact .inr rfl
      · exact .inl rfl

/-- Whoever has taken a turn goes on with what the turn leaves, and may be woken by it. -/
theorem thread_of_apply {w : World α} {index : Nat} {t : Thread α}
    (got : w.threads[index]? = some t) (pick : Nat) (rest : List (Op α)) (e : Effect α) :
    ∃ t', (w.apply index pick t rest e).threads[index]? = some t' ∧
      (t' = (continued t rest e).1 ∨ t' = (continued t rest e).1.wake) := by
  have there := (List.getElem?_eq_some_iff.mp got).1
  rcases getElem?_rouse e.alarm pick
    (List.getElem?_set_self (a := (continued t rest e).1) there) with h | h
  · exact ⟨_, (List.getElem?_append_left (List.getElem?_eq_some_iff.mp h).1).trans h, .inl rfl⟩
  · exact ⟨_, (List.getElem?_append_left (List.getElem?_eq_some_iff.mp h).1).trans h, .inr rfl⟩

/-- A thread stays at its place. Only the one whose turn it is goes on, and the others are woken at
most. -/
theorem Took.thread_at {w v : World α} {index : Nat} {t : Thread α} {old tail : List (Op α)}
    {e : Effect α} (took : w.Took v index t old tail e) {i : Nat} {u u' : Thread α}
    (was : w.threads[i]? = some u) (after : v.threads[i]? = some u') :
    (i ≠ index ∧ (u' = u ∨ u' = u.wake)) ∨
      (i = index ∧ u = t ∧ ∃ answer, (∀ given, e.answer = some given → answer = some given) ∧
        (u' = { t with ops := e.ops ++ tail, answer } ∨
          u' = Thread.wake { t with ops := e.ops ++ tail, answer })) := by
  obtain ⟨pick, answer, hanswer, hthreads⟩ := took.threads
  have hlt := (List.getElem?_eq_some_iff.mp was).1
  by_cases heq : index = i
  · subst heq
    obtain rfl := Option.some.inj (was.symm.trans took.got)
    have hself := getElem?_rouse e.alarm pick
      (List.getElem?_set_self (a := { u with ops := e.ops ++ tail, answer }) hlt)
    refine .inr ⟨rfl, rfl, answer, hanswer, ?_⟩
    rw [hthreads] at after
    rcases hself with hself | hself <;>
      rw [List.getElem?_append_left (List.getElem?_eq_some_iff.mp hself).1, hself] at after
    · exact .inl (Option.some.inj after).symm
    · exact .inr (Option.some.inj after).symm
  · have hother := getElem?_rouse e.alarm pick
      ((List.getElem?_set_ne heq (a := { t with ops := e.ops ++ tail, answer })).trans was)
    refine .inl ⟨Ne.symm heq, ?_⟩
    rw [hthreads] at after
    rcases hother with hother | hother <;>
      rw [List.getElem?_append_left (List.getElem?_eq_some_iff.mp hother).1, hother] at after
    · exact .inl (Option.some.inj after).symm
    · exact .inr (Option.some.inj after).symm

/-- What holds of the operations of every thread after a turn: it holds of what the turn leaves to
its thread and of what the new threads have to do, and it held of the other threads before. -/
theorem Took.forall_threads {w v : World α} {index : Nat} {t : Thread α} {old tail : List (Op α)}
    {e : Effect α} (took : w.Took v index t old tail e) {P : Who → List (Op α) → Prop}
    (hwake : ∀ who op ops, P who (op :: ops) → P who (op.wake :: ops))
    (hothers : ∀ u ∈ w.threads, P u.who u.ops) (hself : P t.who (e.ops ++ tail))
    (hbirths : ∀ u ∈ e.births, P u.who u.ops) : ∀ u ∈ v.threads, P u.who u.ops := by
  obtain ⟨pick, answer, -, hthreads⟩ := took.threads
  intro u hu
  rw [hthreads, List.mem_append] at hu
  rcases hu with hu | hu
  · obtain ⟨u', hu', h⟩ := mem_rouse hu
    have hP : P u'.who u'.ops := by
      rcases List.mem_or_eq_of_mem_set hu' with hu' | rfl
      · exact hothers u' hu'
      · exact hself
    rcases h with rfl | rfl
    · exact hP
    · cases hops : u'.ops with
      | nil => simpa [Thread.wake, hops] using hP
      | cons op ops =>
          rw [hops] at hP
          simpa [Thread.wake, hops] using hwake u'.who op ops hP
  · exact hbirths u hu

/-- A thread that a turn starts is a worker at its beginning. -/
theorem Took.birth {w v : World α} {index : Nat} {t : Thread α} {old tail : List (Op α)}
    {e : Effect α} (took : w.Took v index t old tail e) {u : Thread α} (h : u ∈ e.births) :
    ∃ p i name, u = { who := .worker p i, ops := [.work p i .start] } ∧
      old = [.spawn p i name] := by
  cases took.act with
  | deed deed quiet =>
      cases deed with
      | spawned place i name pool found inside =>
          exact ⟨place, i, name, List.mem_singleton.mp h, rfl⟩
      | _ => cases h
  | broke payload loose lands uncaught => cases h

/-- What holds of every operation after a turn. -/
theorem Took.forall_ops {w v : World α} {index : Nat} {t : Thread α} {old tail : List (Op α)}
    {e : Effect α} (took : w.Took v index t old tail e) {P : Who → Op α → Prop}
    (hwake : ∀ who op, P who op → P who op.wake)
    (hothers : ∀ u ∈ w.threads, ∀ op ∈ u.ops, P u.who op) (hself : ∀ op ∈ e.ops, P t.who op)
    (hbirths : ∀ p i name, old = [.spawn p i name] → P (.worker p i) (.work p i .start)) :
    ∀ u ∈ v.threads, ∀ op ∈ u.ops, P u.who op := by
  refine took.forall_threads (P := fun who ops => ∀ op ∈ ops, P who op) ?_ hothers ?_ ?_
  · intro who op ops h op' hop'
    rcases List.mem_cons.mp hop' with rfl | hop'
    · exact hwake who op (h op List.mem_cons_self)
    · exact h op' (List.mem_cons_of_mem op hop')
  · intro op hop
    rcases List.mem_append.mp hop with hop | hop
    · exact hself op hop
    · exact hothers t took.mem_threads op
        (by rw [took.ops]; exact List.mem_append_right old hop)
  · intro u hu op hop
    obtain ⟨p, i, name, rfl, hold⟩ := took.birth hu
    obtain rfl := List.mem_singleton.mp hop
    exact hbirths p i name hold

/-- What holds after a turn of every operation and of what stands behind it. -/
theorem Took.along {w v : World α} {index : Nat} {t : Thread α} {old tail : List (Op α)}
    {e : Effect α} (took : w.Took v index t old tail e) {P Q : Who → Op α → List (Op α) → Prop}
    (hwake : ∀ who op rest, Q who op rest → Q who op.wake rest)
    (hothers : ∀ who op rest, P who op rest → Q who op rest)
    (h : ∀ u ∈ w.threads, Op.Along (P u.who) u.ops [])
    (hself : Op.Along (P t.who) old tail → Op.Along (Q t.who) e.ops tail)
    (hbirths : ∀ p i, Q (.worker p i) (.work p i .start) []) :
    ∀ u ∈ v.threads, Op.Along (Q u.who) u.ops [] := by
  refine took.forall_threads (P := fun who ops => Op.Along (Q who) ops []) ?_ ?_ ?_ ?_
  · exact fun who op ops hops => ⟨hwake who op _ hops.1, hops.2⟩
  · exact fun u hu => (h u hu).imp (hothers u.who)
  · have hstack := h t took.mem_threads
    rw [took.ops, Op.along_append, List.append_nil] at hstack
    rw [Op.along_append, List.append_nil]
    exact ⟨hself hstack.1, hstack.2.imp (hothers t.who)⟩
  · intro u hu
    obtain ⟨p, i, name, rfl, -⟩ := took.birth hu
    exact ⟨hbirths p i, trivial⟩

theorem Took.orderly {w v : World α} {index : Nat} {t : Thread α} {old tail : List (Op α)}
    {e : Effect α} (took : w.Took v index t old tail e) (h : w.Orderly) : v.Orderly := by
  constructor
  · rw [took.store]
    exact took.act.pools.ringsValid h.rings
  · refine took.forall_threads (P := fun who ops => Op.Leads who ops []) ?_ h.ordered ?_
      took.act.births_lead
    · exact fun who op ops hops => ⟨hops.1.wake, hops.2⟩
    · have hstack := took.leads h
      rw [Op.leads_append, List.append_nil]
      exact ⟨took.act.leads hstack.1, hstack.2⟩

theorem forall_ops_issue {w : World α} {command : Command α} {P : Who → Op α → Prop}
    (hothers : ∀ u ∈ w.threads, ∀ op ∈ u.ops, P u.who op)
    (hnew : P (.step w.steps) (.command command)) :
    ∀ u ∈ (w.issue command).threads, ∀ op ∈ u.ops, P u.who op := by
  intro u hu op hop
  rcases List.mem_append.mp hu with hu | hu
  · exact hothers u hu op hop
  · obtain rfl := List.mem_singleton.mp hu
    obtain rfl := List.mem_singleton.mp hop
    exact hnew

theorem orderly_issue {w : World α} (h : w.Orderly) (command : Command α) :
    (w.issue command).Orderly := by
  refine ⟨h.rings, fun t ht => ?_⟩
  rcases List.mem_append.mp ht with ht | ht
  · exact h.ordered t ht
  · obtain rfl := List.mem_singleton.mp ht
    exact ⟨.command (by trivial) command, trivial⟩

theorem Reachable.orderly {w : World α} (h : w.Reachable) : w.Orderly := by
  induction h with
  | start cells => exact ⟨by simp [World.start, Store.RingsValid], by simp [World.start]⟩
  | next reachable step ih =>
      cases step with
      | turn index pick took =>
          obtain ⟨t, old, tail, e, took⟩ := took_of_turn ih took
          exact took.orderly ih
      | issue command => exact orderly_issue ih command

/-- Induction over runs. -/
theorem Reachable.induct {P : World α → Prop} (hstart : ∀ cells, P (World.start cells))
    (hissue : ∀ w command, w.Reachable → P w → P (w.issue command))
    (hturn : ∀ w v index t old tail e, w.Reachable → w.Took v index t old tail e → P w → P v)
    {w : World α} (h : w.Reachable) : P w := by
  induction h with
  | start cells => exact hstart cells
  | next reachable step ih =>
      cases step with
      | turn index pick took =>
          obtain ⟨t, old, tail, e, took⟩ := took_of_turn reachable.orderly took
          exact hturn _ _ index t old tail e reachable took ih
      | issue command => exact hissue _ command reachable ih

/-! ### Runs of commands -/

theorem advanceFrom_keeps {P : World α → Prop} (step : ∀ {w v}, P w → Step w v → P v) {w : World α}
    (h : P w) {index count running : Nat} {next : World α}
    (hadvance : w.advanceFrom index count = some (running, next)) : P next := by
  induction count generalizing index with
  | zero => cases hadvance
  | succ count ih =>
      unfold advanceFrom at hadvance
      split at hadvance
      · rename_i took
        cases hadvance
        exact step h (.turn _ 0 took)
      · exact ih hadvance

/-- What every turn keeps is kept while the threads settle. -/
theorem settle_keeps {P : World α → Prop} (step : ∀ {w v}, P w → Step w v → P v) {w : World α}
    (h : P w) (limit running : Nat) : P (w.settle limit running) := by
  induction limit generalizing w running with
  | zero => exact h
  | succ limit ih =>
      unfold settle
      split
      · rename_i next hadvance
        refine ih ?_ _
        unfold advance at hadvance
        split at hadvance
        · rename_i took
          cases hadvance
          exact step h (.turn running 0 took)
        · exact advanceFrom_keeps step h hadvance
      · exact h

theorem reachable_settle {w : World α} (h : w.Reachable) (limit running : Nat) :
    (w.settle limit running).Reachable :=
  settle_keeps .next h limit running

/-- The world after some commands, each given when the threads have had `limit` turns to settle. -/
def follow (limit : Nat) : List (Command α) → World α → World α
  | [], w => w
  | command :: rest, w => follow limit rest ((w.issue command).settle limit w.threads.length)

theorem reachable_follow (limit : Nat) (commands : List (Command α)) {w : World α}
    (h : w.Reachable) : (follow limit commands w).Reachable := by
  induction commands generalizing w with
  | nil => exact h
  | cons command rest ih => exact ih (reachable_settle (.next h (.issue w command)) limit _)

end World

end WorkerPool
