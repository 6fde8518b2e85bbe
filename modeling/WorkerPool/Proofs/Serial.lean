import WorkerPool.Proofs.Parallel

/-! Dispatching a batch leaves the same in the cells as performing it in place. A step that performs
a batch itself makes the writes of its functions one after the other, in the order of the batch.
When the batch is dispatched, they are made by several workers in any order, but each cell gets what
it would have got in place, in the same order, because one member alone writes into it before the
finale does. Once the ticket has been waited for, whatever the schedule was, nobody can tell from
the cells which of the two has been done. -/

namespace WorkerPool

variable {α : Type}

/-- How far a step has come that performs `programs`, which do nothing but write, and is then to say
`given`. It has made the writes `made`. -/
inductive Writing (programs : List Program) (given : Answer α) (made : List (Nat × Int)) :
    List (Op α) → Prop
  | performing (position : Nat) (current : Option Program) (later : List Program)
      (split : made ++ writesOf (current.toList ++ later) = writesOf programs)
      (left : (current.toList ++ later).flatten ⊆ programs.flatten) :
      Writing programs given made [.code .caller position current later, .answer given]
  | performed (all : made = writesOf programs) : Writing programs given made [.answer given]
  | through (all : made = writesOf programs) : Writing programs given made []

theorem Writing.wake {programs : List Program} {given : Answer α} {made : List (Nat × Int)}
    {ops : List (Op α)} (h : Writing programs given made ops) :
    Writing programs given made (ops.modifyHead Op.wake) := by
  cases h with
  | performing position current later split left =>
      exact .performing position current later split left
  | performed all => exact .performed all
  | through all => exact .through all

/-- Into a cell that one thread alone writes into, the turns of this thread write. -/
theorem filter_turnsOf {i index : Nat} {moments : List (Moment α)}
    (alone : WrittenOnly i (fun m _ => m.index = index) moments) :
    ((World.turnsOf index moments).filterMap (·.write?)).filter (·.1 == i) =
      (moments.filterMap (·.write?)).filter (·.1 == i) := by
  rw [World.turnsOf, List.filterMap_filter, List.filter_filterMap, List.filter_filterMap]
  apply List.filterMap_congr
  intro m hm
  cases hwrite : m.write? with
  | none => simp
  | some write =>
      by_cases hit : write.1 = i
      · obtain ⟨⟨o, action⟩, act, wrote⟩ := Option.bind_eq_some_iff.mp hwrite
        obtain rfl := Action.of_write? wrote
        simp [alone m hm o write.2 (hit ▸ act)]
      · simp [hit, Option.filter_some]

namespace World

variable {u v w x y z : World α} {moments moments' : List (Moment α)} {b : Batch}
  {p bid l index pick : Nat}

theorem Later.length_cells (later : u.Later w) (h : u.Reachable) :
    w.store.cells.length = u.store.cells.length := by
  obtain ⟨moments, run⟩ := later.run
  rw [run.cells h, length_overwrite]

section Steps

variable {programs : List Program} {given : Answer α} {made : List (Nat × Int)} {t : Thread α}

theorem writing_of_apply (got : w.threads[index]? = some t) {rest : List (Op α)} {e : Effect α}
    (quiet : e.panic = none) (h : Writing programs given made (e.ops ++ rest)) :
    ∃ t', (w.apply index pick t rest e).threads[index]? = some t' ∧
      Writing programs given made t'.ops := by
  have ops : (continued t rest e).1.ops = e.ops ++ rest := by
    unfold continued
    rw [quiet]
  obtain ⟨t', got', rfl | rfl⟩ := thread_of_apply got pick rest e
  · exact ⟨_, got', ops ▸ h⟩
  · exact ⟨_, got', (ops ▸ h : Writing programs given made (continued t rest e).1.ops).wake⟩

/-- A turn of the step makes the next write, or none. -/
theorem turn_of_writing (got : w.threads[index]? = some t)
    (h : Writing programs given made t.ops)
    (writes : ∀ action ∈ programs.flatten, ∃ i value, action = .write i value ∧
      i < w.store.cells.length)
    (turn : w.turn index pick = some v) :
    ∃ t', v.threads[index]? = some t' ∧
      Writing programs given (made ++ (Moment.mk w index).write?.toList) t'.ops := by
  generalize hops : t.ops = ops at h
  cases h with
  | through all => simp [World.turn, got, hops] at turn
  | performed all =>
      obtain ⟨e, heffect, rfl⟩ := apply_of_turn got hops turn
      cases heffect
      rw [Moment.write?, act?_eq got hops]
      exact writing_of_apply got rfl (.through (by simpa [Op.act?] using all))
  | performing position current later split left =>
      obtain ⟨e, heffect, rfl⟩ := apply_of_turn got hops turn
      rw [Moment.write?, act?_eq got hops]
      cases current with
      | none =>
          cases later with
          | nil =>
              cases heffect
              exact writing_of_apply got rfl (.performed (by simpa [Op.act?, writesOf] using split))
          | cons program later =>
              cases heffect
              exact writing_of_apply got rfl
                (.performing _ (some program) later (by simpa [Op.act?] using split) left)
      | some program =>
          cases program with
          | nil =>
              cases heffect
              exact writing_of_apply got rfl
                (.performing _ none later (by simpa [Op.act?, writesOf] using split) left)
          | cons action program =>
              obtain ⟨i, value, rfl, there⟩ := writes action (left (by simp))
              obtain ⟨ops, ⟨-, -, quiet⟩ | ⟨outside, -, -⟩⟩ := Op.effect_write heffect
              · refine writing_of_apply got quiet ?_
                rw [ops]
                refine .performing position (some program) later ?_ fun action hmem =>
                  left (List.mem_cons_of_mem _ hmem)
                simpa [Op.act?, Action.write?, writesOf] using split
              · omega

end Steps

/-- The step at `index` performs the batch `b` itself. The run `moments` begins after its first
turn, in the world `x`, and in `z` the step has ended. -/
inductive Serial (b : Batch) (index : Nat) (x : World α) (moments : List (Moment α)) (z : World α) :
    Prop
  | intro {y : World α} {pick : Nat} {t t' : Thread α} {name : String} (reachable : x.Reachable)
      (got : x.threads[index]? = some t) (due : t.ops = [.command (.onBatch name .perform)])
      (kept : x.store.names.batches.find? name = some b) (turn : x.turn index pick = some y)
      (run : y.Run moments z) (got' : z.threads[index]? = some t') (ended : t'.ops = [])

/-- What is found in a cell that only the step writes into, after it has performed the batch. -/
theorem Serial.cell (serial : Serial b index x moments z)
    (scatters : b.Scatters x.store.cells.length) {i : Nat}
    (alone : WrittenOnly i (fun m _ => m.index = index) moments) :
    z.store.cells[i]? = (overwrite x.store.cells (writesOf b.programs))[i]? := by
  obtain ⟨reachable, got, due, kept, turn, run, got', ended⟩ := serial
  rename_i y pick t t' name
  have same : y.store.cells = x.store.cells := by
    have := cells_of_turn reachable.orderly turn
    rwa [Moment.write?, act?_eq got due] at this
  have later : y.Reachable := .next reachable (.turn _ _ turn)
  obtain ⟨e, heffect, rfl⟩ := apply_of_turn got due turn
  obtain rfl : Effect.performing _ b.programs = e := by
    simpa [Op.effect, Command.effect, BatchRequest.effect, BatchRequest.effect.kept,
      Effect.withObject, kept] using heffect
  have begun : Writing b.programs (.ok .nothing) []
      ((Effect.performing x.store b.programs).ops ++ []) :=
    .performing 0 none b.programs rfl (List.Subset.refl _)
  obtain ⟨t₁, got₁, h₁⟩ := writing_of_apply got rfl begun
  obtain ⟨t₂, got₂, h₂⟩ := run.followed later got₁
    (P := fun own t => Writing b.programs (.ok .nothing) (own.filterMap Moment.write?) t.ops) h₁
    (fun own t h => h.wake) fun {own x' y' pick t} ahead got turn h => by
      rw [filterMap_concat]
      refine turn_of_writing got h (fun action hmem => ?_) turn
      rw [ahead.length_cells later, same]
      exact scatters.writes action hmem
  obtain rfl := Option.some.inj (got'.symm.trans got₂)
  rw [ended] at h₂
  cases h₂ with
  | through all =>
      calc z.store.cells[i]?
          = (overwrite x.store.cells (moments.filterMap (·.write?)))[i]? := by
            rw [run.cells later, same]
        _ = (overwrite x.store.cells (writesOf b.programs))[i]? :=
            overwrite_congr rfl (by rw [← filter_turnsOf alone, all])

/-- Dispatching a batch of functions that write into the cells, no two members into the same one,
and waiting for its ticket with success leaves the same in every cell as performing the batch in
place from the same cells, whatever the schedule and whatever the order in which the members were
performed; only nobody else must write into the cell meanwhile. Where nobody else writes at all, the
cells are the same. -/
theorem Parallel.equals_serial (parallel : Parallel b p bid l u moments w v)
    (serial : Serial b index x moments' z) (same : x.store.cells = u.store.cells)
    (scatters : b.Scatters u.store.cells.length) :
    (∀ i, WrittenOnly i (fun _ o => w.AccountOf b p bid l o) moments →
      WrittenOnly i (fun m _ => m.index = index) moments' →
        v.store.cells[i]? = z.store.cells[i]?) ∧
    ((∀ i, WrittenOnly i (fun _ o => w.AccountOf b p bid l o) moments) →
      (∀ i, WrittenOnly i (fun m _ => m.index = index) moments') →
        v.store.cells = z.store.cells) := by
  have cell : ∀ i, WrittenOnly i (fun _ o => w.AccountOf b p bid l o) moments →
      WrittenOnly i (fun m _ => m.index = index) moments' →
        v.store.cells[i]? = z.store.cells[i]? := by
    intro i alone alone'
    calc v.store.cells[i]?
        = (overwrite u.store.cells (writesOf b.programs))[i]? := parallel.cell scatters alone
      _ = (overwrite x.store.cells (writesOf b.programs))[i]? := by rw [same]
      _ = z.store.cells[i]? := (serial.cell (same ▸ scatters) alone').symm
  refine ⟨cell, fun alone alone' => ?_⟩
  ext1 i
  exact cell i (alone i) (alone' i)

/-- Two members, one with a continuation, that write into three cells, and a finale that writes into
one of these again. -/
def scattering : Batch where
  capacity := 2
  waitable := true
  members := [
    { first := ⟨[.write 0 1], true⟩, next := [⟨[.write 1 2], false⟩] },
    { first := ⟨[.write 2 3], true⟩ }]
  finale := some { first := ⟨[.write 1 4], true⟩ }

/-- A pool with two workers, and the batch under the name `b`. -/
def scattered : World Unit :=
  follow 60 [
    .newPool "p" (.given { capacity := 1, threads := some 2, name := "p" }),
    .newBatch "b" 2 true,
    .onBatch "b" (.add (.linkThen [.write 0 1] true (.link [.write 1 2] false))),
    .onBatch "b" (.add (.link [.write 2 3] true)),
    .onBatch "b" (.setFinale (.link [.write 1 4] true) false)] (.start [0, 0, 0])

/-- The batch has been submitted, and a step is about to wait for the ticket. -/
def scatteredWait : World Unit :=
  (follow 60 [.onPool "p" (.submitBatch "b" (some "t"))] scattered).issue
    (.onTicket "t" (.wait none))

/-- The turns from the submission to the wait. -/
def scatteredTurns : List (Moment Unit) :=
  following 60 [.onPool "p" (.submitBatch "b" (some "t"))] scattered ++ settling 1 8 scatteredWait

theorem scatters_of_scattering : scattering.Scatters 3 where
  writes action hmem := by
    have hmem : action ∈ [Action.write 0 1, .write 1 2, .write 2 3, .write 1 4] := hmem
    simp only [List.mem_cons, List.not_mem_nil, or_false] at hmem
    rcases hmem with rfl | rfl | rfl | rfl <;> exact ⟨_, _, rfl, by decide⟩
  apart := by
    refine List.pairwise_pair.mpr fun i ⟨value, hmem⟩ ⟨value', hmem'⟩ => ?_
    have hmem : Action.write i value ∈ [Action.write 0 1, .write 1 2] := hmem
    have hmem' : Action.write i value' ∈ [Action.write 2 3] := hmem'
    simp only [List.mem_cons, List.not_mem_nil, or_false, Action.write.injEq] at hmem hmem'
    omega

theorem equals_serial_of_scattered :
    ∃ (v z : World Unit) (moments : List (Moment Unit)),
      Parallel scattering 0 1 1 scattered scatteredTurns (scatteredWait.settle 1 8) v ∧
      Serial scattering 7 (scattered.issue (.onBatch "b" .perform)) moments z ∧
      v.store.cells = z.store.cells ∧ z.store.cells = [1, 4, 3] := by
  have reachable : scattered.Reachable := reachable_follow 60 _ (.start [0, 0, 0])
  have waited : (scatteredWait.settle 1 8).turn 8 0 = some (scatteredWait.settle 2 8) := rfl
  have begun : (scattered.issue (.onBatch "b" .perform)).turn 7 0 =
      some ((scattered.issue (.onBatch "b" .perform)).settle 1 7) := rfl
  have parallel : Parallel scattering 0 1 1 scattered scatteredTurns (scatteredWait.settle 1 8)
      (scatteredWait.settle 2 8) :=
    { reachable
      unknown := fun issue recorded => by
        have none : scattered.issues 0 1 = [] := rfl
        have given := mem_issues.mpr recorded
        rw [none] at given
        cases given
      run := ((run_following 60 _ scattered).issue _).append (run_settling 1 8 scatteredWait)
      issued := ⟨.step 5, List.mem_of_getElem? (i := 23) rfl⟩
      ticketed := ⟨2, true, .step 5, List.mem_of_getElem? (i := 22) rfl⟩
      awaited := .intro (by rfl) (by rfl) waited (by rfl) (by rfl) (by rfl) }
  have serial : Serial scattering 7 (scattered.issue (.onBatch "b" .perform))
      (settling 60 7 ((scattered.issue (.onBatch "b" .perform)).settle 1 7))
      (((scattered.issue (.onBatch "b" .perform)).settle 1 7).settle 60 7) :=
    .intro (.next reachable (.issue _ _)) rfl rfl rfl begun (run_settling 60 7 _) rfl rfl
  have acts : scatteredTurns.filterMap Moment.act? =
      [(.item 0 2, .write 0 1), (.item 0 2, .write 1 2), (.item 0 3, .write 2 3),
        (.latch 1, .write 1 4)] := rfl
  have members : (WorkerPool.membersOf (scatteredWait.settle 1 8).history 0 1).map Prod.fst =
      [2, 3] := rfl
  have own : (settling 60 7 ((scattered.issue (.onBatch "b" .perform)).settle 1 7)).all
      (·.index == 7) = true := rfl
  refine ⟨_, _, _, parallel, serial, (parallel.equals_serial serial rfl scatters_of_scattering).2
    (fun i m hm o value act => ?_) fun i m hm o value act => ?_, rfl⟩
  · have hact := List.mem_filterMap.mpr ⟨m, hm, act⟩
    rw [acts] at hact
    simp only [List.mem_cons, Prod.mk.injEq, List.not_mem_nil, or_false] at hact
    rcases hact with ⟨rfl, -⟩ | ⟨rfl, -⟩ | ⟨rfl, -⟩ | ⟨rfl, -⟩
    · exact .inl ⟨2, by simp [members], rfl⟩
    · exact .inl ⟨2, by simp [members], rfl⟩
    · exact .inl ⟨3, by simp [members], rfl⟩
    · exact .inr rfl
  · exact eq_of_beq (List.all_eq_true.mp own m hm)

end World

end WorkerPool
