import WorkerPool.Proofs.Moments

/-! Performing in place. A step that performs a chain of functions itself calls one after the other
and then has its answer, whatever the functions do in between and whatever other threads do; only a
panic that nothing catches breaks this off, and then the step ends with it. -/

namespace WorkerPool

variable {α : Type}

/-- The function that a step with this stack calls next by itself, and not from within another
function. -/
def Op.ownCall? : List (Op α) → Option Program
  | [.code _ _ none (program :: _), .answer _] => some program
  | _ => none

/-- The function that the step at `index` calls by itself in a moment. -/
def Moment.ownCall? (index : Nat) (m : Moment α) : Option Program :=
  if m.index = index then m.world.threads[index]?.bind fun t => Op.ownCall? t.ops else none

theorem Op.ownCall?_of_above (op : Op α) (above : List (Op α)) (position : Nat)
    (current : Option Program) (later : List Program) (given : Answer α) :
    Op.ownCall? (op :: (above ++ [.code .caller position current later, .answer given])) =
      none := by
  unfold Op.ownCall?
  split
  · rename_i heq
    have := congrArg List.length heq
    simp at this
  · rfl

theorem Op.ownCall?_of_current (origin : Origin) (position : Nat) (program : Program)
    (later : List Program) (given : Answer α) :
    Op.ownCall? [.code origin position (some program) later, .answer given] = none := rfl

/-- How far a step has come that performs `programs` and is then to say `given`. It has called the
functions `called`; what they have left to do stands above the rest of the chain. -/
inductive InPlace (programs : List Program) (given : Answer α) (called : List Program) :
    List (Op α) → Option (Answer α) → Prop
  | underWay (above : List (Op α)) (position : Nat) (current : Option Program)
      (later : List Program) (answer? : Option (Answer α)) (split : called ++ later = programs) :
      InPlace programs given called
        (above ++ [.code .caller position current later, .answer given]) answer?
  | performed (answer? : Option (Answer α)) (all : called = programs) :
      InPlace programs given called [.answer given] answer?
  | through (answer? : Option (Answer α)) (all : called = programs) :
      InPlace programs given called [] answer?
  | broken (payload : Payload) :
      InPlace programs given called [] (some (.error (.panicked payload)))

/-- A panic is caught above the chain, or it ends the step. -/
theorem unwind_above (payload : Payload) (above : List (Op α)) (position : Nat)
    (current : Option Program) (later : List Program) (given : Answer α) :
    (unwind payload (above ++ [.code .caller position current later, .answer given])).2 = none ∨
      ∃ above', (unwind payload
        (above ++ [.code .caller position current later, .answer given])).2 =
          some (above' ++ [.code .caller position current later, .answer given]) := by
  induction above with
  | nil => cases current <;> exact .inl rfl
  | cons op above ih =>
      rw [List.cons_append]
      unfold unwind
      split
      · exact .inl rfl
      · rename_i heq
        cases heq
        exact ih
      · rename_i place job _ waiter _ heq
        cases heq
        exact .inr ⟨.latch place (.running job false) waiter :: above, rfl⟩
      · rename_i construction _ _ heq
        cases heq
        exact .inr ⟨.construct construction false :: above, rfl⟩
      · rename_i place index item _ _ heq
        cases heq
        exact .inr ⟨.work place index (.running item (some payload)) :: above, rfl⟩
      · rename_i heq
        cases heq
        exact ih

namespace InPlace

variable {programs called : List Program} {given : Answer α}

theorem wake {ops : List (Op α)} {answer? : Option (Answer α)}
    (h : InPlace programs given called ops answer?) :
    InPlace programs given called (ops.modifyHead Op.wake) answer? := by
  cases h with
  | underWay above position current later answer? split =>
      cases above with
      | nil => exact .underWay [] position current later answer? split
      | cons op above => exact .underWay (op.wake :: above) position current later answer? split
  | performed answer? all => exact .performed answer? all
  | through answer? all => exact .through answer? all
  | broken payload => exact .broken payload

/-- However a turn above the chain ends, the chain is still there, or the step has ended. -/
theorem continued {t : Thread α} {rest : List (Op α)} {e : Effect α} (above : List (Op α))
    {position : Nat} {current : Option Program} {later : List Program}
    (ops : e.ops ++ rest = above ++ [.code .caller position current later, .answer given])
    (split : called ++ later = programs) :
    InPlace programs given called (World.continued t rest e).1.ops
      (World.continued t rest e).1.answer := by
  unfold World.continued
  rw [ops]
  cases e.panic with
  | none => exact .underWay above position current later _ split
  | some payload =>
      dsimp only
      have h := unwind_above payload above position current later given
      rcases hleft : unwind payload
        (above ++ [.code .caller position current later, .answer given]) with ⟨notes, left⟩
      rw [hleft] at h ⊢
      rcases h with rfl | ⟨above', rfl⟩
      · exact .broken payload
      · exact .underWay above' position current later _ split

end InPlace

namespace World

variable {u v w : World α} {index pick : Nat} {t : Thread α} {moments : List (Moment α)}
  {programs called : List Program} {given : Answer α}

/-- What is found of a thread after its turn. -/
theorem inPlace_of_apply (got : w.threads[index]? = some t) {rest : List (Op α)} {e : Effect α}
    (h : InPlace programs given called (continued t rest e).1.ops (continued t rest e).1.answer) :
    ∃ t', (w.apply index pick t rest e).threads[index]? = some t' ∧
      InPlace programs given called t'.ops t'.answer := by
  obtain ⟨t', got', rfl | rfl⟩ := thread_of_apply got pick rest e
  · exact ⟨_, got', h⟩
  · exact ⟨_, got', h.wake⟩

theorem ownCall?_eq (got : w.threads[index]? = some t) :
    (Moment.mk w index).ownCall? index = Op.ownCall? t.ops := by
  simp [Moment.ownCall?, got]

/-- One turn of the chain itself: a function is called, goes on or returns, or the chain is at its
end. -/
theorem turn_of_chain (got : w.threads[index]? = some t) {position : Nat} {current : Option Program}
    {later : List Program} (ops : t.ops = [.code .caller position current later, .answer given])
    (split : called ++ later = programs) (turn : w.turn index pick = some v) :
    ∃ t', v.threads[index]? = some t' ∧
      InPlace programs given (called ++ (Op.ownCall? t.ops).toList) t'.ops t'.answer := by
  obtain ⟨e, heffect, rfl⟩ := apply_of_turn got ops turn
  rw [ops]
  cases current with
  | none =>
      cases later with
      | nil =>
          cases heffect
          exact inPlace_of_apply got (.performed _ (by simpa [Op.ownCall?] using split))
      | cons program later =>
          cases heffect
          exact inPlace_of_apply got
            (.continued [] rfl (by simpa [Op.ownCall?] using split))
  | some program =>
      rw [Op.ownCall?_of_current, Option.toList_none, List.append_nil]
      cases program with
      | nil =>
          cases heffect
          exact inPlace_of_apply got (.continued [] rfl split)
      | cons action program =>
          obtain ⟨e, -, rfl⟩ := Option.map_eq_some_iff.mp heffect
          exact inPlace_of_apply got (.continued e.ops (List.append_assoc ..) split)

/-- A turn of the thread of the step goes on with what the step has to do, and calls the next
function of the chain if that is due. -/
theorem turn_of_inPlace (got : w.threads[index]? = some t)
    (h : InPlace programs given called t.ops t.answer) (turn : w.turn index pick = some v) :
    ∃ t', v.threads[index]? = some t' ∧
      InPlace programs given (called ++ (Op.ownCall? t.ops).toList) t'.ops t'.answer := by
  generalize hops : t.ops = ops at h
  generalize t.answer = answer? at h
  cases h with
  | through _ all => simp [World.turn, got, hops] at turn
  | broken payload => simp [World.turn, got, hops] at turn
  | performed _ all =>
      obtain ⟨e, heffect, rfl⟩ := apply_of_turn got hops turn
      cases heffect
      rw [show Op.ownCall? [.answer given] = none from rfl, Option.toList_none, List.append_nil]
      exact inPlace_of_apply got (.through _ all)
  | underWay above position current later _ split =>
      cases above with
      | nil => exact hops ▸ turn_of_chain got hops split turn
      | cons op above =>
          obtain ⟨e, heffect, rfl⟩ := apply_of_turn got hops turn
          have none := Op.ownCall?_of_above op above position current later given
          rw [List.cons_append, none, Option.toList_none, List.append_nil]
          exact inPlace_of_apply got (.continued _ (List.append_assoc ..).symm split)

/-- A step that performs a chain itself calls its functions one after the other. -/
theorem Run.inPlace (run : u.Run moments w) (h : u.Reachable) (got : u.threads[index]? = some t)
    (ops : t.ops = [.perform .caller programs, .answer given]) :
    ∃ t', w.threads[index]? = some t' ∧
      InPlace programs given (moments.filterMap (Moment.ownCall? index)) t'.ops t'.answer := by
  induction run with
  | nil =>
      refine ⟨t, got, ?_⟩
      rw [ops]
      exact .underWay [] 0 none programs t.answer rfl
  | issue run command ih =>
      obtain ⟨t', got', inPlace⟩ := ih
      exact ⟨t', (List.getElem?_append_left (List.getElem?_eq_some_iff.mp got').1).trans got',
        inPlace⟩
  | @turn moments w v run i pick turn ih =>
      obtain ⟨t', got', inPlace⟩ := ih
      rw [filterMap_concat]
      by_cases hi : i = index
      · subst hi
        rw [ownCall?_eq got']
        exact turn_of_inPlace got' inPlace turn
      · rw [show (Moment.mk w i).ownCall? index = none from if_neg hi, Option.toList_none,
          List.append_nil]
        obtain ⟨t₀, old, tail, e, took⟩ := took_of_turn (run.reachable h).orderly turn
        obtain ⟨t'', got'', -⟩ := took.stays got'
        rcases took.thread_at got' got'' with ⟨-, rfl | rfl⟩ | ⟨rfl, -⟩
        · exact ⟨_, got'', inPlace⟩
        · exact ⟨_, got'', inPlace.wake⟩
        · exact absurd rfl hi

/-- In the turns `moments` the step at `index` has performed `b` itself, and no panic has ended the
step. -/
inductive PerformedInPlace (b : Batch) (index : Nat) : List (Moment α) → Prop
  | intro {u v w : World α} {moments : List (Moment α)} {pick : Nat} {t t' : Thread α}
      {name : String} (reachable : u.Reachable) (got : u.threads[index]? = some t)
      (due : t.ops = [.command (.onBatch name .perform)])
      (kept : u.store.names.batches.find? name = some b) (turn : u.turn index pick = some v)
      (run : v.Run moments w) (got' : w.threads[index]? = some t') (ended : t'.ops = [])
      (fine : ∀ payload, t'.answer ≠ some (.error (.panicked payload))) :
      PerformedInPlace b index moments

/-- Performing a batch in place calls the functions of its members in order and then those of its
finale. -/
theorem PerformedInPlace.calls {b : Batch} (h : PerformedInPlace b index moments) :
    moments.filterMap (Moment.ownCall? index) = b.programs := by
  obtain ⟨reachable, got, due, kept, turn, run, got', ended, fine⟩ := h
  rename_i t' name
  obtain ⟨e, heffect, rfl⟩ := apply_of_turn got due turn
  obtain rfl : Effect.performing _ b.programs = e := by
    simpa [Op.effect, Command.effect, BatchRequest.effect, BatchRequest.effect.kept,
      Effect.withObject, kept] using heffect
  obtain ⟨t₁, got₁, h₁⟩ := thread_of_apply got _ [] (Effect.performing _ b.programs)
  have ops : t₁.ops = [.perform .caller b.programs, .answer (.ok .nothing)] := by
    rcases h₁ with rfl | rfl <;> rfl
  obtain ⟨t₂, got₂, inPlace⟩ := run.inPlace (.next reachable (.turn _ _ turn)) got₁ ops
  obtain rfl := Option.some.inj (got'.symm.trans got₂)
  generalize t'.ops = ops at inPlace ended
  generalize answered : t'.answer = answer? at inPlace
  cases inPlace with
  | underWay => simp at ended
  | performed => cases ended
  | through _ all => exact all
  | broken payload => exact absurd answered (fine payload)

end World

end WorkerPool
