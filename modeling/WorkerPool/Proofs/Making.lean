import WorkerPool.Proofs.Decision

/-! The making of a latch that has nothing to wait for. Its continuation is performed first, by the
thread that makes it, and the latch comes into being when that has ended. Nobody else can have a
hand in this: the functions stand in the thread in front of the operation that makes the latch, so
it is enough to follow the turns of this one thread. The continuation of such a latch is performed
on nobody's account; which of its functions have been called, and which have come back, is read off
the run itself. -/

namespace WorkerPool

variable {α : Type}

/-- What happens to a function in a thread: it is called, or it comes back. -/
inductive Visit
  | call (program : Program)
  | back

/-- The visits of functions that are called one after the other and all come back. -/
def Visit.all (programs : List Program) : List Visit :=
  programs.flatMap fun program => [.call program, .back]

theorem Visit.all_append (ps qs : List Program) : all (ps ++ qs) = all ps ++ all qs :=
  List.flatMap_append

theorem Visit.all_singleton (program : Program) : all [program] = [.call program, .back] := rfl

/-- What the visits say of functions that were to be called in order, if `succeeded` is how this
ended: all have come back, or the one that was called last has not. -/
def Visit.Tell (programs : List Program) (visits : List Visit) : Bool → Prop
  | true => visits = all programs
  | false => ∃ done program later,
      programs = done ++ program :: later ∧ visits = all done ++ [.call program]

/-- The visit that an operation makes, of those that stand in front of the making of a latch. -/
def Op.visit? : List (Op α) → Option Visit
  | [.code _ _ none (program :: _), .construct ..] => some (.call program)
  | [.code _ _ (some []) _, .construct ..] => some .back
  | _ => none

/-- The visit in this turn, if it is a turn of the thread at `index`. -/
def Moment.visit? (index : Nat) (m : Moment α) : Option Visit :=
  if m.index = index then m.world.threads[index]?.bind fun t => Op.visit? t.ops else none

/-- The visits of the thread at `index`, in order. -/
def visits (index : Nat) (moments : List (Moment α)) : List Visit :=
  moments.filterMap (·.visit? index)

/-- How far the thread has come that is to call the functions `programs` on account of `o` and then
to make what `c` says, where `visits` are those that it has made. -/
inductive Making (o : Origin) (c : Construction) (programs : List Program) (visits : List Visit) :
    List (Op α) → Prop
  | between (done later : List Program) (split : programs = done ++ later)
      (made : visits = Visit.all done) :
      Making o c programs visits [.code o done.length none later, .construct c true]
  | inside (done later : List Program) (program : Program)
      (split : programs = done ++ program :: later)
      (made : visits = Visit.all done ++ [.call program]) (above : List (Op α)) (left : Program) :
      Making o c programs visits
        (above ++ [.code o (done.length + 1) (some left) later, .construct c true])
  | through (succeeded : Bool) (tell : Visit.Tell programs visits succeeded) :
      Making o c programs visits [.construct c succeeded]

namespace Making

variable {o : Origin} {c : Construction} {programs : List Program} {visits : List Visit}
  {ops : List (Op α)}

/-- Only what stands in front of the functions can be asleep. -/
theorem wake (making : Making o c programs visits ops) :
    Making o c programs visits (ops.modifyHead Op.wake) := by
  cases making with
  | between done later split made => exact .between done later split made
  | inside done later program split made above left =>
      cases above with
      | nil => exact .inside done later program split made [] left
      | cons op above => exact .inside done later program split made (op.wake :: above) left
  | through succeeded tell => exact .through succeeded tell

end Making

/-- A panic that begins above the functions of a continuation comes to rest there, or it ends the
function that is being performed and is caught by the making of the latch. -/
theorem Op.Lands.split {payload : Payload} {passed old new above tail : List (Op α)}
    {notes : List Entry} {o : Origin} {c : Construction} {position : Nat} {left : Program}
    {later : List Program} (lands : Op.Lands payload old new notes)
    (loose : ∀ op ∈ passed, op.Loose) (uncaught : old = [] → tail = [])
    (ops : passed ++ old ++ tail =
      above ++ [.code o position (some left) later, .construct c true]) :
    (∃ above', tail = above' ++ [.code o position (some left) later, .construct c true]) ∨
      (new = [.construct c false] ∧ tail = []) := by
  rw [List.append_assoc] at ops
  rcases List.append_eq_append_iff.mp ops with ⟨above', -, rest⟩ | ⟨passed', rfl, rest⟩
  · cases lands with
    | nowhere =>
        rw [uncaught rfl] at rest
        simp at rest
    | _ =>
        rcases above' with _ | ⟨_, _ | ⟨_, above'⟩⟩
        · simp_all
        · simp at rest
        · simp only [List.cons_append, List.nil_append, List.cons.injEq] at rest
          exact .inl ⟨above', rest.2.2⟩
  · rcases passed' with _ | ⟨op, _ | ⟨op', passed'⟩⟩
    · cases lands <;> simp_all
    · cases lands <;> simp_all
    · simp only [List.cons_append, List.cons.injEq] at rest
      obtain ⟨-, rfl, -⟩ := rest
      exact (loose (.construct c true) (by simp)).elim

/-- An action stands in front of the rest of its function. -/
theorem Deed.left_of_action {around : Around} {s : Store α} {who : Who} {e : Effect α} {o : Origin}
    {position : Nat} {action : Action} {left : Program} {later : List Program}
    (deed : Deed around s who (.code o position (some (action :: left)) later) e) :
    ∃ above, e.ops = above ++ [.code o position (some left) later] := by
  cases deed with
  | jobAdded submits | freeJobAdded submits =>
      cases submits with
      | action => exact ⟨_, rfl⟩
  | acted => exact ⟨_, rfl⟩
  | actionRaised => exact ⟨[], rfl⟩

section Making

variable {o : Origin} {c : Construction} {programs : List Program} {vs : List Visit}

theorem Deed.making {around : Around} {s : Store α} {who : Who} {e : Effect α} {op : Op α}
    {rest : List (Op α)} (deed : Deed around s who op e)
    (making : Making o c programs vs (op :: rest)) :
    Making o c programs (vs ++ (Op.visit? (op :: rest)).toList) (e.ops ++ rest) ∨
      ∃ succeeded, op :: rest = [.construct c succeeded] ∧ Visit.Tell programs vs succeeded := by
  generalize hops : op :: rest = ops at making
  cases making with
  | between done later split made =>
      obtain ⟨rfl, rfl⟩ := List.cons.inj hops
      refine .inl ?_
      cases deed with
      | jobAdded submits | freeJobAdded submits => cases submits
      | codeOver =>
          refine .through true ?_
          simpa [Visit.Tell, Op.visit?, split] using made
      | codeCalled _ _ program later =>
          exact .inside done later program split (by simp [Op.visit?, made]) [] program
  | inside done later program split made above left =>
      refine .inl ?_
      cases above with
      | cons op' above =>
          obtain ⟨rfl, rfl⟩ := List.cons.inj hops
          have silent : Op.visit? (op :: above ++
              [.code o (done.length + 1) (some left) later, .construct c true]) = none := by
            cases above <;> simp [Op.visit?]
          have := Making.inside (o := o) (c := c) done later program split made (e.ops ++ above) left
          rwa [List.append_assoc, ← List.append_nil vs, ← Option.toList_none, ← silent] at this
      | nil =>
          obtain ⟨rfl, rfl⟩ := List.cons.inj hops
          cases left with
          | nil =>
              have back : done.length + 1 = (done ++ [program]).length := by simp
              cases deed with
              | jobAdded submits | freeJobAdded submits => cases submits
              | codeReturned =>
                  rw [back]
                  refine .between (done ++ [program]) later (by simp [split]) ?_
                  simp [Op.visit?, made, Visit.all_append, Visit.all_singleton]
          | cons action left =>
              obtain ⟨above, hleft⟩ := deed.left_of_action
              rw [hleft, List.append_assoc]
              exact .inside done later program split (by simpa [Op.visit?] using made) above left
  | through succeeded tell => exact .inr ⟨succeeded, rfl, tell⟩

theorem Op.visit?_of_panic {around : Around} {s : Store α} {who : Who} {e : Effect α} {op : Op α}
    (deed : Deed around s who op e) {payload : Payload} (panic : e.panic = some payload)
    (rest : List (Op α)) : Op.visit? (op :: rest) = none := by
  cases deed with
  | actionRaised | deadlocked => simp [Op.visit?]
  | _ => cases panic

/-- A panic in one function leaves the ones behind it uncalled. -/
theorem Op.Lands.making {payload : Payload} {op : Op α} {rest passed old new tail : List (Op α)}
    {notes : List Entry} (lands : Op.Lands payload old new notes) (raises : op.Raises)
    (loose : ∀ op ∈ passed, op.Loose) (uncaught : old = [] → tail = [])
    (falls : op :: rest = passed ++ old ++ tail) (making : Making o c programs vs (op :: rest)) :
    Making o c programs vs (new ++ tail) := by
  generalize hops : op :: rest = ops at making
  cases making with
  | between | through =>
      obtain ⟨rfl, -⟩ := List.cons.inj hops
      cases raises
  | inside done later program split made above left =>
      rcases lands.split loose uncaught (falls.symm.trans hops) with ⟨above', rfl⟩ | ⟨rfl, rfl⟩
      · rw [← List.append_assoc]
        exact .inside done later program split made (new ++ above') left
      · exact .through false ⟨done, program, later, split, made⟩

end Making

namespace World

variable {u v w : World α} {index : Nat} {t : Thread α} {o : Origin} {c : Construction}
  {programs : List Program} {vs : List Visit}

/-- What a turn of the thread itself leaves it with, until it makes the latch. -/
theorem making_of_turn (orderly : w.Orderly) {pick : Nat} (got : w.threads[index]? = some t)
    (making : Making o c programs vs t.ops) (took : w.turn index pick = some v) :
    ∃ old tail e, w.Took v index t old tail e ∧
      (Making o c programs (vs ++ ((Moment.mk w index).visit? index).toList) (e.ops ++ tail) ∨
        ∃ succeeded, t.ops = [.construct c succeeded] ∧ Visit.Tell programs vs succeeded ∧
          v.store.latches = w.store.latches ++ [Latch.settled succeeded]) := by
  obtain ⟨t', got', due⟩ := Option.bind_eq_some_iff.mp took
  obtain rfl := Option.some.inj (got.symm.trans got')
  split at due
  · cases due
  rename_i op rest hops
  have visit : (Moment.mk w index).visit? index = Op.visit? (op :: rest) := by
    simp [Moment.visit?, got, hops]
  rw [visit]
  rw [hops] at making ⊢
  obtain ⟨e, -, -, deed, ⟨-, took⟩ |
    ⟨payload, passed, old, new, notes, tail, panic, loose, lands, uncaught, took⟩⟩ :=
    took_cases orderly got hops took
  · refine ⟨_, _, e, took, ?_⟩
    rcases deed.making making with making' | ⟨succeeded, last, tell⟩
    · exact .inl making'
    · refine .inr ⟨succeeded, last, tell, ?_⟩
      obtain ⟨rfl, -⟩ := List.cons.inj last
      rw [took.store]
      cases deed with
      | jobAdded submits | freeJobAdded submits => cases submits
      | latchSettled | batchSettled => rfl
  · refine ⟨_, _, _, took, .inl ?_⟩
    rw [Op.visit?_of_panic deed panic, Option.toList_none, List.append_nil]
    exact lands.making (deed.of_panic panic).1 loose uncaught (hops.symm.trans took.ops) making

/-- How the making of a latch stands in `w` after the turns `moments`, where the thread at `index` is
the one called `who` that makes it: its continuation is still performed there, or the latch has been
made by a turn of this thread, knows how the continuation has ended, and has stayed so. -/
inductive Upfront (w : World α) (moments : List (Moment α)) (index : Nat) (who : Who) (o : Origin)
    (c : Construction) (programs : List Program) : Prop
  | going (t : Thread α) (got : w.threads[index]? = some t) (self : t.who = who)
      (making : Making o c programs (visits index moments) t.ops)
  | made (before after : List (Moment α)) (m : Moment α) (t : Thread α) (succeeded : Bool)
      (split : moments = before ++ m :: after) (mine : m.index = index)
      (got : m.world.threads[index]? = some t) (self : t.who = who)
      (due : t.ops = [.construct c succeeded])
      (tell : Visit.Tell programs (visits index before) succeeded)
      (found : w.store.latches[m.world.store.latches.length]? = some (Latch.settled succeeded))

theorem Run.upfront {moments : List (Moment α)} (h : u.Reachable) (run : u.Run moments w)
    (got : u.threads[index]? = some t)
    (ops : t.ops = [.perform o programs, .construct c true]) :
    w.Upfront moments index t.who o c programs := by
  induction run with
  | nil => exact .going t got rfl (ops ▸ .between [] programs rfl rfl)
  | @issue moments w run command ih =>
      cases ih with
      | going t' got' self making =>
          refine .going t' ?_ self making
          exact (List.getElem?_append_left (List.getElem?_eq_some_iff.mp got').1).trans got'
      | made before after m t' succeeded split mine got' self due tell found =>
          exact .made before after m t' succeeded split mine got' self due tell found
  | @turn moments w v run i pick took ih =>
      have reachable := run.reachable h
      cases ih with
      | made before after m t' succeeded split mine got' self due tell found =>
          refine .made before (after ++ [⟨w, i⟩]) m t' succeeded (by simp [split]) mine got' self due
            tell ?_
          exact reachable.decided_kept found (.inl rfl) (.tail .refl (.turn i pick took))
      | going t' got' self making =>
          have called : visits index (moments ++ [⟨w, i⟩]) =
              visits index moments ++ ((Moment.mk w i).visit? index).toList :=
            filterMap_concat _ moments _
          by_cases mine : i = index
          · subst mine
            obtain ⟨old, tail, e, took', making' | ⟨succeeded, due, tell, latches⟩⟩ :=
              making_of_turn reachable.orderly got' making took
            · obtain ⟨t'', after, who, ⟨apart, -⟩ | ⟨-, left⟩⟩ := took'.stays got'
              · exact absurd rfl apart
              · refine .going t'' after (who.trans self) (called ▸ ?_)
                rcases left with left | left
                · exact left ▸ making'
                · exact left ▸ making'.wake
            · refine .made moments [] ⟨w, i⟩ t' succeeded rfl rfl got' self due tell ?_
              rw [latches, List.getElem?_concat_length]
          · obtain ⟨t₁, old, tail, e, took'⟩ := took_of_turn reachable.orderly took
            obtain ⟨t'', after, who, ⟨-, left⟩ | ⟨here, -⟩⟩ := took'.stays got'
            · refine .going t'' after (who.trans self) (called ▸ ?_)
              rw [Moment.visit?, if_neg mine, Option.toList_none, List.append_nil]
              rcases left with left | left
              · exact left ▸ making
              · exact left ▸ making.wake
            · exact absurd here.symm mine

end World

end WorkerPool
