import WorkerPool.Proofs.Accounts
import WorkerPool.Proofs.Cells
import WorkerPool.Proofs.Enactment

/-! What a performance carries out. The functions of a performance are called one after the other,
so at most one of them is under way at a time, and until one of them panics every turn that is taken
on account of the performance carries out the next action of this one. Whatever happens in between,
the actions that a run carries out on account of an item, a latch or a batch are therefore those of
the functions that it calls on this account, in order, up to what is left of the last one. Of a
performance that is over they are the actions of all its functions. -/

namespace WorkerPool

variable {α : Type}

/-- What is left of the function on account of `o` that the operation is in the middle of. -/
def Op.underWay (o : Origin) : Op α → Multiset Program
  | .code origin _ (some left) _ => if origin = o then {left} else 0
  | _ => 0

/-- The action that the operation carries out in its next turn on account of `o`. -/
def Op.actOf? (o : Origin) (op : Op α) : Option Action :=
  op.act?.bind fun (origin, action) => if origin = o then some action else none

/-- The action that is carried out in a turn on account of `o`. -/
def Moment.actOf? (o : Origin) (m : Moment α) : Option Action :=
  m.act?.bind fun (origin, action) => if origin = o then some action else none

/-- Whether the part is a chain of which a function is under way. -/
def Part.Inside : Part → Prop
  | .code _ _ inside _ => inside = true
  | .catcher .. => False

instance : DecidablePred Part.Inside
  | .code _ _ inside _ => inferInstanceAs (Decidable (inside = true))
  | .catcher .. => inferInstanceAs (Decidable False)

/-- What a turn means for the functions on one account: what is left of those under way before it,
the action that it carries out, the functions that it calls, and what is left after it. -/
inductive Carries : Multiset Program → Option Action → List Program → Multiset Program → Prop
  | rest (c : Multiset Program) : Carries c none [] c
  | call (program : Program) : Carries 0 none [program] {program}
  | act (action : Action) (left : Program) :
      Carries {action :: left} (some action) [] {left}
  | back : Carries {[]} none [] 0

/-- The actions `acts` are those of the functions `called`, up to what is left of the one that is
under way. -/
inductive Progress (acts : List Action) (called : List Program) : Multiset Program → Prop
  | between (all : acts = called.flatten) : Progress acts called 0
  | inside (left : Program) (front : acts ++ left = called.flatten) : Progress acts called {left}

theorem Progress.front {acts : List Action} {called : List Program} {left : Multiset Program}
    (progress : Progress acts called left) : acts <+: called.flatten := by
  cases progress with
  | between all => exact all ▸ List.prefix_rfl
  | inside left front => exact ⟨left, front⟩

theorem Progress.all {acts : List Action} {called : List Program}
    (progress : Progress acts called 0) : acts = called.flatten := by
  generalize hnone : (0 : Multiset Program) = left at progress
  cases progress with
  | between all => exact all
  | inside left => exact absurd hnone.symm (Multiset.singleton_ne_zero left)

theorem Carries.progress {before after : Multiset Program} {act? : Option Action}
    {acts : List Action} {called new : List Program} (carries : Carries before act? new after)
    (progress : Progress acts called before) :
    Progress (acts ++ act?.toList) (called ++ new) after := by
  cases carries with
  | rest c => simpa using progress
  | call program =>
      generalize hnone : (0 : Multiset Program) = left at progress
      cases progress with
      | between all => exact .inside program (by simp [all])
      | inside left front => exact absurd hnone.symm (Multiset.singleton_ne_zero left)
  | act action rest =>
      generalize hone : ({action :: rest} : Multiset Program) = left at progress
      cases progress with
      | between all => exact absurd hone (Multiset.singleton_ne_zero _)
      | inside left front =>
          obtain rfl := Multiset.singleton_inj.mp hone
          exact .inside rest (by simpa using front)
  | back =>
      generalize hone : ({[]} : Multiset Program) = left at progress
      cases progress with
      | between all => exact absurd hone (Multiset.singleton_ne_zero _)
      | inside left front =>
          obtain rfl := Multiset.singleton_inj.mp hone
          exact .between (by simpa using front)

/-- Beside a function that a turn is about, there is nothing else under way. -/
theorem Carries.add {before after r : Multiset Program} {act? : Option Action} {new : List Program}
    (carries : Carries before act? new after) (few : (before + r).card ≤ 1)
    (few' : (after + r).card ≤ 1) : Carries (before + r) act? new (after + r) := by
  have alone : ∀ {left : Program}, (({left} : Multiset Program) + r).card ≤ 1 → r = 0 := by
    intro left few
    rw [Multiset.card_add, Multiset.card_singleton] at few
    exact Multiset.card_eq_zero.mp (by omega)
  cases carries with
  | rest => exact .rest _
  | call program =>
      obtain rfl := alone few'
      exact .call program
  | act action rest =>
      obtain rfl := alone few
      exact .act action rest
  | back =>
      obtain rfl := alone few
      exact .back

namespace Op

variable {o : Origin} {who : Who}

theorem underWay_wake (o : Origin) (op : Op α) : op.wake.underWay o = op.underWay o := by
  cases op with
  | work p index phase => cases phase <;> rfl
  | submit sub phase => cases phase <;> rfl
  | _ => rfl

theorem card_underWay (o : Origin) (who : Who) (op : Op α) :
    (op.underWay o).card = (op.parts o who).countP Part.Inside := by
  rcases parts_cases o who op with none | ⟨position, current, later, rfl, code⟩ |
    ⟨programs, fine, catcher⟩
  · rw [none]
    cases op with
    | code origin position current later =>
        have other : origin ≠ o := fun hit => by simp [parts, hit] at none
        cases current <;> simp [underWay, other]
    | _ => rfl
  · rw [code]
    cases current with
    | none => rfl
    | some left => exact congrArg Multiset.card (if_pos rfl)
  · rw [catcher]
    cases op with
    | code origin position current later =>
        by_cases hit : origin = o <;> simp [parts, hit] at catcher
    | _ => exact ((Multiset.countP_eq_zero).mpr (by simp [Part.Inside])).symm

/-- As many functions are under way as the parts of the performance say. -/
theorem card_sum_underWay (o : Origin) (who : Who) (ops : List (Op α)) :
    (ops.map (underWay o)).sum.card = (ops.map (parts o who)).sum.countP Part.Inside := by
  induction ops with
  | nil => rfl
  | cons op ops ih =>
      rw [List.map_cons, List.map_cons, List.sum_cons, List.sum_cons, Multiset.card_add,
        Multiset.countP_add, ih, card_underWay o who]

theorem sum_underWay_eq_zero {ops : List (Op α)} (none : (ops.map (parts o who)).sum = 0) :
    (ops.map (underWay o)).sum = 0 := by
  rw [← Multiset.card_eq_zero, card_sum_underWay o who, none, Multiset.countP_zero]

end Op

/-- The functions that an act calls on account of `o`. -/
def Effect.called (e : Effect α) (o : Origin) (who : Who) : List Program :=
  (e.calls o who).reverse.filterMap (·.2.program?)

theorem Performance.countP_inside_le (state : Performance) :
    state.parts.countP Part.Inside ≤ 1 := by
  cases state <;> first | exact Nat.zero_le 1 | exact Nat.le_refl 1

/-- Where no chain of functions is left in front, no function is called, and none gets under way. -/
theorem Performs.of_uncoded {o : Origin} {who : Who} {begins ends : Prop}
    {before after : Multiset Part} {notes : List (Who × Entry)}
    (performs : Performs o who begins ends before notes after) (uncoded : codes before = 0) :
    notes.reverse.filterMap (·.2.program?) = [] ∧ after.countP Part.Inside = 0 := by
  cases performs with
  | rest =>
      refine ⟨rfl, Multiset.countP_eq_zero.mpr fun part hpart inside => ?_⟩
      have := Multiset.countP_eq_zero.mp uncoded part hpart
      cases part with
      | code => exact this rfl
      | catcher => exact inside
  | _ => first | exact ⟨rfl, rfl⟩ | simp at uncoded

section Deeds

variable {around : Around} {s : Store α} {who : Who} {e : Effect α} {o : Origin}

theorem Effect.called_eq_nil (silent : ∀ note ∈ e.notes, note.program? = none) :
    e.called o who = [] := by
  refine List.filterMap_eq_nil_iff.mpr fun x hx => ?_
  obtain ⟨note, hnote, rfl⟩ :=
    List.mem_map.mp (List.mem_reverse.mp (List.mem_filter.mp (List.mem_reverse.mp hx)).1)
  exact silent note hnote

theorem Entry.Plain.program? {note : Entry} (plain : note.Plain) : note.program? = none := by
  cases note with
  | called => exact plain.elim
  | _ => rfl

/-- An operation that does not perform functions on account of `o` leaves those under way alone. -/
theorem Deed.carries_of_other {op : Op α} (deed : Deed around s who op e) (quiet : e.panic = none)
    {rest : List (Op α)} (before : op.Before who rest) (ho : o ≠ .caller)
    (other : ∀ position current later, op ≠ .code o position current later) :
    Carries (op.underWay o) (op.actOf? o) (e.called o who) (e.ops.map (Op.underWay o)).sum := by
  have uncoded : codes (op.parts o who) = 0 := by
    rcases op.parts_cases o who with none | ⟨_, _, _, code, -⟩ | ⟨_, _, catcher⟩
    · rw [none, codes_zero]
    · exact absurd code (other _ _ _)
    · rw [catcher, codes_catcher]
  obtain ⟨called, after⟩ := (deed.performs quiet before ho).of_uncoded uncoded
  have after : (e.ops.map (Op.underWay o)).sum = 0 := by
    rw [Effect.parts, Multiset.countP_add] at after
    rw [← Multiset.card_eq_zero, Op.card_sum_underWay o who]
    omega
  have underWay : op.underWay o = 0 := by
    unfold Op.underWay
    split
    · exact if_neg fun hit => other _ _ _ (by rw [hit])
    · rfl
  have act : op.actOf? o = none := by
    refine Option.bind_eq_none_iff.mpr ?_
    rintro ⟨origin, action⟩ hact
    obtain ⟨position, left, later, rfl⟩ := Op.of_act? hact
    exact if_neg fun hit => other _ _ _ (by rw [hit])
  rw [underWay, act, after, show e.called o who = [] from called]
  exact .rest 0

theorem Carries.of_eq {before before' after after' : Multiset Program} {act? act?' : Option Action}
    {called called' : List Program} (h : Carries before act? called after)
    (hbefore : before' = before) (hact : act?' = act?) (hcalled : called' = called)
    (hafter : after' = after) : Carries before' act?' called' after' := by
  subst hbefore hact hcalled hafter
  exact h

/-- What a turn means for the functions on account of `o`. -/
theorem Deed.carries {op : Op α} (deed : Deed around s who op e) (quiet : e.panic = none)
    {rest : List (Op α)} (before : op.Before who rest) (ho : o ≠ .caller) :
    Carries (op.underWay o) (op.actOf? o) (e.called o who) (e.ops.map (Op.underWay o)).sum := by
  by_cases own : ∃ position current later, op = .code o position current later
  case neg =>
      exact deed.carries_of_other quiet before ho fun position current later heq =>
        own ⟨position, current, later, heq⟩
  obtain ⟨position, current, later, rfl⟩ := own
  cases deed with
  | codeOver => exact .rest 0
  | codeCalled _ _ program =>
      refine (Carries.call program).of_eq rfl rfl ?_ (by simp [Op.underWay])
      simp [Effect.called, Effect.calls, Entry.calls, Entry.program?]
  | codeReturned =>
      refine Carries.back.of_eq (if_pos rfl) rfl ?_ (by simp [Op.underWay])
      simp [Effect.called, Effect.calls, Entry.calls, Entry.program?]
  | acted _ _ action left _ eases leaves plain =>
      refine (Carries.act action left).of_eq (if_pos rfl) (if_pos rfl) ?_ ?_
      · exact Effect.called_eq_nil fun note hnote => (plain note hnote).program?
      · rw [List.map_append, List.sum_append,
          Op.sum_underWay_eq_zero (sum_parts_of_free leaves.free ho who)]
        simp [Op.underWay]
  | jobAdded submits | freeJobAdded submits =>
      cases submits with
      | action _ _ action left =>
          refine (Carries.act action left).of_eq (if_pos rfl) (if_pos rfl) ?_ ?_
          · exact Effect.called_eq_nil (by simp [Entry.program?])
          · simp [Op.underWay]
  | actionRaised => cases quiet

/-- A panic that ends no function on account of `o` leaves those under way alone. -/
theorem Op.Lands.underWay {payload : Payload} {old new : List (Op α)} {notes : List Entry}
    (lands : Op.Lands payload old new notes) (calm : ∀ k, .raised o k ∉ notes) :
    (old.map (Op.underWay o)).sum = 0 ∧ (new.map (Op.underWay o)).sum = 0 := by
  cases lands with
  | nowhere => exact ⟨rfl, rfl⟩
  | item position _ _ p _ item =>
      have other : .item p item.id ≠ o := fun hit => calm (position - 1) (by simp [hit])
      simp [Op.underWay, other]
  | finale position _ _ l =>
      have other : .latch l ≠ o := fun hit => calm (position - 1) (by simp [hit])
      simp [Op.underWay, other]
  | batch position _ _ p _ id =>
      have other : .batch p id ≠ o := fun hit => calm (position - 1) (by simp [hit])
      simp [Op.underWay, other]
  | latchMade position =>
      have other : .caller ≠ o := fun hit => calm (position - 1) (by simp [hit])
      simp [Op.underWay, other]

/-- A panic that ends no function on account of `o` does not begin with an action on this account.
-/
theorem Op.Lands.actOf?_eq_none {payload : Payload} {above old new tail rest : List (Op α)}
    {notes : List Entry} (lands : Op.Lands payload old new notes)
    (loose : ∀ passed ∈ above, passed.Loose) (ho : o ≠ .caller) (calm : ∀ k, .raised o k ∉ notes)
    (ends : old = [] → tail = []) {op : Op α} (ops : op :: rest = above ++ old ++ tail) :
    op.actOf? o = none := by
  refine Option.bind_eq_none_iff.mpr ?_
  rintro ⟨origin, action⟩ hact
  obtain ⟨position, left, later, rfl⟩ := Op.of_act? hact
  refine if_neg fun hit => ?_
  subst hit
  cases above with
  | cons passed above =>
      obtain ⟨rfl, -⟩ := List.cons.inj ops
      exact ho (loose _ List.mem_cons_self).1
  | nil =>
      cases lands with
      | nowhere => simp [ends rfl] at ops
      | _ =>
          cases ops
          exact calm (position - 1) (by simp)

end Deeds

namespace World

variable {u v w : World α} {o : Origin} {index pick : Nat} {moments : List (Moment α)}

/-- What is left of the functions on account of `o` that are under way. -/
def underWay (w : World α) (o : Origin) : Multiset Program :=
  w.load fun _ op => op.underWay o

/-- The functions that have been called on account of `o`, in order. -/
def called (w : World α) (o : Origin) : List Program :=
  (w.calls o).reverse.filterMap (·.2.program?)

theorem card_underWay (w : World α) (o : Origin) :
    (w.underWay o).card = (w.parts o).countP Part.Inside := by
  unfold underWay parts load total
  induction w.threads with
  | nil => rfl
  | cons t threads ih =>
      rw [List.map_cons, List.map_cons, List.sum_cons, List.sum_cons, Multiset.card_add,
        Multiset.countP_add, ih, Op.card_sum_underWay o t.who]

/-- Of a performance one function is under way at most. -/
theorem Reachable.card_underWay_le (h : w.Reachable) (ho : o ≠ .caller) :
    (w.underWay o).card ≤ 1 := by
  obtain ⟨state, stands⟩ := h.stands ho
  rw [card_underWay, stands.left]
  exact state.countP_inside_le

/-- Before any function has been called, none is under way. -/
theorem Reachable.underWay_eq_zero (h : w.Reachable) (ho : o ≠ .caller) (fresh : w.calls o = []) :
    w.underWay o = 0 := by
  obtain ⟨state, stands⟩ := h.stands ho
  rw [← Multiset.card_eq_zero, card_underWay, stands.left]
  have account := stands.trail.reverse_eq
  rw [fresh] at account
  cases state with
  | inside => simp [Performance.account] at account
  | _ => rfl

theorem Took.underWay {t : Thread α} {old tail : List (Op α)} {e : Effect α}
    (took : w.Took v index t old tail e) (o : Origin) :
    ∃ r, w.underWay o = (old.map (Op.underWay o)).sum + r ∧
      v.underWay o = (e.ops.map (Op.underWay o)).sum + r :=
  took.load_of_start (fun _ op => op.underWay o) (fun _ op => op.underWay_wake o) fun _ _ _ => rfl

theorem Took.called {t : Thread α} {old tail : List (Op α)} {e : Effect α}
    (took : w.Took v index t old tail e) (o : Origin) :
    v.called o = w.called o ++ e.called o t.who := by
  rw [World.called, took.calls, List.reverse_append, List.filterMap_append]
  rfl

/-- What a turn means for the functions on account of `o`, unless it ends one of them by a panic. -/
theorem Reachable.carries (h : w.Reachable) (ho : o ≠ .caller) (turn : w.turn index pick = some v)
    (calm : ∀ who k, (who, .raised o k) ∉ v.history) :
    ∃ called, v.called o = w.called o ++ called ∧
      Carries (w.underWay o) ((Moment.mk w index).actOf? o) called (v.underWay o) := by
  obtain ⟨t, got, due⟩ := Option.bind_eq_some_iff.mp turn
  split at due
  · cases due
  rename_i op rest ops
  have few := h.card_underWay_le ho
  have few' := (Reachable.next h (.turn _ _ turn)).card_underWay_le ho
  have act : (Moment.mk w index).actOf? o = op.actOf? o := by
    rw [Moment.actOf?, act?_eq got ops]
    rfl
  rw [act]
  have stack := h.orderly.ordered t (List.mem_of_getElem? got)
  rw [ops] at stack
  obtain ⟨e, -, -, deed, ⟨quiet, took⟩ | ⟨_, above, old, new, notes, tail, -, loose, lands, ends,
    took⟩⟩ := took_cases h.orderly got ops turn
  · refine ⟨e.called o t.who, took.called o, ?_⟩
    obtain ⟨r, hw, hv⟩ := took.underWay o
    rw [List.map_singleton, List.sum_singleton] at hw
    rw [hw] at few ⊢
    rw [hv] at few' ⊢
    exact (deed.carries quiet stack.1 ho).add few few'
  · have calm : ∀ k, .raised o k ∉ notes := fun k raised => calm t.who k <| by
      rw [took.history]
      simp [raised]
    refine ⟨[], ?_, ?_⟩
    · rw [took.called, Effect.called_eq_nil fun note hnote => ?_]
      rcases lands.of_mem_notes hnote with ⟨_, _, rfl⟩ | rfl <;> rfl
    · obtain ⟨r, hw, hv⟩ := took.underWay o
      have passed : (above.map (Op.underWay o)).sum = 0 :=
        Op.sum_underWay_eq_zero
          (sum_parts_of_plain (fun op hop => (loose op hop).plain) ho t.who)
      obtain ⟨before, after⟩ := lands.underWay calm
      rw [List.map_append, List.sum_append, passed, before, zero_add, zero_add] at hw
      rw [after, zero_add] at hv
      rw [lands.actOf?_eq_none loose ho calm ends (ops.symm.trans took.ops), hw, hv]
      exact .rest r

/-- The actions of a run on account of `o` are those of the functions that it calls. -/
theorem Run.progress (run : u.Run moments w) (h : u.Reachable) (ho : o ≠ .caller)
    (fresh : u.calls o = []) (calm : ∀ who k, (who, .raised o k) ∉ w.history) :
    Progress (moments.filterMap (·.actOf? o)) (w.called o) (w.underWay o) := by
  induction run with
  | nil =>
      rw [h.underWay_eq_zero ho fresh]
      exact .between (by simp [World.called, fresh])
  | @issue moments w run command ih =>
      have underWay : (w.issue command).underWay o = w.underWay o := by
        rw [World.underWay, load_issue]
        exact add_zero _
      rw [underWay]
      exact ih calm
  | @turn moments w v run index pick turn ih =>
      have reachable := run.reachable h
      have before : ∀ who k, (who, .raised o k) ∉ w.history := fun who k raised =>
        calm who k (Later.history_subset (.single (.turn _ _ turn)) reachable raised)
      obtain ⟨called, hcalled, carries⟩ := reachable.carries ho turn calm
      rw [filterMap_concat, hcalled]
      exact carries.progress (ih before)

/-- Of a performance that has been begun and come to its end in a run, the actions are those of all
its functions, in order. -/
theorem Run.acts_of_completedBy (run : u.Run moments w) (h : u.Reachable) (ho : o ≠ .caller)
    (fresh : u.calls o = []) {who : Who} {programs : List Program}
    (completed : w.CompletedBy who o programs) :
    moments.filterMap (·.actOf? o) = programs.flatten := by
  have called : w.called o = programs := by
    rw [World.called, completed.trail.reverse_eq]
    exact o.programs_account who 0 programs
  have underWay : w.underWay o = 0 := by
    rw [← Multiset.card_eq_zero, card_underWay, completed.left]
    rfl
  have progress := run.progress h ho fresh fun who' k => completed.not_raised
  rw [called, underWay] at progress
  exact progress.all

/-- Nothing is carried out on account of `o` as long as no function is called. -/
theorem Run.acts_of_uncalled (run : u.Run moments w) (h : u.Reachable) (ho : o ≠ .caller)
    (fresh : u.calls o = []) (uncalled : w.calls o = []) :
    moments.filterMap (·.actOf? o) = [] := by
  have calm : ∀ who k, (who, .raised o k) ∉ w.history := fun who k raised => by
    have mem : (who, .raised o k) ∈ w.calls o := List.mem_filter.mpr ⟨raised, beq_self_eq_true o⟩
    rw [uncalled] at mem
    cases mem
  have front := (run.progress h ho fresh calm).front
  rw [World.called, uncalled] at front
  exact List.prefix_nil.mp front

end World

end WorkerPool
