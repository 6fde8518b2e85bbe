import WorkerPool.Proofs.Later

/-! Runs turn by turn. Some properties are not about what a world has come to but about the order in
which things were done: which call had a lock first, and whose item was put into a ring before
whose. A `Run` keeps the turns of a run in a list, each with the world in which it was taken, so that
whatever a turn did can be read off the list afterwards. Commands are not turns; they only add
threads, and the threads that carry them out are numbered in the order in which they are given. -/

namespace WorkerPool

variable {α : Type}

/-- A turn of a run: the world in which it was taken, and the place of the thread that took it. -/
structure Moment (α : Type) where
  world : World α
  index : Nat

/-- Whose turn it is, with the operation that is due. -/
def Moment.due? (m : Moment α) : Option (Who × Op α) :=
  m.world.threads[m.index]?.bind fun t => t.ops.head?.map (t.who, ·)

/-- The number of a step. -/
def Who.step? : Who → Option Nat
  | .step index => some index
  | .worker .. => none

/-- What is read off the turns of a run grows by what the last turn adds. -/
theorem filterMap_concat {β γ : Type} (f : β → Option γ) (l : List β) (x : β) :
    (l ++ [x]).filterMap f = l.filterMap f ++ (f x).toList := by
  rw [List.filterMap_append]
  cases h : f x <;> simp [h]

/-- What replaces nothing is nothing. -/
theorem Act.ops_of_nil {around : Around} {s : Store α} {who : Who} {old : List (Op α)}
    {e : Effect α} (act : Act around s who old e) (nothing : old = []) : e.ops = [] := by
  cases act with
  | deed => cases nothing
  | broke payload loose lands uncaught =>
      have nothing := (List.append_eq_nil_iff.mp nothing).2
      cases lands with
      | nowhere => rfl
      | _ => cases nothing

namespace World

/-- The turns `moments`, oldest first, lead from `u` to `w`, with commands given in between. -/
inductive Run (u : World α) : List (Moment α) → World α → Prop
  | nil : Run u [] u
  | issue {moments : List (Moment α)} {w : World α} (run : Run u moments w) (command : Command α) :
      Run u moments (w.issue command)
  | turn {moments : List (Moment α)} {w v : World α} (run : Run u moments w) (index pick : Nat)
      (took : w.turn index pick = some v) : Run u (moments ++ [⟨w, index⟩]) v

variable {u v w : World α} {moments : List (Moment α)}

theorem Run.later (run : u.Run moments w) : u.Later w := by
  induction run with
  | nil => exact .refl
  | issue run command ih => exact ih.tail (.issue _ command)
  | turn run index pick took ih => exact ih.tail (.turn index pick took)

theorem Run.reachable (run : u.Run moments w) (reachable : u.Reachable) : w.Reachable :=
  reachable.later run.later

theorem Run.append {moments' : List (Moment α)} (run : u.Run moments v) (run' : v.Run moments' w) :
    u.Run (moments ++ moments') w := by
  induction run' with
  | nil => rwa [List.append_nil]
  | issue run' command ih => exact ih.issue command
  | turn run' index pick took ih =>
      rw [← List.append_assoc]
      exact ih.turn index pick took

theorem Later.run (later : u.Later w) : ∃ moments, u.Run moments w := by
  induction later with
  | refl => exact ⟨[], .nil⟩
  | tail earlier step ih =>
      obtain ⟨moments, run⟩ := ih
      cases step with
      | turn index pick took => exact ⟨_, run.turn index pick took⟩
      | issue command => exact ⟨moments, run.issue command⟩

/-- Every turn of a run was taken in a world between its two ends. -/
theorem Run.of_mem (run : u.Run moments w) {m : Moment α} (hm : m ∈ moments) :
    ∃ before after v pick, moments = before ++ m :: after ∧ u.Run before m.world ∧
      m.world.turn m.index pick = some v ∧ v.Run after w := by
  induction run with
  | nil => cases hm
  | issue run command ih =>
      obtain ⟨before, after, v, pick, rfl, hbefore, took, hafter⟩ := ih hm
      exact ⟨before, after, v, pick, rfl, hbefore, took, hafter.issue command⟩
  | @turn moments w' v' run index pick took ih =>
      rcases List.mem_append.mp hm with hm | hm
      · obtain ⟨before, after, v, pick', rfl, hbefore, took', hafter⟩ := ih hm
        exact ⟨before, after ++ [⟨w', index⟩], v, pick', by simp, hbefore, took',
          hafter.turn index pick took⟩
      · obtain rfl := List.mem_singleton.mp hm
        exact ⟨moments, [], v', pick, rfl, run, took, .nil⟩

/-! ### The operation that is due -/

theorem due?_eq {index : Nat} {t : Thread α} {op : Op α} {rest : List (Op α)}
    (got : w.threads[index]? = some t) (ops : t.ops = op :: rest) :
    (Moment.mk w index).due? = some (t.who, op) := by
  simp [Moment.due?, got, ops]

theorem of_due? {index : Nat} {who : Who} {op : Op α}
    (due : (Moment.mk w index).due? = some (who, op)) :
    ∃ t rest, w.threads[index]? = some t ∧ t.who = who ∧ t.ops = op :: rest := by
  obtain ⟨t, got, h⟩ := Option.bind_eq_some_iff.mp due
  obtain ⟨op', head, h⟩ := Option.map_eq_some_iff.mp h
  obtain ⟨rfl, rfl⟩ := Prod.mk.inj h
  obtain ⟨rest, ops⟩ := List.head?_eq_some_iff.mp head
  exact ⟨t, rest, got, rfl, ops⟩

/-- A turn of an operation that does not panic replaces this operation alone. -/
theorem took_of_due {index pick : Nat} {who : Who} {op : Op α} (orderly : w.Orderly)
    (due : (Moment.mk w index).due? = some (who, op)) (firm : ¬op.Raises)
    (took : w.turn index pick = some v) :
    ∃ t rest e, t.who = who ∧ op.effect (w.around index) w.store who = some e ∧
      w.Took v index t [op] rest e := by
  obtain ⟨t, rest, got, rfl, ops⟩ := of_due? due
  obtain ⟨e, effect, -, took, -⟩ := took_of_effect orderly got ops firm took
  exact ⟨t, rest, e, rfl, effect, took⟩

/-! ### The numbers of the steps -/

theorem map_who_wakeOne (bell : Bell) (pick : Nat) (threads : List (Thread α)) :
    (wakeOne bell pick threads).map (·.who) = threads.map (·.who) := by
  induction threads generalizing pick with
  | nil => rfl
  | cons t rest ih =>
      unfold wakeOne
      split
      · split
        · rfl
        · simp [ih]
      · simp [ih]

theorem map_who_rouse (alarm : Alarm) (pick : Nat) (threads : List (Thread α)) :
    (rouse alarm pick threads).map (·.who) = threads.map (·.who) := by
  cases alarm with
  | silent => rfl
  | one bell => exact map_who_wakeOne bell pick threads
  | everyone bell =>
      simp only [rouse, wakeAll, List.map_map]
      refine List.map_congr_left fun t _ => ?_
      simp only [Function.comp_apply]
      split <;> rfl

/-- A turn leaves the threads who they are; new ones come last. -/
theorem Took.map_who {index : Nat} {t : Thread α} {old tail : List (Op α)} {e : Effect α}
    (took : w.Took v index t old tail e) :
    v.threads.map (·.who) = w.threads.map (·.who) ++ e.births.map (·.who) := by
  obtain ⟨pick, answer, -, threads⟩ := took.threads
  rw [threads, List.map_append, map_who_rouse, List.map_set]
  congr 1
  have there : index < (w.threads.map (·.who)).length := by
    rw [List.length_map]
    exact (List.getElem?_eq_some_iff.mp took.got).1
  have who : (w.threads.map (·.who))[index] = t.who := by
    rw [List.getElem_map, (List.getElem?_eq_some_iff.mp took.got).2]
  exact who ▸ List.set_getElem_self there

/-- A thread stays at its place and who it is, and what it has to do changes in its own turns only.
-/
theorem Took.stays {i index : Nat} {t' t : Thread α} {old tail : List (Op α)} {e : Effect α}
    (took : w.Took v i t' old tail e) (got : w.threads[index]? = some t) :
    ∃ t'', v.threads[index]? = some t'' ∧ t''.who = t.who ∧
      ((index ≠ i ∧ (t''.ops = t.ops ∨ t''.ops = t.ops.modifyHead Op.wake)) ∨
        (index = i ∧ (t''.ops = e.ops ++ tail ∨ t''.ops = (e.ops ++ tail).modifyHead Op.wake))) := by
  have there : index < v.threads.length := by
    have := congrArg List.length took.map_who
    rw [List.length_append, List.length_map, List.length_map] at this
    have := (List.getElem?_eq_some_iff.mp got).1
    omega
  have after := List.getElem?_eq_getElem there
  refine ⟨_, after, ?_⟩
  rcases took.thread_at got after with ⟨apart, h | h⟩ | ⟨rfl, rfl, answer, -, h | h⟩
  · exact ⟨by rw [h], .inl ⟨apart, .inl (by rw [h])⟩⟩
  · exact ⟨by rw [h]; rfl, .inl ⟨apart, .inr (by rw [h]; rfl)⟩⟩
  · exact ⟨by rw [h], .inr ⟨rfl, .inl (by rw [h])⟩⟩
  · exact ⟨by rw [h]; rfl, .inr ⟨rfl, .inr (by rw [h]; rfl)⟩⟩

/-- The turns of the thread at `index`. -/
def turnsOf (index : Nat) (moments : List (Moment α)) : List (Moment α) :=
  moments.filter (·.index == index)

/-- A thread is followed through a run. The others at most wake it, so what its own turns keep, and
what does not mind a wake, holds of it in the end. -/
theorem Run.followed (run : u.Run moments w) (h : u.Reachable) {index : Nat} {t : Thread α}
    (got : u.threads[index]? = some t) {P : List (Moment α) → Thread α → Prop} (base : P [] t)
    (wake : ∀ own t, P own t → P own t.wake)
    (goes : ∀ {own x y pick t}, u.Later x → x.threads[index]? = some t →
      x.turn index pick = some y → P own t →
        ∃ t', y.threads[index]? = some t' ∧ P (own ++ [⟨x, index⟩]) t') :
    ∃ t', w.threads[index]? = some t' ∧ P (turnsOf index moments) t' := by
  induction run with
  | nil => exact ⟨t, got, base⟩
  | issue run command ih =>
      obtain ⟨t', got', holds⟩ := ih
      exact ⟨t', (List.getElem?_append_left (List.getElem?_eq_some_iff.mp got').1).trans got',
        holds⟩
  | @turn moments x y run i pick turn ih =>
      obtain ⟨t', got', holds⟩ := ih
      by_cases hi : i = index
      · subst hi
        have own : turnsOf i (moments ++ [⟨x, i⟩]) = turnsOf i moments ++ [⟨x, i⟩] := by
          simp [turnsOf]
        rw [own]
        exact goes run.later got' turn holds
      · have other : turnsOf index (moments ++ [⟨x, i⟩]) = turnsOf index moments := by
          simp [turnsOf, hi]
        rw [other]
        obtain ⟨t₀, old, tail, e, took⟩ := took_of_turn (run.reachable h).orderly turn
        obtain ⟨t'', got'', -⟩ := took.stays got'
        rcases took.thread_at got' got'' with ⟨-, rfl | rfl⟩ | ⟨rfl, -⟩
        · exact ⟨_, got'', holds⟩
        · exact ⟨_, got'', wake _ _ holds⟩
        · exact absurd rfl hi

theorem steps_of_turn {index pick : Nat} (took : w.turn index pick = some v) :
    v.steps = w.steps := by
  obtain ⟨t, got, took⟩ := Option.bind_eq_some_iff.mp took
  split at took
  · cases took
  · obtain ⟨e, -, rfl⟩ := Option.map_eq_some_iff.mp took
    rfl

/-- The numbers of the steps that the threads carry out. -/
def numbers (w : World α) : List Nat :=
  (w.threads.map (·.who)).filterMap Who.step?

/-- The threads that carry out commands are numbered from zero in the order of the commands. -/
theorem Reachable.numbers_eq (h : w.Reachable) : w.numbers = List.range w.steps := by
  induction h with
  | start cells => rfl
  | @next w v reachable step ih =>
      cases step with
      | issue command =>
          rw [numbers, issue, List.map_append, List.filterMap_append, ← numbers, ih,
            List.range_succ]
          rfl
      | turn index pick took =>
          have steps := steps_of_turn took
          obtain ⟨t, old, tail, e, took⟩ := took_of_turn reachable.orderly took
          have births : (e.births.map (·.who)).filterMap Who.step? = [] := by
            rw [List.filterMap_eq_nil_iff]
            intro who hwho
            obtain ⟨b, hb, rfl⟩ := List.mem_map.mp hwho
            obtain ⟨p, i, name, rfl, -⟩ := took.birth hb
            rfl
          rw [numbers, took.map_who, List.filterMap_append, births, List.append_nil, ← numbers, ih,
            steps]

/-- A step has not been given yet if its number is not smaller than the number of commands. -/
theorem Reachable.step_lt (h : w.Reachable) {t : Thread α} (ht : t ∈ w.threads) {number : Nat}
    (who : t.who = .step number) : number < w.steps := by
  have mem : number ∈ w.numbers :=
    List.mem_filterMap.mpr ⟨t.who, List.mem_map_of_mem ht, by rw [who]; rfl⟩
  rw [h.numbers_eq] at mem
  exact List.mem_range.mp mem

/-- No two threads carry out the same step. -/
theorem Reachable.step_unique (h : w.Reachable) {i j : Nat} {t u : Thread α}
    (got : w.threads[i]? = some t) (got' : w.threads[j]? = some u) {number : Nat}
    (who : t.who = .step number) (who' : u.who = .step number) : i = j := by
  have nodup : w.numbers.Nodup := h.numbers_eq ▸ List.nodup_range
  rw [numbers, List.Nodup, List.pairwise_filterMap, List.pairwise_map,
    List.pairwise_iff_getElem] at nodup
  have apart : ∀ {i j : Nat} {t u : Thread α}, w.threads[i]? = some t → w.threads[j]? = some u →
      t.who = .step number → u.who = .step number → ¬i < j := by
    intro i j t u got got' who who' hlt
    obtain ⟨hi, rfl⟩ := List.getElem?_eq_some_iff.mp got
    obtain ⟨hj, rfl⟩ := List.getElem?_eq_some_iff.mp got'
    exact nodup i j hi hj hlt number (by rw [who]; rfl) number (by rw [who']; rfl) rfl
  exact Nat.le_antisymm (Nat.le_of_not_lt (apart got' got who' who))
    (Nat.le_of_not_lt (apart got got' who who'))

/-- Commands are counted. -/
theorem Later.steps_le (later : u.Later w) : u.steps ≤ w.steps := by
  induction later with
  | refl => exact Nat.le_refl _
  | tail earlier step ih =>
      cases step with
      | issue command => exact Nat.le_succ_of_le ih
      | turn index pick took => exact ih.trans (Nat.le_of_eq (steps_of_turn took).symm)

/-- A step that has ended has nothing left to do, now and later. -/
theorem Later.ended (later : u.Later w) (h : u.Reachable) {t : Thread α} (ht : t ∈ u.threads)
    {number : Nat} (who : t.who = .step number) (ended : t.ops = []) :
    ∀ t' ∈ w.threads, t'.who = .step number → t'.ops = [] := by
  have given : number < u.steps := h.step_lt ht who
  suffices hall : number < w.steps ∧ ∀ t' ∈ w.threads, t'.who = .step number → t'.ops = [] from
    hall.2
  induction later with
  | refl =>
      refine ⟨given, fun t' ht' who' => ?_⟩
      obtain ⟨i, got⟩ := List.mem_iff_getElem?.mp ht
      obtain ⟨j, got'⟩ := List.mem_iff_getElem?.mp ht'
      obtain rfl := h.step_unique got got' who who'
      exact Option.some.inj (got.symm.trans got') ▸ ended
  | @tail w v earlier step ih =>
      cases step with
      | issue command =>
          refine ⟨Nat.lt_succ_of_lt ih.1, fun t' ht' who' => ?_⟩
          rcases List.mem_append.mp ht' with ht' | ht'
          · exact ih.2 t' ht' who'
          · obtain rfl := List.mem_singleton.mp ht'
            exact absurd (Who.step.inj who') (Nat.ne_of_gt ih.1)
      | turn index pick took =>
          refine ⟨steps_of_turn took ▸ ih.1, ?_⟩
          obtain ⟨t, old, tail, e, took⟩ := took_of_turn (h.later earlier).orderly took
          refine took.forall_threads (P := fun who ops => who = .step number → ops = [])
            (fun who op ops h who' => nomatch h who') ih.2 (fun who' => ?_) fun b hb who' => ?_
          · have gone : old ++ tail = [] := by
              rw [← took.ops]
              exact ih.2 t took.mem_threads who'
            obtain ⟨rfl, rfl⟩ := List.append_eq_nil_iff.mp gone
            rw [List.append_nil]
            exact took.act.ops_of_nil rfl
          · obtain ⟨p, i, name, rfl, -⟩ := took.birth hb
            cases who'

/-! ### Runs of commands -/

theorem turn_of_advanceFrom {index count running : Nat} {next : World α}
    (advance : w.advanceFrom index count = some (running, next)) :
    w.turn running 0 = some next := by
  induction count generalizing index with
  | zero => cases advance
  | succ count ih =>
      unfold advanceFrom at advance
      split at advance
      · rename_i took
        cases advance
        exact took
      · exact ih advance

theorem turn_of_advance {index running : Nat} {next : World α}
    (advance : w.advance index = some (running, next)) : w.turn running 0 = some next := by
  unfold World.advance at advance
  split at advance
  · rename_i took
    cases advance
    exact took
  · exact turn_of_advanceFrom advance

/-- The turns that the threads take until they have settled. -/
def settling : Nat → Nat → World α → List (Moment α)
  | 0, _, _ => []
  | limit + 1, running, w =>
    match w.advance running with
    | some (running, next) => ⟨w, running⟩ :: settling limit running next
    | none => []

theorem run_settling (limit running : Nat) (w : World α) :
    w.Run (settling limit running w) (w.settle limit running) := by
  induction limit generalizing running w with
  | zero => exact .nil
  | succ limit ih =>
      cases advance : w.advance running with
      | none =>
          simp only [settling, settle, advance]
          exact .nil
      | some next =>
          simp only [settling, settle, advance]
          exact (Run.nil.turn next.1 0 (turn_of_advance advance)).append (ih next.1 next.2)

/-- The turns that are taken while some commands are followed. -/
def following (limit : Nat) : List (Command α) → World α → List (Moment α)
  | [], _ => []
  | command :: rest, w =>
    settling limit w.threads.length (w.issue command) ++
      following limit rest ((w.issue command).settle limit w.threads.length)

theorem run_following (limit : Nat) (commands : List (Command α)) (w : World α) :
    w.Run (following limit commands w) (follow limit commands w) := by
  induction commands generalizing w with
  | nil => exact .nil
  | cons command rest ih =>
      exact ((Run.nil.issue command).append (run_settling limit w.threads.length _)).append
        (ih ((w.issue command).settle limit w.threads.length))

end World

end WorkerPool
