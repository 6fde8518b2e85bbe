import Mathlib.Algebra.Ring.Int.Defs
import WorkerPool.Proofs.Completions
import WorkerPool.Proofs.Later
import WorkerPool.Proofs.Urgency

/-! Calls among the turns of other threads. A submission or a shutdown takes many turns, and others
take theirs in between. A stretch of a run tells the turns of such a call from those of others, so
that what the call does can be added up. As long as the thread that makes the call is not asleep,
others leave alone what it has to do.

What both calls have to do for items that nobody will perform is told here as well: each of them is
counted as a failure on its latch and counted out of the backlog, and nothing in that has to wait.
-/

namespace WorkerPool

variable {α : Type}

namespace Op

/-- The operation is part of a submission or of a shutdown, or of a call that these make. -/
def OfCall : Op α → Prop
  | .submit .. | .shutDown .. | .latch _ (.count _) _ | .latch _ .announce _
  | .latch _ (.wait _) (.refused _) | .backlog _ .leave | .backlog _ .announce => True
  | _ => False

theorem OfCall.firm {op : Op α} (mine : op.OfCall) : ¬op.Raises := by
  rintro ⟨⟩ <;> exact mine

/-- The operation settles items of the pool at `p` that nobody will perform: it counts a failure on
the latch of a ticket, counts an item out, or wakes whoever has waited for that. -/
inductive Clears (h : List (Who × Entry)) (p : Nat) : Op α → Prop
  | count (l q : Nat) (ticket : Ticket) (ticketed : Recorded h (.ticketed q ticket))
      (told : ticket.latch = some l) : Clears h p (.latch l (.count true) .nobody)
  | zero (l : Nat) : Clears h p (.latch l .announce .nobody)
  | leave : Clears h p (.backlog p .leave)
  | idle : Clears h p (.backlog p .announce)

theorem Clears.mono {h h' : List (Who × Entry)} (sub : h ⊆ h') {p : Nat} {op : Op α}
    (clears : op.Clears h p) : op.Clears h' p := by
  cases clears with
  | count l q ticket ticketed told => exact .count l q ticket (ticketed.mono sub) told
  | zero l => exact .zero l
  | leave => exact .leave
  | idle => exact .idle

theorem Clears.awake {h : List (Who × Entry)} {p : Nat} {op : Op α} (clears : op.Clears h p) :
    op.sleepsAt = none := by
  cases clears <;> rfl

theorem clears_discard {h : List (Who × Entry)} {p : Nat} {item : Item} (known : item.Known h p) :
    ∀ op ∈ (discard p item : List (Op α)), op.Clears h p := by
  intro op hop
  obtain ⟨ticket, ticketed, part⟩ := known
  rcases List.mem_append.mp hop with hop | hop
  · obtain ⟨l, hl, rfl⟩ := List.mem_map.mp hop
    exact .count l p ticket ticketed (part.latch.symm.trans (Option.mem_toList.mp hl))
  · obtain rfl := List.mem_singleton.mp hop
    exact .leave

/-- Only a sleeper can be woken. -/
theorem wake_of_awake {op : Op α} (awake : op.sleepsAt = none) : op.wake = op := by
  have hstage : ∀ stage : Stage, (stage == .asleep) = false → stage.wake = stage := by
    intro stage h
    cases stage <;> first | rfl | cases h
  cases op with
  | monitor place call =>
      cases call <;> simp_all [wake, sleepsAt, Monitor.Call.wake, Monitor.Call.asleep]
  | channel place call =>
      cases call <;> simp_all [wake, sleepsAt, Channel.Call.wake, Channel.Call.asleep]
  | latch l call waiter =>
      cases call <;> simp_all [wake, sleepsAt, Latch.Call.wake, Latch.Call.asleep]
  | backlog p call =>
      cases call <;> simp_all [wake, sleepsAt, Backlog.Call.wake, Backlog.Call.asleep]
  | submit sub phase =>
      cases phase with
      | send call =>
          cases call <;> simp_all [wake, sleepsAt, Channel.Call.wake, Channel.Call.asleep]
      | _ => rfl
  | work p i phase =>
      cases phase with
      | receive call =>
          cases call <;> simp_all [wake, sleepsAt, Channel.Call.wake, Channel.Call.asleep]
      | _ => rfl
  | _ => rfl

end Op

section Deeds

variable {around : Around} {s : Store α} {who : Who} {e : Effect α}

/-- What settles items leaves less to settle, and counts as many failures as it had at stake. -/
theorem Deed.clears {op : Op α} (deed : Deed around s who op e) {h : List (Who × Entry)} {p : Nat}
    (clears : op.Clears h p) (effective : ∀ l failed waiter, op = .latch l (.count failed) waiter →
      ∃ latch, s.latches[l]? = some latch ∧ latch.counts = true) :
    (∀ op' ∈ e.ops, op'.Clears h p) ∧ ∀ l,
      (e.notes.map (Entry.counts l true)).sum + (e.ops.map (Op.stakes l)).sum = op.stakes l := by
  cases clears with
  | count k q ticket ticketed told =>
      obtain ⟨latch, hfound, hcounts⟩ := effective k true .nobody rfl
      cases deed with
      | jobAdded submits | freeJobAdded submits => cases submits
      | countIgnored _ m _ found idle =>
          obtain rfl := Option.some.inj (found.symm.trans hfound)
          rw [idle] at hcounts
          cases hcounts
      | countSkipped =>
          refine ⟨fun op' hop => ?_, fun l => by simp [Entry.counts, Op.stakes]⟩
          obtain rfl := List.mem_singleton.mp hop
          exact .zero k
      | counted _ m _ found counts plain =>
          refine ⟨fun op' hop => ?_, fun l => ?_⟩
          · dsimp only at hop
            split at hop
            · obtain rfl := List.mem_singleton.mp hop
              exact .zero k
            · cases hop
          · dsimp only
            split <;> simp [Entry.counts, Op.stakes]
  | zero k =>
      cases deed with
      | jobAdded submits | freeJobAdded submits => cases submits
      | latchAnnounced => exact ⟨by simp, fun l => rfl⟩
  | leave =>
      cases deed with
      | jobAdded submits | freeJobAdded submits => cases submits
      | left _ pool found =>
          refine ⟨fun op' hop => ?_, fun l => ?_⟩
          · dsimp only at hop
            split at hop
            · obtain rfl := List.mem_singleton.mp hop
              exact .idle
            · cases hop
          · dsimp only
            split <;> rfl
  | idle =>
      cases deed with
      | jobAdded submits | freeJobAdded submits => cases submits
      | backlogAnnounced => exact ⟨by simp, fun l => rfl⟩

end Deeds

theorem Thread.wake_of_awake {t : Thread α}
    (awake : ∀ op rest, t.ops = op :: rest → op.sleepsAt = none) : t.wake = t := by
  obtain ⟨who, ops, answer⟩ := t
  cases ops with
  | nil => rfl
  | cons op rest => rw [Thread.wake, List.modifyHead_cons, Op.wake_of_awake (awake op rest rfl)]

namespace World

/-- A stretch of a run from `w` on, in which the thread at `index` takes turns of a call only. These
turns are listed, the latest one first, each as the world before it and the world after it. -/
inductive During (index : Nat) (w : World α) : List (World α × World α) → World α → Prop
  | start : During index w [] w
  | own {turns : List (World α × World α)} {u v : World α} (earlier : During index w turns u)
      (t : Thread α) (op : Op α) (rest : List (Op α)) (pick : Nat)
      (got : u.threads[index]? = some t) (ops : t.ops = op :: rest) (mine : op.OfCall)
      (turn : u.turn index pick = some v) : During index w ((u, v) :: turns) v
  | other {turns : List (World α × World α)} {u v : World α} (earlier : During index w turns u)
      (i pick : Nat) (apart : i ≠ index) (turn : u.turn i pick = some v) : During index w turns v
  | issue {turns : List (World α × World α)} {u : World α} (earlier : During index w turns u)
      (command : Command α) : During index w turns (u.issue command)

/-- By how much the listed turns have changed a number between them. -/
def share (f : World α → Int) (turns : List (World α × World α)) : Int :=
  (turns.map fun (u, v) => f v - f u).sum

@[simp] theorem share_nil (f : World α → Int) : share f [] = 0 := rfl

@[simp] theorem share_cons (f : World α → Int) (u v : World α) (turns : List (World α × World α)) :
    share f ((u, v) :: turns) = (f v - f u) + share f turns := by
  rw [share, List.map_cons, List.sum_cons]
  rfl

variable {w v : World α} {index : Nat} {turns : List (World α × World α)}

theorem During.later (during : During index w turns v) : w.Later v := by
  induction during with
  | start => exact .refl
  | own _ _ _ _ pick _ _ _ turn ih => exact ih.tail (.turn index pick turn)
  | other _ i pick _ turn ih => exact ih.tail (.turn i pick turn)
  | issue _ command ih => exact ih.tail (.issue _ command)

/-- What settles items makes as many counts as it has at stake. -/
theorem Took.clears {t : Thread α} {op : Op α} {tail : List (Op α)} {e : Effect α}
    (h : w.Reachable) (took : w.Took v index t [op] tail e)
    (deed : Deed (w.around index) w.store t.who op e) {p : Nat} (clears : op.Clears w.history p) :
    (∀ op' ∈ e.ops, op'.Clears v.history p) ∧
      ∀ l, v.counts l true + (e.ops.map (Op.stakes l)).sum = w.counts l true + op.stakes l := by
  obtain ⟨left, counts⟩ := deed.clears clears fun l failed waiter hop => by
    cases clears with
    | count k q ticket ticketed told =>
        cases hop
        exact h.count_effective ticketed told took.mem_threads took.due_mem
    | _ => cases hop
  refine ⟨fun op' hop => (left op' hop).mono took.history_subset, fun l => ?_⟩
  rw [took.counts]
  have := counts l
  omega

/-- Every run goes along with a call as long as the call is going on. -/
theorem Later.during (later : w.Later v) (index : Nat) :
    ∃ turns u, w.During index turns u ∧ u.Later v ∧ (u = v ∨
      ∀ t op rest, u.threads[index]? = some t → t.ops = op :: rest → ¬op.OfCall) := by
  induction later with
  | refl => exact ⟨[], w, .start, .refl, .inl rfl⟩
  | @tail u v earlier step ih =>
      obtain ⟨turns, x, during, later, rfl | done⟩ := ih
      swap
      · exact ⟨turns, x, during, later.tail step, .inr done⟩
      cases step with
      | issue command => exact ⟨turns, _, .issue during command, .refl, .inl rfl⟩
      | turn i pick turn =>
          by_cases apart : i = index
          swap
          · exact ⟨turns, v, .other during i pick apart turn, .refl, .inl rfl⟩
          subst apart
          by_cases mine : ∃ t op rest, x.threads[i]? = some t ∧ t.ops = op :: rest ∧ op.OfCall
          · obtain ⟨t, op, rest, got, ops, mine⟩ := mine
            exact ⟨_, v, .own during t op rest pick got ops mine turn, .refl, .inl rfl⟩
          · exact ⟨turns, x, during, .tail .refl (.turn i pick turn),
              .inr fun t op rest got ops hop => mine ⟨t, op, rest, got, ops, hop⟩⟩

/-- The turns of a call have no greater share in what only grows than all turns together. -/
theorem During.share_le (during : During index w turns v) (h : w.Reachable) {f : World α → Nat}
    (issue : ∀ u command, f (u.issue command) = f u)
    (grows : ∀ u v i t old tail e, u.Took v i t old tail e → f u ≤ f v) :
    share (fun w => (f w : Int)) turns ≤ f v := by
  have hgrows : ∀ {u v i pick}, u.Reachable → u.turn i pick = some v → f u ≤ f v := by
    intro u v i pick hu turn
    obtain ⟨t, old, tail, e, took⟩ := took_of_turn hu.orderly turn
    exact grows u v i t old tail e took
  induction during with
  | start => exact Int.natCast_nonneg _
  | issue earlier command ih => exact (issue _ command).symm ▸ ih
  | other earlier i pick apart turn ih =>
      have := hgrows (h.later earlier.later) turn
      omega
  | own earlier t op rest pick got ops mine turn ih =>
      have := hgrows (h.later earlier.later) turn
      rw [share_cons]
      omega

/-- A thread that is not asleep is left alone by the turns of others. -/
theorem Took.spared {u : World α} {i : Nat} {t s : Thread α} {old tail : List (Op α)} {e : Effect α}
    (took : u.Took v i t old tail e) (apart : i ≠ index) (got : u.threads[index]? = some s)
    (awake : ∀ op rest, s.ops = op :: rest → op.sleepsAt = none) : v.threads[index]? = some s := by
  obtain ⟨s', after⟩ : ∃ s', v.threads[index]? = some s' := by
    obtain ⟨pick, answer, -, hthreads⟩ := took.threads
    have hset := (List.getElem?_set_ne apart (a := { t with ops := e.ops ++ tail, answer })).trans got
    rw [hthreads]
    rcases getElem?_rouse e.alarm pick hset with h | h <;>
      exact ⟨_, (List.getElem?_append_left (List.getElem?_eq_some_iff.mp h).1).trans h⟩
  rcases took.thread_at got after with ⟨-, rfl | rfl⟩ | ⟨hindex, -⟩
  · exact after
  · rwa [Thread.wake_of_awake awake] at after
  · exact absurd hindex.symm apart

/-- What a thread has to do after its turn, if it has not fallen asleep. -/
theorem Took.left {u : World α} {t : Thread α} {old tail : List (Op α)} {e : Effect α}
    (took : u.Took v index t old tail e)
    (awake : ∀ op rest, e.ops ++ tail = op :: rest → op.sleepsAt = none) :
    ∃ s, v.threads[index]? = some s ∧ s.ops = e.ops ++ tail := by
  obtain ⟨pick, answer, -, hthreads⟩ := took.threads
  have hlt := (List.getElem?_eq_some_iff.mp took.got).1
  have hself := getElem?_rouse e.alarm pick
    (List.getElem?_set_self (a := { t with ops := e.ops ++ tail, answer }) hlt)
  rw [Thread.wake_of_awake (t := { t with ops := e.ops ++ tail, answer }) awake, or_self] at hself
  exact ⟨_, by rw [hthreads, List.getElem?_append_left (List.getElem?_eq_some_iff.mp hself).1, hself],
    rfl⟩

/-- What holds of a call in front of `rest`, of the world and of the turns taken so far, if it holds
at the beginning, if neither commands nor the turns of others put an end to it, and if each turn of
the call keeps it. -/
theorem During.keeps (during : During index w turns v) (h : w.Reachable) {rest : List (Op α)}
    {P : List (Op α) → World α → List (World α × World α) → Prop}
    (behind : ∀ op tail, rest = op :: tail → ¬op.OfCall)
    (awake : ∀ front u turns, P front u turns → ∀ op tail, front ++ rest = op :: tail →
      op.sleepsAt = none)
    (start : ∃ t front, w.threads[index]? = some t ∧ t.ops = front ++ rest ∧ P front w [])
    (issue : ∀ front u turns command, u.Reachable → P front u turns → P front (u.issue command) turns)
    (other : ∀ front u v turns i t old tail e s, u.Reachable → v.Reachable →
      u.Took v i t old tail e → i ≠ index → u.threads[index]? = some s → s.ops = front ++ rest →
        v.threads[index]? = some s → P front u turns → P front v turns)
    (own : ∀ op front u v turns pick t e, u.Reachable → v.Reachable → op.OfCall →
      op.effect (u.around index) u.store t.who = some e →
      v = u.apply index pick t (front ++ rest) e → u.Took v index t [op] (front ++ rest) e →
        Deed (u.around index) u.store t.who op e →
          P (op :: front) u turns → P (e.ops ++ front) v ((u, v) :: turns)) :
    ∃ t front, v.threads[index]? = some t ∧ t.ops = front ++ rest ∧ P front v turns := by
  induction during with
  | start => exact start
  | @issue turns u earlier command ih =>
      obtain ⟨t, front, got, ops, hP⟩ := ih
      refine ⟨t, front, ?_, ops, issue front u turns command (h.later earlier.later) hP⟩
      rw [World.issue, List.getElem?_append_left (List.getElem?_eq_some_iff.mp got).1, got]
  | @other turns u v earlier i pick apart turn ih =>
      obtain ⟨s, front, got, ops, hP⟩ := ih
      have hu := h.later earlier.later
      obtain ⟨t, old, tail, e, took⟩ := took_of_turn hu.orderly turn
      have after := took.spared apart got (ops ▸ awake front u turns hP)
      exact ⟨s, front, after, ops, other front u v turns i t old tail e s hu
        (.next hu (.turn i pick turn)) took apart got ops after hP⟩
  | @own turns u v earlier s op more pick got' ops' mine turn ih =>
      obtain ⟨t, front, got, ops, hP⟩ := ih
      obtain rfl := Option.some.inj (got.symm.trans got')
      have hu := h.later earlier.later
      cases front with
      | nil => exact absurd mine (behind op more (ops.symm.trans ops'))
      | cons op' front =>
          have hcons : op :: more = op' :: (front ++ rest) := ops'.symm.trans ops
          obtain ⟨rfl, rfl⟩ := List.cons.inj hcons
          obtain ⟨e, heffect, happly, took, deed⟩ :=
              took_of_effect hu.orderly got ops' mine.firm turn
          have hP' := own op front u v turns pick t e hu (.next hu (.turn index pick turn)) mine
            heffect happly took deed hP
          obtain ⟨s, after, hs⟩ := took.left fun op' more hops =>
            awake _ v _ hP' op' more ((List.append_assoc ..).trans hops)
          exact ⟨s, e.ops ++ front, after, by rw [hs, List.append_assoc], hP'⟩

end World

end WorkerPool
