import WorkerPool.Proofs.Provenance

/-! Tickets and their latches. A ticket is made out together with its latch, so no two tickets share
one. The latch of a ticket is a secret of the pool: it never gets a name, and no worker reports to
it for duty. So whoever counts on it counts for something that was submitted with the ticket. -/

namespace WorkerPool

variable {α : Type}

/-- No ticket has been made out for the latch. -/
def Untold (h : List (Who × Entry)) (l : Nat) : Prop :=
  ∀ p ticket, Recorded h (.ticketed p ticket) → ticket.latch ≠ some l

section Deeds

variable {around : Around} {s : Store α} {who : Who} {old : List (Op α)} {e : Effect α}

/-- A turn makes out one ticket at most, and its latch is the one that the turn adds. -/
theorem Deed.tickets {op : Op α} (deed : Deed around s who op e) {p q : Nat}
    {ticket other : Ticket} (h : .ticketed p ticket ∈ e.notes) (h' : .ticketed q other ∈ e.notes) :
    p = q ∧ ticket = other ∧ ∀ l, ticket.latch = some l → l = s.latches.length := by
  cases deed with
  | commanded command eases leaves plain => exact (plain _ h).elim
  | acted origin position action rest later eases leaves plain => exact (plain _ h).elim
  | accepted sub pool found through hands plain => exact (plain _ h).elim
  | refused sub pool found refuses plain => exact (plain _ h).elim
  | jobAdded | freeJobAdded | batchAdded | freeBatchAdded | batchSettled =>
      simp only [List.mem_cons, List.not_mem_nil, or_false, false_or, reduceCtorEq,
        Entry.ticketed.injEq] at h h'
      obtain ⟨rfl, rfl⟩ := h
      obtain ⟨rfl, rfl⟩ := h'
      refine ⟨rfl, rfl, fun l hl => ?_⟩
      cases hl <;> rfl
  | drained place pool ring found valid empty capacity =>
      obtain ⟨item, -, heq⟩ := List.mem_map.mp h
      cases heq
  | jobFinished place index pool item succeeded found =>
      cases succeeded with
      | true => simp at h
      | false => cases h
  | abandoned place pool items found =>
      cases items with
      | nil => cases h
      | cons item items => simp at h
  | _ => simp at h

theorem Act.tickets (act : Act around s who old e) {p q : Nat} {ticket other : Ticket}
    (h : .ticketed p ticket ∈ e.notes) (h' : .ticketed q other ∈ e.notes) :
    p = q ∧ ticket = other ∧ ∀ l, ticket.latch = some l → l = s.latches.length := by
  cases act with
  | deed deed quiet => exact deed.tickets h h'
  | broke payload loose lands uncaught =>
      rcases lands.of_mem_notes h with ⟨_, _, heq⟩ | heq
      · cases heq
      · cases heq

end Deeds

namespace World

variable {w v : World α} {index : Nat} {t : Thread α} {old tail : List (Op α)} {e : Effect α}

/-- A latch that is there and that no ticket was made out for stays without one. -/
theorem Took.untold (took : w.Took v index t old tail e) {l : Nat}
    (there : l < w.store.latches.length) (untold : Untold w.history l) : Untold v.history l := by
  intro p ticket recorded hl
  rcases took.recorded.mp recorded with hnote | recorded
  · obtain ⟨-, -, fresh⟩ := took.act.tickets hnote hnote
    have := fresh l hl
    omega
  · exact untold p ticket recorded hl

/-- Tickets that share a latch are the same. -/
theorem Reachable.ticket_eq {w : World α} (h : w.Reachable) {p q l : Nat} {ticket other : Ticket}
    (recorded : Recorded w.history (.ticketed p ticket))
    (recorded' : Recorded w.history (.ticketed q other)) (hl : ticket.latch = some l)
    (hl' : other.latch = some l) : p = q ∧ ticket = other := by
  revert p q ticket other
  refine h.induct (P := fun w => ∀ {p q : Nat} {ticket other : Ticket},
    Recorded w.history (.ticketed p ticket) → Recorded w.history (.ticketed q other) →
      ticket.latch = some l → other.latch = some l → p = q ∧ ticket = other)
    (fun cells => ?_) (fun w command _ ih => ih) ?_
  · rintro p q ticket other ⟨who, hmem⟩
    cases hmem
  · intro w v index t old tail e reachable took ih p q ticket other recorded recorded' hl hl'
    have known := reachable.known.store
    rcases took.recorded.mp recorded with hnote | recorded
    · obtain ⟨-, -, fresh⟩ := took.act.tickets hnote hnote
      rcases took.recorded.mp recorded' with hnote' | recorded'
      · obtain ⟨hp, hticket, -⟩ := took.act.tickets hnote hnote'
        exact ⟨hp, hticket⟩
      · have hlt := known.latches q other l recorded' hl'
        rw [fresh l hl] at hlt
        exact absurd hlt (Nat.lt_irrefl _)
    · rcases took.recorded.mp recorded' with hnote' | recorded'
      · obtain ⟨-, -, fresh⟩ := took.act.tickets hnote' hnote'
        have hlt := known.latches p ticket l recorded hl
        rw [fresh l hl'] at hlt
        exact absurd hlt (Nat.lt_irrefl _)
      · exact ih recorded recorded' hl hl'

/-- No ticket is made out for a latch that has a name or that workers report to. -/
structure Discreet (w : World α) : Prop where
  named : ∀ l, w.store.NamesLatch l → Untold w.history l
  started : ∀ (p : Nat) (pool : Pool), w.store.pools[p]? = some pool →
    Untold w.history pool.started

theorem Took.discreet (took : w.Took v index t old tail e) (known : w.Known) (h : w.Discreet) :
    v.Discreet := by
  have hfresh : ∀ {l : Nat}, l = w.store.latches.length →
      (∀ p ticket, Entry.ticketed p ticket ∉ e.notes) → Untold v.history l := by
    rintro l rfl hnone p ticket recorded hl
    rcases took.recorded.mp recorded with hnote | recorded
    · exact hnone p ticket hnote
    · have hlt := known.store.latches p ticket _ recorded hl
      exact absurd hlt (Nat.lt_irrefl _)
  constructor
  · intro l named
    rw [took.store] at named
    cases took.act with
    | broke payload loose lands uncaught =>
        exact took.untold (known.store.latchNames l named) (h.named l named)
    | deed deed quiet =>
        rcases deed.namesLatch named with named | ⟨hl, -, hnone⟩
        · exact took.untold (known.store.latchNames l named) (h.named l named)
        · exact hfresh hl hnone
  · intro p pool found
    rw [took.store] at found
    cases took.act with
    | broke payload loose lands uncaught =>
        exact took.untold (known.store.started p pool found) (h.started p pool found)
    | deed deed quiet =>
        rcases deed.started found with ⟨pool', found', hstarted⟩ | ⟨hl, -, hnone⟩
        · rw [← hstarted]
          exact took.untold (known.store.started p pool' found') (h.started p pool' found')
        · exact hfresh hl hnone

theorem Reachable.discreet {w : World α} (h : w.Reachable) : w.Discreet := by
  refine h.induct (P := Discreet) (fun cells => ?_) (fun w command _ ih => ⟨ih.named, ih.started⟩)
    fun w v index t old tail e reachable took ih => took.discreet reachable.known ih
  constructor
  · rintro l - p ticket ⟨who, hmem⟩
    cases hmem
  · rintro p pool - q ticket ⟨who, hmem⟩
    cases hmem

end World

end WorkerPool
