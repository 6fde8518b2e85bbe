import WorkerPool.Proofs.Crew

/-! Where a worker stands. What a worker is about to do and what it has in its hands can be read off
its stack: at the bottom stands its loop, and above it only what belongs to the item in its hands,
or the end of a report. A worker with no item in its hands has ended, is about to report for duty or
stands before the ring. -/

namespace WorkerPool

variable {α : Type}

/-- Where a worker stands with the item that it took last. -/
inductive Standing
  | free
  | holding (item : Item)
  | performing (item : Item)
  | ended (item : Item) (panic : Option Payload)
  | cleared (item : Item) (panic : Option Payload)

/-- The worker `i` of the pool at `p` stands there when this is its stack. If the job has panicked,
nothing is left but to count on its latch and to finish it; if it has not, the count may also lead
to a continuation. -/
inductive Standing.Shows (p i : Nat) : Standing → List (Op α) → Prop
  | stopped : Shows p i .free []
  | starting : Shows p i .free [.work p i .start]
  | reporting (l : Nat) :
      Shows p i .free
        [.latch l (.count false) .nobody, .work p i (.receive (.receive .arriving))]
  | reported (l : Nat) :
      Shows p i .free [.latch l .announce .nobody, .work p i (.receive (.receive .arriving))]
  | receiving (stage : Stage) : Shows p i .free [.work p i (.receive (.receive stage))]
  | announcing :
      Shows p i .free [.backlog p .announce, .work p i (.receive (.receive .arriving))]
  | taken (item : Item) :
      Shows p i (.holding item) [.work p i (.receive (.announce (.received (some item))))]
  | received (item : Item) : Shows p i (.holding item) [.work p i (.begin item)]
  | performing (above : List (Op α)) (item : Item) (panic : Option Payload) :
      Shows p i (.performing item) (above ++ [.work p i (.running item panic)])
  | ended (above : List (Op α)) (item : Item) :
      Shows p i (.ended item none) (above ++ [.work p i (.finish item true)])
  | counting (l : Nat) (item : Item) (payload : Payload) (told : item.latch = some l) :
      Shows p i (.ended item (some payload))
        [.latch l (.count true) .nobody, .work p i (.finish item false)]
  | counted (l : Nat) (item : Item) (payload : Payload) :
      Shows p i (.ended item (some payload))
        [.latch l .announce .nobody, .work p i (.finish item false)]
  | broken (item : Item) (payload : Payload) :
      Shows p i (.ended item (some payload)) [.work p i (.finish item false)]
  | cleared (item : Item) (panic : Option Payload) :
      Shows p i (.cleared item panic)
        [.backlog p .leave, .work p i (.receive (.receive .arriving))]

namespace Op

/-- What can stand right above the loop of a worker. -/
inductive AboveLoop (p : Nat) : Op α → WorkerPhase → Prop
  | reporting (l : Nat) :
      AboveLoop p (.latch l (.count false) .nobody) (.receive (.receive .arriving))
  | running (l : Nat) (job : Job) (succeeded : Bool) :
      AboveLoop p (.latch l (.running job succeeded) .nobody) (.receive (.receive .arriving))
  | announcing (l : Nat) : AboveLoop p (.latch l .announce .nobody) (.receive (.receive .arriving))
  | leave : AboveLoop p (.backlog p .leave) (.receive (.receive .arriving))
  | last : AboveLoop p (.backlog p .announce) (.receive (.receive .arriving))
  | performing (op : Op α) (item : Item) : AboveLoop p op (.running item none)
  | counting (l : Nat) (item : Item) (succeeded : Bool) (told : item.latch = some l) :
      AboveLoop p (.latch l (.count (!succeeded)) .nobody) (.finish item succeeded)
  | continuing (l : Nat) (job : Job) (fine : Bool) (item : Item) (told : item.latch = some l) :
      AboveLoop p (.latch l (.running job fine) .nobody) (.finish item true)
  | counted (l : Nat) (item : Item) (succeeded : Bool) :
      AboveLoop p (.latch l .announce .nobody) (.finish item succeeded)

theorem AfterCount.aboveLoop {l p i : Nat} {failed : Bool} {phase : WorkerPhase}
    (after : AfterCount (α := α) l failed [.work p i phase]) :
    (failed = false ∧ phase = .receive (.receive .arriving)) ∨
      ∃ item succeeded, phase = .finish item succeeded ∧ item.latch = some l ∧
        failed = !succeeded := by
  cases after with
  | called _ back => cases back
  | duty => exact .inl ⟨rfl, rfl⟩
  | performed _ _ item succeeded told => exact .inr ⟨item, succeeded, rfl, told, rfl⟩
  | settled q behind => cases behind

theorem Before.aboveLoop {who : Who} {op : Op α} {p i : Nat} {phase : WorkerPhase}
    (before : op.Before who [.work p i phase]) : AboveLoop p op phase := by
  cases before with
  | code origin position current later after =>
      cases after with
      | item _ _ item => exact .performing _ item
      | caller back => cases back
  | count l failed after =>
      obtain ⟨rfl, rfl⟩ | ⟨item, succeeded, rfl, told, rfl⟩ := after.aboveLoop
      · exact .reporting l
      · exact .counting l item succeeded told
  | running l job succeeded after =>
      obtain ⟨-, rfl⟩ | ⟨item, done, rfl, told, fine⟩ := after.aboveLoop
      · exact .running l job succeeded
      · obtain rfl : done = true := by simpa using fine.symm
        exact .continuing l job succeeded item told
  | latchAnnounce l failed after =>
      obtain ⟨-, rfl⟩ | ⟨item, succeeded, rfl, -, -⟩ := after.aboveLoop
      · exact .announcing l
      · exact .counted l item succeeded
  | terminate l back => cases back
  | waitTicket steps l stage id after =>
      rcases after with h | ⟨q, h⟩ <;> cases h
  | waitRefused l stage sub told fits after => cases after
  | leave q after =>
      cases after with
      | work => exact .leave
      | clearing behind => cases behind
  | backlogAnnounce q after =>
      cases after with
      | work => exact .last
      | clearing behind => cases behind
  | submit sub phase proper fits after => cases after
  | shutDown q phase proper after => cases after
  | join q k waiting after | release q after =>
      cases after with
      | resumes back => cases back
  | hand ticket name after | answer given after =>
      rcases after with ⟨h, -⟩ | ⟨q, rest, h⟩ <;> cases h

/-- The operation settles the account of a worker, or tells others that it has been settled. -/
def Accounts : Op α → Prop
  | .latch _ (.count _) _ | .latch _ .announce _ | .backlog _ .leave | .backlog _ .announce => True
  | _ => False

theorem Clearing.not_work {q p i : Nat} {op : Op α} {phase : WorkerPhase}
    (clearing : Clearing q [op, .work p i phase]) (accounts : op.Accounts) : False := by
  cases clearing with
  | leave behind => cases behind
  | count l behind => cases behind
  | done | wait | refused => exact accounts

theorem AfterCount.not_work {l p i : Nat} {failed : Bool} {op : Op α} {phase : WorkerPhase}
    (after : AfterCount l failed [op, .work p i phase]) (accounts : op.Accounts) : False := by
  cases after with
  | called _ back => cases back <;> exact accounts
  | settled q behind => exact behind.not_work accounts

/-- Nothing stands above the operations that settle the account of a worker. -/
theorem Before.not_accounts {who : Who} {above op : Op α} {p i : Nat} {phase : WorkerPhase}
    (before : above.Before who [op, .work p i phase]) (accounts : op.Accounts) : False := by
  cases before with
  | code origin position current later after =>
      cases after with
      | caller back => cases back <;> exact accounts
      | finale => exact accounts
  | count l failed after | running l job succeeded after | latchAnnounce l failed after =>
      exact after.not_work accounts
  | terminate l back => cases back <;> exact accounts
  | waitTicket steps l stage id after => rcases after with h | ⟨q, h⟩ <;> cases h
  | waitRefused l stage sub told fits after => cases after; exact accounts
  | leave q after | backlogAnnounce q after =>
      cases after with
      | clearing behind => exact behind.not_work accounts
  | submit sub phase proper fits after => cases after; exact accounts
  | shutDown q phase proper after => cases after <;> exact accounts
  | join q k waiting after | release q after =>
      cases after with
      | hand => exact accounts
      | resumes back => cases back <;> exact accounts
  | hand ticket name after | answer given after =>
      rcases after with ⟨h, -⟩ | ⟨q, rest, h⟩
      · cases h
      · obtain ⟨rfl, -⟩ := List.cons.inj h
        exact accounts

theorem Leads.front_eq_nil {who : Who} {front behind : List (Op α)} {op : Op α}
    (stack : Leads who front (op :: behind))
    (nothing : ∀ above : Op α, ¬above.Before who (op :: behind)) : front = [] := by
  rcases List.eq_nil_or_concat front with rfl | ⟨front', above, rfl⟩
  · rfl
  · rw [List.concat_eq_append, leads_append] at stack
    exact (nothing above stack.2.1).elim

/-- Where a worker stands with nothing above its loop. -/
theorem Proper.shows {p i : Nat} {phase : WorkerPhase}
    (proper : (Op.work p i phase : Op α).Proper) :
    ∃ standing : Standing, standing.Shows p i [(Op.work p i phase : Op α)] := by
  cases phase with
  | start => exact ⟨_, .starting⟩
  | receive call =>
      cases call with
      | receive stage => exact ⟨_, .receiving stage⟩
      | announce reply =>
          cases reply with
          | received item? =>
              cases item? with
              | some item => exact ⟨_, .taken item⟩
              | none => exact proper.elim
          | _ => exact proper.elim
      | _ => exact proper.elim
  | begin item => exact ⟨_, .received item⟩
  | running item panic => exact ⟨_, .performing [] item panic⟩
  | finish item succeeded =>
      cases succeeded with
      | true => exact ⟨_, .ended [] item⟩
      | false => exact ⟨_, .broken item (.text "")⟩

/-- Where a worker stands is said by its stack. -/
theorem Leads.shows {s : Store α} {p i : Nat} {ops : List (Op α)}
    (stack : Leads (.worker p i) ops []) (duty : Along (OnDuty s) ops []) :
    ∃ standing : Standing, standing.Shows p i ops := by
  rcases List.eq_nil_or_concat ops with rfl | ⟨above, last, rfl⟩
  · exact ⟨_, .stopped⟩
  rw [List.concat_eq_append] at stack duty ⊢
  rw [leads_append] at stack
  obtain ⟨phase, rfl⟩ := stack.2.1.last
  rcases List.eq_nil_or_concat above with rfl | ⟨front, op, rfl⟩
  · exact stack.2.1.proper.shows
  rw [List.concat_eq_append] at stack duty ⊢
  rw [leads_append] at stack
  have habove : op.AboveLoop p phase := stack.1.2.1.aboveLoop
  have hfront : op.Accounts → front = [] := fun accounts =>
    stack.1.1.front_eq_nil fun above before => before.not_accounts accounts
  cases habove with
  | reporting l =>
      rw [hfront trivial]
      exact ⟨_, .reporting l⟩
  | running l job succeeded =>
      rw [along_append, along_append] at duty
      exact (onDuty_running.mp duty.1.2.1 p i _ rfl).elim
  | announcing l =>
      rw [hfront trivial]
      exact ⟨_, .reported l⟩
  | leave =>
      rw [hfront trivial]
      exact ⟨_, .cleared ⟨0, ⟨⟨[], false⟩, []⟩, none⟩ none⟩
  | last =>
      rw [hfront trivial]
      exact ⟨_, .announcing⟩
  | performing op item => exact ⟨_, .performing (front ++ [op]) item none⟩
  | continuing l job fine item told => exact ⟨_, .ended (front ++ [_]) item⟩
  | counting l item succeeded told =>
      rw [hfront trivial]
      cases succeeded with
      | true => exact ⟨_, .ended [_] item⟩
      | false => exact ⟨_, .counting l item (.text "") told⟩
  | counted l item succeeded =>
      rw [hfront trivial]
      cases succeeded with
      | true => exact ⟨_, .ended [_] item⟩
      | false => exact ⟨_, .counted l item (.text "")⟩

end Op

namespace World

theorem Reachable.shows {w : World α} (h : w.Reachable) {t : Thread α} (ht : t ∈ w.threads)
    {p i : Nat} (who : t.who = .worker p i) : ∃ standing : Standing, standing.Shows p i t.ops :=
  Op.Leads.shows (who ▸ h.orderly.ordered t ht) (h.dutiful.ops t ht)

end World

end WorkerPool
