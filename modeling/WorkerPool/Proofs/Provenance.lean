import WorkerPool.Proofs.Course
import WorkerPool.Proofs.Entries

/-! Where things come from. Whatever an operation refers to is there, every item has been given an
id for a job or for a member of a batch and reports to the latch of the ticket that was made out for
it, and every ticket that somebody holds has been made out. -/

namespace WorkerPool

variable {α : Type}

/-- The entry has been recorded by somebody. -/
def Recorded (h : List (Who × Entry)) (entry : Entry) : Prop :=
  ∃ who, (who, entry) ∈ h

theorem Recorded.mono {h h' : List (Who × Entry)} (sub : h ⊆ h') {entry : Entry}
    (recorded : Recorded h entry) : Recorded h' entry :=
  recorded.imp fun _ hmem => sub hmem

/-- The ticket is one for what the id has been given to. -/
def Issue.Fits : Issue → Ticket → Prop
  | .job given, .job _ latch => latch.isSome = given.waitable
  | .batch b, .batch _ size waitable latch =>
    size = b.size ∧ waitable = b.waitable ∧ latch.isSome = (b.finale.isSome || b.waitable)
  | _, _ => False

/-- The item is, or is part of, what the ticket of the pool `p` stands for. -/
inductive Item.Part (h : List (Who × Entry)) (p : Nat) : Ticket → Item → Prop
  | job (item : Item) (issued : Recorded h (.issued p item.id (.job item.job))) :
      Part h p (.job item.id item.latch) item
  | member (bid size : Nat) (waitable : Bool) (item : Item)
      (issued : Recorded h (.issued p item.id (.member bid item.job))) :
      Part h p (.batch bid size waitable item.latch) item

namespace Item

variable {h h' : List (Who × Entry)} {p : Nat} {item : Item}

/-- A ticket has been made out for the item. -/
def Known (h : List (Who × Entry)) (p : Nat) (item : Item) : Prop :=
  ∃ ticket, Recorded h (.ticketed p ticket) ∧ item.Part h p ticket

theorem Part.mono (sub : h ⊆ h') {ticket : Ticket} (part : item.Part h p ticket) :
    item.Part h' p ticket := by
  cases part with
  | job _ issued => exact .job item (issued.mono sub)
  | member bid size waitable _ issued => exact .member bid size waitable item (issued.mono sub)

theorem Part.latch {ticket : Ticket} (part : item.Part h p ticket) :
    item.latch = ticket.latch := by
  cases part <;> rfl

theorem Known.mono (sub : h ⊆ h') (known : item.Known h p) : item.Known h' p := by
  obtain ⟨ticket, ticketed, part⟩ := known
  exact ⟨ticket, ticketed.mono sub, part.mono sub⟩

end Item

/-- The items that a worker has in its hands. -/
def WorkerPhase.items : WorkerPhase → List Item
  | .receive (.announce (.received (some item))) | .begin item | .running item _
  | .finish item _ => [item]
  | _ => []

/-- The items that a shutdown has taken out of the ring and not settled yet. -/
def ShutdownPhase.items : ShutdownPhase → List Item
  | .call (.announce (.drained items)) => items
  | _ => []

section

variable (h : List (Who × Entry)) (s : Store α)

/-- What a waiter refers to is there, where `l` is the latch that it waits for. -/
def Waiter.Known (l : Nat) : Waiter → Prop
  | .ticket id =>
    ∃ p ticket, Recorded h (.ticketed p ticket) ∧ ticket.latch = some l ∧ ticket.id = id
  | .refused sub => Recorded h (.ticketed sub.pool sub.ticket)
  | .ready p _ => p < s.pools.length
  | _ => True

/-- What an operation refers to is there. -/
def Op.Known : Op α → Prop
  | .latch l _ waiter => l < s.latches.length ∧ waiter.Known h s l
  | .backlog p _ | .release p | .join p _ _ | .spawn p _ _ => p < s.pools.length
  | .submit sub phase =>
    Recorded h (.ticketed sub.pool sub.ticket) ∧
      ∀ item, phase.item? = some item → item.Part h sub.pool sub.ticket
  | .construct (.submission p batch id _) _ => Recorded h (.issued p id (.batch batch))
  | .work p _ phase => p < s.pools.length ∧ ∀ item ∈ phase.items, item.Known h p
  | .shutDown p phase => p < s.pools.length ∧ ∀ item ∈ phase.items, item.Known h p
  | .hand ticket _ => ∃ p, Recorded h (.ticketed p ticket)
  | _ => True

/-- What an entry refers to is there. -/
def Entry.Known : Entry → Prop
  | .issued p _ _ => p < s.pools.length
  | .ticketed p ticket =>
    p < s.pools.length ∧ (∀ l, ticket.latch = some l → l < s.latches.length) ∧
      ∃ issue, Recorded h (.issued p ticket.id issue) ∧ issue.Fits ticket
  | .pushed p item | .refused p item | .taken p item | .discarded p item =>
    p < s.pools.length ∧ item.Known h p
  | _ => True

/-- What the names, the pools and the rings refer to is there. -/
structure Store.Known : Prop where
  pools : ∀ p ticket, Recorded h (.ticketed p ticket) → p < s.pools.length
  latches : ∀ p ticket l, Recorded h (.ticketed p ticket) → ticket.latch = some l →
    l < s.latches.length
  ring : ∀ p, ∀ item ∈ s.ring p, item.Known h p
  started : ∀ (p : Nat) (pool : Pool), s.pools[p]? = some pool → pool.started < s.latches.length
  latchNames : ∀ l, s.NamesLatch l → l < s.latches.length
  poolNames : ∀ p, s.NamesPool p → p < s.pools.length
  tickets : ∀ ticket, s.Keeps ticket → ∃ p, Recorded h (.ticketed p ticket)

end

section

variable {h h' : List (Who × Entry)} {s s' : Store α}

theorem Waiter.Known.mono (sub : h ⊆ h') (pools : s.pools.length ≤ s'.pools.length) {l : Nat}
    {waiter : Waiter} (known : waiter.Known h s l) : waiter.Known h' s' l := by
  cases waiter with
  | ticket id =>
      obtain ⟨p, ticket, ticketed, hlatch, hid⟩ := known
      exact ⟨p, ticket, ticketed.mono sub, hlatch, hid⟩
  | refused submission => exact Recorded.mono sub known
  | ready p name => exact Nat.lt_of_lt_of_le known pools
  | _ => trivial

theorem Op.Known.mono (sub : h ⊆ h') (pools : s.pools.length ≤ s'.pools.length)
    (latches : s.latches.length ≤ s'.latches.length) {op : Op α} (known : op.Known h s) :
    op.Known h' s' := by
  cases op with
  | latch l call waiter => exact ⟨Nat.lt_of_lt_of_le known.1 latches, known.2.mono sub pools⟩
  | backlog | release | join | spawn => exact Nat.lt_of_lt_of_le known pools
  | submit submission phase =>
      exact ⟨known.1.mono sub, fun item hitem => (known.2 item hitem).mono sub⟩
  | construct construction succeeded =>
      cases construction with
      | latch => trivial
      | submission => exact Recorded.mono sub known
  | work p index phase =>
      exact ⟨Nat.lt_of_lt_of_le known.1 pools, fun item hitem => (known.2 item hitem).mono sub⟩
  | shutDown p phase =>
      exact ⟨Nat.lt_of_lt_of_le known.1 pools, fun item hitem => (known.2 item hitem).mono sub⟩
  | hand ticket name =>
      obtain ⟨p, ticketed⟩ := known
      exact ⟨p, ticketed.mono sub⟩
  | _ => trivial

theorem Entry.Known.mono (sub : h ⊆ h') (pools : s.pools.length ≤ s'.pools.length)
    (latches : s.latches.length ≤ s'.latches.length) {entry : Entry} (known : entry.Known h s) :
    entry.Known h' s' := by
  cases entry with
  | issued => exact Nat.lt_of_lt_of_le known pools
  | ticketed p ticket =>
      obtain ⟨hp, hlatch, issue, issued, fits⟩ := known
      exact ⟨Nat.lt_of_lt_of_le hp pools, fun l hl => Nat.lt_of_lt_of_le (hlatch l hl) latches,
        issue, issued.mono sub, fits⟩
  | pushed | refused | taken | discarded =>
      exact ⟨Nat.lt_of_lt_of_le known.1 pools, known.2.mono sub⟩
  | _ => trivial

theorem Op.Known.wake {op : Op α} (known : op.Known h s) : op.wake.Known h s := by
  cases op with
  | submit submission phase =>
      cases phase with
      | send call => cases call <;> exact known
      | _ => exact known
  | work p index phase =>
      cases phase with
      | receive call => cases call <;> exact known
      | _ => exact known
  | _ => exact known

theorem Ticket.latch_of_awaited {ticket : Ticket} {l : Nat} (found : ticket.awaited = .ok l) :
    ticket.latch = some l := by
  unfold awaited at found
  split at found <;> cases found <;> rfl

theorem Command.Leaves.known {ops : List (Op α)} (leaves : Command.Leaves s ops)
    (known : s.Known h) : ∀ op ∈ ops, op.Known h s := by
  cases leaves with
  | count place failed answer named | terminate place answer named =>
      simp [Op.Known, Waiter.Known, known.latchNames place named]
  | wait place named => simp [Op.Known, Waiter.Known, known.latchNames place named]
  | idle place answer named | shutDown place answer named =>
      simp [Op.Known, ShutdownPhase.items, known.poolNames place named]
  | destroy place answer named | letGo place named =>
      simp [Op.Known, known.poolNames place named]
  | ticket ticket place kept awaited =>
      obtain ⟨p, ticketed⟩ := known.tickets ticket kept
      have hlatch := ticket.latch_of_awaited awaited
      simp only [List.mem_singleton, forall_eq]
      exact ⟨known.latches p ticket place ticketed hlatch, p, ticket, ticketed, hlatch, rfl⟩
  | ticketVia ticket place pool kept awaited named =>
      obtain ⟨p, ticketed⟩ := known.tickets ticket kept
      have hlatch := ticket.latch_of_awaited awaited
      simp only [List.mem_cons, List.not_mem_nil, or_false, forall_eq_or_imp, forall_eq]
      exact ⟨⟨known.latches p ticket place ticketed hlatch, p, ticket, ticketed, hlatch, rfl⟩,
        known.poolNames pool named⟩
  | _ => simp [Op.Known, Op.perform]

theorem Action.Leaves.known {ops : List (Op α)} (leaves : Action.Leaves s ops)
    (known : s.Known h) : ∀ op ∈ ops, op.Known h s := by
  cases leaves with
  | count place failed named | terminate place named =>
      simp [Op.Known, Waiter.Known, known.latchNames place named]
  | shutDown place named =>
      simp [Op.Known, ShutdownPhase.items, known.poolNames place named]
  | _ => simp [Op.Known, Op.perform]

theorem Op.known_complete {latch : Option Nat} (there : ∀ l, latch = some l → l < s.latches.length)
    (failed : Bool) : ∀ op ∈ (complete latch failed : List (Op α)), op.Known h s := by
  intro op hop
  obtain ⟨l, hl, rfl⟩ := List.mem_map.mp hop
  exact ⟨there l (by simpa using hl), trivial⟩

theorem Op.known_discard {p : Nat} {item : Item} (hp : p < s.pools.length)
    (there : ∀ l, item.latch = some l → l < s.latches.length) :
    ∀ op ∈ (discard p item : List (Op α)), op.Known h s := by
  intro op hop
  rcases List.mem_append.mp hop with hop | hop
  · exact known_complete there true op hop
  · obtain rfl := List.mem_singleton.mp hop
    exact hp

theorem Store.Known.latch_lt (known : s.Known h) {p : Nat} {item : Item} (hitem : item.Known h p) :
    ∀ l, item.latch = some l → l < s.latches.length := by
  obtain ⟨ticket, ticketed, part⟩ := hitem
  exact fun l hl => known.latches p ticket l ticketed (part.latch ▸ hl)

theorem Submission.known_afterRefusal {sub : Submission} (known : s.Known h)
    (ticketed : Recorded h (.ticketed sub.pool sub.ticket)) :
    ∀ op ∈ (sub.afterRefusal : List (Op α)), op.Known h s := by
  intro op hop
  unfold afterRefusal at hop
  split at hop
  · rename_i latch hticket
    have hlatch := known.latches sub.pool sub.ticket latch ticketed (by rw [hticket]; rfl)
    rcases List.mem_append.mp hop with hop | hop
    · obtain ⟨job, -, rfl⟩ := List.mem_map.mp hop
      exact ⟨hlatch, trivial⟩
    · obtain rfl := List.mem_singleton.mp hop
      exact ⟨hlatch, ticketed⟩
  · obtain rfl := List.mem_singleton.mp hop
    exact ⟨ticketed, fun item hitem => by cases hitem⟩

end

/-- What a panic leaves to do refers to nothing else. -/
theorem Op.Lands.known {payload : Payload} {old new : List (Op α)} {notes : List Entry}
    (lands : Op.Lands payload old new notes) {h : List (Who × Entry)} {s : Store α}
    (known : ∀ op ∈ old, op.Known h s) : ∀ op ∈ new, op.Known h s := by
  cases lands with
  | nowhere => exact known
  | item position current later p index item =>
      rw [List.forall_mem_singleton]
      exact known (.work p index (.running item none)) (by simp)
  | finale position current later l job =>
      rw [List.forall_mem_singleton]
      exact known (.latch l (.running job true) .nobody) (by simp)
  | batch position current later p batch id asker =>
      rw [List.forall_mem_singleton]
      exact known (.construct (.submission p batch id asker) true) (by simp)
  | latchMade position current later name => simp [Op.Known]

section Deeds

variable {around : Around} {s : Store α} {who : Who} {e : Effect α}

/-- What a turn leaves to do refers to what is there, if the operation did. -/
theorem Deed.known {op : Op α} (deed : Deed around s who op e) {rest : List (Op α)}
    (before : op.Before who rest) {h h' : List (Who × Entry)} (sub : h ⊆ h')
    (told : ∀ note ∈ e.notes, Recorded h' note) (store : s.Known h) (known : op.Known h s) :
    ∀ op' ∈ e.ops, op'.Known h' e.store := by
  have hpools := deed.pools.length_le
  have hlatches := deed.latches.length_le
  have hmono : ∀ {op' : Op α}, op'.Known h s → op'.Known h' e.store :=
    fun known => known.mono sub hpools hlatches
  cases deed with
  | commanded command eases leaves plain => exact fun op' hop => hmono (leaves.known store op' hop)
  | poolMade command name settings capacity threads => simp [Op.Known]
  | jobAdded submits place pool job found waitable =>
      simp only [List.cons_append, List.nil_append, List.mem_cons, forall_eq_or_imp]
      refine ⟨⟨told _ (by simp), ?_⟩, ?_⟩
      · rintro item ⟨⟩
        exact .job ⟨pool.nextId, job, some s.latches.length⟩ (told _ (by simp))
      · cases submits <;> simp [Op.Known]
  | freeJobAdded submits place pool job found free =>
      simp only [List.cons_append, List.nil_append, List.mem_cons, forall_eq_or_imp]
      refine ⟨⟨told _ (by simp), ?_⟩, ?_⟩
      · rintro item ⟨⟩
        exact .job ⟨pool.nextId, job, none⟩ (told _ (by simp))
      · cases submits <;> simp [Op.Known]
  | batchAdded command place pool batch ticket found counted ahead =>
      simp only [List.mem_singleton, forall_eq]
      exact ⟨told _ (by simp), fun item hitem => by cases hitem⟩
  | freeBatchAdded command place pool batch ticket found bare free =>
      simp only [List.mem_singleton, forall_eq]
      exact ⟨told _ (by simp), fun item hitem => by cases hitem⟩
  | emptyBatchAdded command place pool batch job ticket found finale empty =>
      simp only [List.mem_cons, List.not_mem_nil, or_false, forall_eq_or_imp, forall_eq]
      exact ⟨trivial, told _ (by simp)⟩
  | batchSettled place pool batch id asker succeeded found =>
      simp only [List.mem_singleton, forall_eq]
      exact ⟨told _ (by simp), fun item hitem => by cases hitem⟩
  | acted origin position action rest later eases leaves plain =>
      intro op' hop
      rcases List.mem_append.mp hop with hop | hop
      · exact hmono (leaves.known store op' hop)
      · obtain rfl := List.mem_singleton.mp hop
        trivial
  | monitorTurned place call left => rcases left with rfl | ⟨call, rfl⟩ <;> simp [Op.Known]
  | channelTurned place call left => rcases left with rfl | ⟨call, rfl⟩ <;> simp [Op.Known]
  | countSkipped place l failed job found counts last held spoilt =>
      simp only [List.mem_singleton, forall_eq]
      exact hmono known
  | countStarted place l job found counts last held sound =>
      simp only [List.mem_cons, List.not_mem_nil, or_false, forall_eq_or_imp, forall_eq]
      exact ⟨trivial, hmono known⟩
  | counted place l failed found counts plain =>
      dsimp only
      split
      · simp only [List.mem_singleton, forall_eq]
        exact hmono known
      · simp
  | continued place l job succeeded found =>
      dsimp only
      split
      · simp only [List.mem_singleton, forall_eq]
        exact hmono known
      · simp
  | waitSlept place l stage waiter found awake up held =>
      simp only [List.mem_singleton, forall_eq]
      exact hmono known
  | refusedWaited place l stage submission succeeded found awake verdict =>
      simp only [List.mem_singleton, forall_eq]
      exact ⟨Recorded.mono sub known.2, fun item hitem => by cases hitem⟩
  | poolReady place l stage pool q name succeeded found awake verdict present =>
      intro op' hop
      rcases List.mem_append.mp hop with hop | hop
      · obtain ⟨old, hold, rfl⟩ := List.mem_map.mp hop
        exact store.poolNames old ⟨name, by simpa using hold⟩
      · obtain rfl := List.mem_singleton.mp hop
        trivial
  | left place pool found =>
      dsimp only
      split
      · simp only [List.mem_singleton, forall_eq]
        exact hmono known
      · simp
  | idleSlept place pool stage found awake held =>
      simp only [List.mem_singleton, forall_eq]
      exact hmono known
  | accepted submission pool found through hands plain =>
      have hhand : (Op.hand submission.ticket none : Op α).Known h s := ⟨_, known.1⟩
      have hrelease : (Op.release submission.pool : Op α).Known h s := store.pools _ _ known.1
      intro op' hop
      refine hmono ?_
      cases hands with
      | early name asked | late name asked =>
          simp only [List.mem_cons, List.not_mem_nil, or_false] at hop
          rcases hop with rfl | rfl
          all_goals first | exact hhand | exact hrelease
      | function asked =>
          obtain rfl := List.mem_singleton.mp hop
          exact hrelease
  | memberAdded submission pool job members found ahead =>
      simp only [List.mem_singleton, forall_eq]
      refine ⟨known.1.mono sub, ?_⟩
      rintro item ⟨⟩
      have fits := before.fits
      have issued := told _ (List.mem_singleton_self _)
      cases hticket : submission.ticket with
      | job id latch => simp [(fits.alone id latch hticket).1] at ahead
      | batch id size waitable latch =>
          rw [hticket] at issued
          exact .member id size waitable ⟨pool.nextId, job, latch⟩ issued
  | enlisted submission pool item found =>
      simp only [List.mem_singleton, forall_eq]
      exact hmono known
  | offered submission pool item found up =>
      simp only [List.mem_singleton, forall_eq]
      exact hmono known
  | givenBack submission pool item call found down sends =>
      simp only [List.mem_singleton, forall_eq]
      rcases sends with rfl | ⟨stage, -, rfl⟩ <;> exact hmono known
  | pushed submission pool item stage found awake up room =>
      simp only [List.mem_singleton, forall_eq]
      exact ⟨known.1.mono sub, fun item hitem => by cases hitem⟩
  | sendSlept submission pool item stage found awake up full =>
      simp only [List.mem_singleton, forall_eq]
      exact hmono known
  | sendAnnounced submission pool found =>
      simp only [List.mem_singleton, forall_eq]
      exact ⟨known.1.mono sub, fun item hitem => by cases hitem⟩
  | refusing submission pool item found =>
      intro op' hop
      refine hmono ?_
      rcases List.mem_append.mp hop with hop | hop
      · exact Op.known_discard (store.pools _ _ known.1)
          (store.latch_lt ⟨_, known.1, known.2 item rfl⟩) op' hop
      · exact Submission.known_afterRefusal store known.1 op' hop
  | refused submission pool found refuses plain =>
      have hrelease : (Op.release submission.pool : Op α).Known h s := store.pools _ _ known.1
      intro op' hop
      refine hmono ?_
      cases refuses with
      | step name handover answer asked =>
          simp only [List.mem_cons, List.not_mem_nil, or_false] at hop
          rcases hop with rfl | rfl
          · exact hrelease
          · trivial
      | function asked =>
          obtain rfl := List.mem_singleton.mp hop
          exact hrelease
  | workStarted place index pool found =>
      simp only [List.mem_cons, List.not_mem_nil, or_false, forall_eq_or_imp, forall_eq]
      exact ⟨⟨store.started place pool found, trivial⟩, known.1, by simp [WorkerPhase.items]⟩
  | receiveSlept place index pool stage found awake up empty =>
      simp only [List.mem_singleton, forall_eq]
      exact hmono known
  | taken place index pool stage item ring found awake up valid first capacity =>
      simp only [List.mem_singleton, forall_eq]
      refine ⟨Nat.lt_of_lt_of_le known.1 hpools, ?_⟩
      simp only [WorkerPhase.items, List.mem_singleton, forall_eq]
      exact (store.ring place item (by rw [Store.ring_eq found, first]; simp)).mono sub
  | receiveAnnounced place index pool item found =>
      simp only [List.mem_singleton, forall_eq]
      exact hmono known
  | jobStarted place index pool item found =>
      simp only [List.mem_cons, List.not_mem_nil, or_false, forall_eq_or_imp, forall_eq]
      exact ⟨trivial, hmono known⟩
  | jobRan place index pool item found | jobBroke place index pool item payload found =>
      intro op' hop
      refine hmono ?_
      rcases List.mem_append.mp hop with hop | hop
      · exact Op.known_complete (store.latch_lt (known.2 item (by simp [WorkerPhase.items]))) _
          op' hop
      · obtain rfl := List.mem_singleton.mp hop
        exact known
  | jobFinished place index pool item succeeded found =>
      simp only [List.mem_cons, List.not_mem_nil, or_false, forall_eq_or_imp, forall_eq]
      exact ⟨Nat.lt_of_lt_of_le known.1 hpools, Nat.lt_of_lt_of_le known.1 hpools,
        by simp [WorkerPhase.items]⟩
  | checkedDown place pool found down | checkedUp place pool found up
  | poolTerminated place pool found =>
      simp only [List.mem_singleton, forall_eq]
      exact ⟨Nat.lt_of_lt_of_le known.1 hpools, by simp [ShutdownPhase.items]⟩
  | drained place pool ring found valid empty capacity =>
      simp only [List.mem_singleton, forall_eq]
      refine ⟨Nat.lt_of_lt_of_le known.1 hpools, fun item hitem => ?_⟩
      exact (store.ring place item (by rw [Store.ring_eq found]; exact hitem)).mono sub
  | abandoned place pool items found =>
      intro op' hop
      refine hmono ?_
      rcases List.mem_append.mp hop with hop | hop
      · obtain ⟨item, hitem, hop⟩ := List.mem_flatMap.mp hop
        exact Op.known_discard known.1 (store.latch_lt (known.2 item hitem)) op' hop
      · obtain rfl := List.mem_singleton.mp hop
        exact ⟨known.1, by simp [ShutdownPhase.items]⟩
  | spawned place index name pool found inside =>
      simp only [List.mem_singleton, forall_eq]
      exact hmono known
  | spawnedAll place index name pool found outside =>
      simp only [List.mem_singleton, forall_eq]
      exact ⟨store.started place pool found, hmono known⟩
  | lastReleased place pool found nameless unused =>
      simp only [List.mem_cons, List.not_mem_nil, or_false, forall_eq_or_imp, forall_eq]
      exact ⟨⟨known, by simp [ShutdownPhase.items]⟩, known⟩
  | joined place index pool found ended | joinBegun place index pool found inside =>
      simp only [List.mem_singleton, forall_eq]
      exact known
  | _ => simp [Op.Known]

/-- An item comes into a ring only by the hands of a submission. -/
theorem Deed.mem_ring {op : Op α} (deed : Deed around s who op e) (rings : s.RingsValid) {p : Nat}
    {item : Item} (h : item ∈ e.store.ring p) :
    item ∈ s.ring p ∨ ∃ sub stage, op = .submit sub (.send (.send item stage)) ∧ sub.pool = p := by
  have hset : ∀ {place : Nat} {pool pool' : Pool} {s' : Store α}, item ∈ s'.ring p →
      s.pools[place]? = some pool → s'.pools = s.pools.set place pool' →
      (∀ item ∈ pool'.intake.value.toList, item ∈ pool.intake.value.toList) →
      item ∈ s.ring p := by
    intro place pool pool' s' hmem found hpools hsub
    have hring : s'.ring p = (s.setPool place pool').ring p := Store.ring_of_pools hpools p
    rw [hring, Store.ring_setPool found] at hmem
    split at hmem
    · rename_i hp
      rw [hp, Store.ring_eq found]
      exact hsub item hmem
    · exact hmem
  cases deed with
  | commanded command eases => exact .inl (Store.ring_of_pools eases.pools p ▸ h)
  | acted origin position action rest later eases =>
      exact .inl (Store.ring_of_pools eases.pools p ▸ h)
  | handed ticket name same => exact .inl (Store.ring_of_pools same.1 p ▸ h)
  | poolMade command name settings capacity threads =>
      refine .inl ?_
      rwa [Store.ring_append (Ring.toList_empty capacity) rfl] at h
  | jobAdded submits place pool job found | freeJobAdded submits place pool job found
  | batchAdded command place pool batch ticket found
  | freeBatchAdded command place pool batch ticket found
  | emptyBatchAdded command place pool batch job ticket found | memberAdded sub pool job rest found
  | left place pool found | enlisted sub pool item found | jobStarted place index pool item found
  | jobFinished place index pool item succeeded found | poolTerminated place pool found =>
      exact .inl (hset h found rfl fun _ hitem => hitem)
  | taken place index pool stage item ring found awake up valid first capacity =>
      refine .inl (hset h found rfl fun item' hitem => ?_)
      rw [first]
      exact List.mem_cons_of_mem _ hitem
  | drained place pool ring found valid empty capacity =>
      exact .inl (hset h found rfl (by simp [empty]))
  | pushed sub pool item' stage found awake up room =>
      rw [Store.ring_setPool found] at h
      split at h
      · rename_i hp
        rw [((rings sub.pool pool found).push room item').2, List.mem_append,
          List.mem_singleton] at h
        rcases h with h | rfl
        · exact .inl (by rw [hp, Store.ring_eq found]; exact h)
        · exact .inr ⟨sub, stage, rfl, hp.symm⟩
      · exact .inl h
  | _ => exact .inl h

/-- The workers of a new pool report to a new latch, which no ticket is made out for. -/
theorem Deed.started {op : Op α} (deed : Deed around s who op e) {p : Nat} {pool : Pool}
    (h : e.store.pools[p]? = some pool) :
    (∃ pool', s.pools[p]? = some pool' ∧ pool'.started = pool.started) ∨
      (pool.started = s.latches.length ∧ s.latches.length < e.store.latches.length ∧
        ∀ q ticket, .ticketed q ticket ∉ e.notes) := by
  rcases deed.pools.origin h with ⟨pool', found, grows⟩ | ⟨rfl, fresh⟩
  · exact .inl ⟨pool', found, grows.started.symm⟩
  · have hlt := (List.getElem?_eq_some_iff.mp h).1
    cases deed with
    | poolMade command name settings capacity threads =>
        refine .inr ⟨?_, by simp, by simp⟩
        simp only [List.getElem?_concat_length, Option.some.injEq] at h
        rw [← h]
    | commanded command eases => simp [eases.pools] at hlt
    | acted origin position action rest later eases => simp [eases.pools] at hlt
    | handed ticket name same => simp [same.1] at hlt
    | _ => simp [Store.setMonitor, Store.setChannel] at hlt

/-- A latch gets a name only when it is made, and no ticket is made out for it then. -/
theorem Deed.namesLatch {op : Op α} (deed : Deed around s who op e) {l : Nat}
    (h : e.store.NamesLatch l) :
    s.NamesLatch l ∨ (l = s.latches.length ∧ s.latches.length < e.store.latches.length ∧
      ∀ p ticket, .ticketed p ticket ∉ e.notes) := by
  have hmade : ∀ {s' : Store α} {name : String} {m : Latch}, s'.names.latches =
        s.names.latches.insert name s.latches.length → s'.latches = s.latches ++ [m] →
      s'.NamesLatch l → s.NamesLatch l ∨ (l = s.latches.length ∧
        s.latches.length < s'.latches.length ∧ ∀ p ticket, Entry.ticketed p ticket ∉ []) := by
    rintro s' name m hnames hlatches ⟨other, hother⟩
    rw [hnames] at hother
    rcases Table.of_find?_insert hother with rfl | hother
    · exact .inr ⟨rfl, by simp [hlatches], by simp⟩
    · exact .inl ⟨other, hother⟩
  cases deed with
  | commanded command eases => exact .inl (eases.latchNames l h)
  | acted origin position action rest later eases => exact .inl (eases.latchNames l h)
  | handed ticket name same =>
      obtain ⟨other, hother⟩ := h
      exact .inl ⟨other, same.2.2.1 ▸ hother⟩
  | latchMade command name count continuation held => exact hmade rfl rfl h
  | latchSettled name succeeded => exact hmade rfl rfl h
  | _ => exact .inl h

/-- A pool gets a name only when its threads have reported. -/
theorem Deed.namesPool {op : Op α} (deed : Deed around s who op e) {p : Nat}
    (h : e.store.NamesPool p) :
    s.NamesPool p ∨ ∃ l stage name, op = .latch l (.wait stage) (.ready p name) := by
  cases deed with
  | commanded command eases => exact .inl (eases.poolNames h)
  | acted origin position action rest later eases => exact .inl (eases.poolNames h)
  | handed ticket name same =>
      obtain ⟨other, hother⟩ := h
      exact .inl ⟨other, same.2.2.2 ▸ hother⟩
  | poolReady place l stage pool q name succeeded found awake verdict present =>
      obtain ⟨other, hother⟩ := h
      rcases Table.of_find?_insert hother with rfl | hother
      · exact .inr ⟨place, stage, name, rfl⟩
      · exact .inl ⟨other, hother⟩
  | _ => exact .inl h

/-- A ticket is kept only by a step that it was given to. -/
theorem Deed.keeps {op : Op α} (deed : Deed around s who op e) {ticket : Ticket}
    (h : e.store.Keeps ticket) : s.Keeps ticket ∨ ∃ name, op = .hand ticket name := by
  cases deed with
  | commanded command eases => exact .inl (eases.tickets ticket h)
  | acted origin position action rest later eases => exact .inl (eases.tickets ticket h)
  | handed given name same kept =>
      rcases kept ticket h with rfl | h
      · exact .inr ⟨name, rfl⟩
      · exact .inl h
  | _ => exact .inl h

end Deeds

namespace World

/-- Everything refers to what is there. -/
structure Known (w : World α) : Prop where
  store : w.store.Known w.history
  entries : ∀ who entry, (who, entry) ∈ w.history → entry.Known w.history w.store
  ops : ∀ t ∈ w.threads, ∀ op ∈ t.ops, op.Known w.history w.store

theorem Took.recorded {w v : World α} {index : Nat} {t : Thread α} {old tail : List (Op α)}
    {e : Effect α} (took : w.Took v index t old tail e) {entry : Entry} :
    Recorded v.history entry ↔ entry ∈ e.notes ∨ Recorded w.history entry := by
  constructor
  · rintro ⟨who, h⟩
    rcases took.mem_history.mp h with ⟨-, h⟩ | h
    · exact .inl h
    · exact .inr ⟨who, h⟩
  · rintro (h | ⟨who, h⟩)
    · exact ⟨t.who, took.mem_history.mpr (.inl ⟨rfl, h⟩)⟩
    · exact ⟨who, took.mem_history.mpr (.inr h)⟩

section Turns

variable {w v : World α} {index : Nat} {t : Thread α} {old tail : List (Op α)} {e : Effect α}

theorem Took.known_entry (took : w.Took v index t old tail e) (orderly : w.Orderly)
    (known : w.Known) {entry : Entry} (h : entry ∈ e.notes) : entry.Known v.history v.store := by
  have told : ∀ {note : Entry}, note ∈ e.notes → Recorded v.history note :=
    fun h => took.recorded.mpr (.inl h)
  have hlt : ∀ {p : Nat} {pool : Pool}, w.store.pools[p]? = some pool →
      p < v.store.pools.length := by
    intro p pool found
    rw [took.store]
    exact Nat.lt_of_lt_of_le (List.getElem?_eq_some_iff.mp found).1 took.act.pools.length_le
  have hpool : ∀ {p : Nat}, p < w.store.pools.length → p < v.store.pools.length := by
    intro p hp
    rw [took.store]
    exact Nat.lt_of_lt_of_le hp took.act.pools.length_le
  have hsub := took.history_subset
  rcases took.act.writes h with plain | ⟨_, _, rfl⟩ | ⟨op, rfl, writes, deed⟩
  · cases entry with
    | event | line => trivial
    | _ => exact plain.elim
  · trivial
  · have hop := known.ops t took.mem_threads op took.due_mem
    have before := (orderly.ordered t took.mem_threads)
    rw [took.ops] at before
    cases writes with
    | issuedJob submits p pool job found => exact hlt found
    | issuedBatch command p pool batch found => exact hlt found
    | issuedMember sub pool job rest found => exact hlt found
    | ticketedJob submits p pool job latch found issued fresh wanted =>
        refine ⟨hlt found, fun l hl => ?_, _, told issued, wanted⟩
        obtain ⟨rfl, hlen⟩ := fresh l hl
        rwa [took.store]
    | ticketedBatch command p pool batch latch found issued fresh wanted =>
        refine ⟨hlt found, fun l hl => ?_, _, told issued, rfl, rfl, wanted⟩
        obtain ⟨rfl, hlen⟩ := fresh l hl
        rwa [took.store]
    | ticketedEmpty p batch id asker succeeded fresh =>
        obtain ⟨who, issued⟩ := hop
        refine ⟨hpool (known.entries who _ issued), ?_, _, ⟨who, hsub issued⟩, rfl, rfl, ?_⟩
        · rintro l ⟨⟩
          rwa [took.store]
        · obtain ⟨-, job, finale⟩ := before.1.finale
          simp [finale]
    | pushed sub item stage | refused sub item =>
        exact ⟨hpool (known.store.pools _ _ hop.1), sub.ticket, hop.1.mono hsub,
          (hop.2 item rfl).mono hsub⟩
    | taken p i pool stage item behind found first =>
        exact ⟨hlt found, (known.store.ring p item
          (by rw [Store.ring_eq found, first]; simp)).mono hsub⟩
    | discarded p pool item found queued =>
        exact ⟨hlt found, (known.store.ring p item
          (by rw [Store.ring_eq found]; exact queued)).mono hsub⟩
    | _ => trivial

theorem Took.known (took : w.Took v index t old tail e) (orderly : w.Orderly) (known : w.Known) :
    v.Known := by
  have hsub := took.history_subset
  have ht := took.mem_threads
  have hpools : w.store.pools.length ≤ v.store.pools.length := by
    rw [took.store]
    exact took.act.pools.length_le
  have hlatches : w.store.latches.length ≤ v.store.latches.length := by
    rw [took.store]
    exact took.act.latches.length_le
  have hentries : ∀ who entry, (who, entry) ∈ v.history → entry.Known v.history v.store := by
    intro who entry h
    rcases took.mem_history.mp h with ⟨-, h⟩ | h
    · exact took.known_entry orderly known h
    · exact (known.entries who entry h).mono hsub hpools hlatches
  have stack := took.leads orderly
  have hops : ∀ op ∈ old, op.Known w.history w.store :=
    fun op hop => known.ops t ht op (took.mem_ops hop)
  have hticketed : ∀ p ticket, Recorded v.history (.ticketed p ticket) →
      p < v.store.pools.length ∧ ∀ l, ticket.latch = some l → l < v.store.latches.length := by
    rintro p ticket ⟨who, h⟩
    have := hentries who _ h
    exact ⟨this.1, this.2.1⟩
  refine ⟨⟨fun p ticket h => (hticketed p ticket h).1, fun p ticket l h => (hticketed p ticket h).2 l,
    ?_, ?_, ?_, ?_, ?_⟩, hentries, ?_⟩
  · intro p item h
    rw [took.store] at h
    cases took.act with
    | broke payload loose lands uncaught => exact (known.store.ring p item h).mono hsub
    | deed deed quiet =>
        rcases deed.mem_ring orderly.rings h with h | ⟨sub, stage, rfl, rfl⟩
        · exact (known.store.ring p item h).mono hsub
        · have := hops _ (List.mem_singleton_self _)
          exact ⟨sub.ticket, this.1.mono hsub, (this.2 item rfl).mono hsub⟩
  · intro p pool h
    rw [took.store] at h
    cases took.act with
    | broke payload loose lands uncaught =>
        exact Nat.lt_of_lt_of_le (known.store.started p pool h) hlatches
    | deed deed quiet =>
        rcases deed.started h with ⟨pool', found, hstarted⟩ | ⟨hstarted, hlt, -⟩
        · exact hstarted ▸ Nat.lt_of_lt_of_le (known.store.started p pool' found) hlatches
        · rw [hstarted, took.store]
          exact hlt
  · intro l h
    rw [took.store] at h
    cases took.act with
    | broke payload loose lands uncaught =>
        exact Nat.lt_of_lt_of_le (known.store.latchNames l h) hlatches
    | deed deed quiet =>
        rcases deed.namesLatch h with h | ⟨rfl, hlt, -⟩
        · exact Nat.lt_of_lt_of_le (known.store.latchNames l h) hlatches
        · rw [took.store]
          exact hlt
  · intro p h
    rw [took.store] at h
    cases took.act with
    | broke payload loose lands uncaught =>
        exact Nat.lt_of_lt_of_le (known.store.poolNames p h) hpools
    | deed deed quiet =>
        rcases deed.namesPool h with h | ⟨l, stage, name, rfl⟩
        · exact Nat.lt_of_lt_of_le (known.store.poolNames p h) hpools
        · exact Nat.lt_of_lt_of_le (hops _ (List.mem_singleton_self _)).2 hpools
  · intro ticket h
    rw [took.store] at h
    cases took.act with
    | broke payload loose lands uncaught =>
        exact (known.store.tickets ticket h).imp fun p h => h.mono hsub
    | deed deed quiet =>
        rcases deed.keeps h with h | ⟨name, rfl⟩
        · exact (known.store.tickets ticket h).imp fun p h => h.mono hsub
        · obtain ⟨p, h⟩ := hops _ (List.mem_singleton_self _)
          exact ⟨p, h.mono hsub⟩
  · refine took.forall_ops (P := fun _ op => op.Known v.history v.store)
      (fun who op h => h.wake) (fun u hu op hop => (known.ops u hu op hop).mono hsub hpools hlatches)
      ?_ ?_
    · intro op hop
      cases took.act with
      | deed deed quiet =>
          rw [took.store]
          exact deed.known stack.1.1 hsub (fun note h => took.recorded.mpr (.inl h)) known.store
            (hops _ (List.mem_singleton_self _)) op hop
      | broke payload loose lands uncaught =>
          exact (lands.known (fun op hop => hops op (List.mem_append_right _ hop)) op hop).mono hsub
            hpools hlatches
    · rintro p i name rfl
      have hp := hops _ (List.mem_singleton_self _)
      exact ⟨Nat.lt_of_lt_of_le hp hpools, by simp [WorkerPhase.items]⟩

end Turns

theorem Reachable.known {w : World α} (h : w.Reachable) : w.Known := by
  refine h.induct (P := Known) (fun cells => ?_) (fun w command _ ih => ?_)
    fun w v index t old tail e reachable took ih => took.known reachable.orderly ih
  · refine ⟨⟨?_, ?_, ?_, ?_, ?_, ?_, ?_⟩, ?_, ?_⟩
    all_goals simp [World.start, Recorded, Store.ring, Store.NamesLatch, Store.NamesPool, Store.Keeps,
      Table.find?]
  · exact ⟨ih.store, ih.entries, forall_ops_issue (P := fun _ op => op.Known w.history w.store)
      ih.ops trivial⟩

end World

end WorkerPool
