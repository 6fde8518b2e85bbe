import WorkerPool.Proofs.Load

/-! What is recorded, and by whom. `Writes` lists the entries that keep track of something, each
with the operation that records it, so that a fact about the history needs no look at the turns that
record nothing of the kind. The history only grows. -/

namespace WorkerPool

variable {α : Type}

/-- The operation can record the entry, which is not a plain one. -/
inductive Op.Writes (s : Store α) (e : Effect α) : Op α → Entry → Prop
  | issuedJob {op : Op α} {rest : List (Op α)} {asker : Asker} (submits : op.Submits rest asker)
      (p : Nat) (pool : Pool) (job : Job) (found : s.pools[p]? = some pool) :
      Writes s e op (.issued p pool.nextId (.job job))
  | issuedBatch (command : Command α) (p : Nat) (pool : Pool) (batch : Batch)
      (found : s.pools[p]? = some pool) :
      Writes s e (.command command) (.issued p pool.nextId (.batch batch))
  | issuedMember (sub : Submission) (pool : Pool) (job : Job) (rest : List Job)
      (found : s.pools[sub.pool]? = some pool) (ahead : sub.rest = job :: rest) :
      Writes s e (.submit sub .next)
        (.issued sub.pool pool.nextId (.member sub.ticket.id job))
  | ticketedJob {op : Op α} {rest : List (Op α)} {asker : Asker} (submits : op.Submits rest asker)
      (p : Nat) (pool : Pool) (job : Job) (latch : Option Nat) (found : s.pools[p]? = some pool)
      (told : .issued p pool.nextId (.job job) ∈ e.notes)
      (fresh : ∀ l, latch = some l → l = s.latches.length ∧ l < e.store.latches.length)
      (wanted : latch.isSome = job.waitable) :
      Writes s e op (.ticketed p (.job pool.nextId latch))
  | ticketedBatch (command : Command α) (p : Nat) (pool : Pool) (batch : Batch)
      (latch : Option Nat) (found : s.pools[p]? = some pool)
      (told : .issued p pool.nextId (.batch batch) ∈ e.notes)
      (fresh : ∀ l, latch = some l → l = s.latches.length ∧ l < e.store.latches.length)
      (wanted : latch.isSome = (batch.finale.isSome || batch.waitable)) :
      Writes s e (.command command)
        (.ticketed p (.batch pool.nextId batch.size batch.waitable latch))
  | ticketedEmpty (p : Nat) (batch : Batch) (id : Nat) (asker : Asker) (succeeded : Bool)
      (fresh : s.latches.length < e.store.latches.length) :
      Writes s e (.construct (.submission p batch id asker) succeeded)
        (.ticketed p (.batch id batch.size batch.waitable (some s.latches.length)))
  | pushed (sub : Submission) (item : Item) (stage : Stage) :
      Writes s e (.submit sub (.send (.send item stage))) (.pushed sub.pool item)
  | refused (sub : Submission) (item : Item) :
      Writes s e (.submit sub (.refuse item)) (.refused sub.pool item)
  | rejected (sub : Submission) (pool : Pool) (item : Item)
      (found : s.pools[sub.pool]? = some pool) :
      Writes s e (.submit sub (.refuse item)) (.line (.rejected pool.name item.id))
  | taken (p index : Nat) (pool : Pool) (stage : Stage) (item : Item) (behind : List Item)
      (found : s.pools[p]? = some pool) (first : pool.intake.value.toList = item :: behind) :
      Writes s e (.work p index (.receive (.receive stage))) (.taken p item)
  | discarded (p : Nat) (pool : Pool) (item : Item) (found : s.pools[p]? = some pool)
      (queued : item ∈ pool.intake.value.toList) :
      Writes s e (.shutDown p (.call .drain)) (.discarded p item)
  | counted (l : Nat) (failed : Bool) :
      Writes s e (.latch l (.count failed) .nobody) (.counted l failed)
  | called (origin : Origin) (position : Nat) (program : Program) (later : List Program) :
      Writes s e (.code origin position none (program :: later)) (.called origin position program)
  | returned (origin : Origin) (position : Nat) (later : List Program) :
      Writes s e (.code origin position (some []) later) (.returned origin (position - 1))
  | jobStarted (p index : Nat) (item : Item) :
      Writes s e (.work p index (.begin item)) (.line (.jobStarted item.id))
  | jobFinished (p index : Nat) (item : Item) :
      Writes s e (.work p index (.finish item true)) (.line (.jobFinished item.id))
  | jobPanicked (p index : Nat) (item : Item) (payload : Payload) :
      Writes s e (.work p index (.running item (some payload)))
        (.line (.jobPanicked item.id payload))
  | abandoned (p : Nat) (pool : Pool) (items : List Item) (found : s.pools[p]? = some pool) :
      Writes s e (.shutDown p (.call (.announce (.drained items))))
        (.line (.itemsAbandoned pool.name items.length))

section

variable {around : Around} {s : Store α} {who : Who} {old : List (Op α)} {e : Effect α}

theorem Deed.writes {op : Op α} (deed : Deed around s who op e) {note : Entry}
    (h : note ∈ e.notes) : note.Plain ∨ op.Writes s e note := by
  cases deed with
  | commanded command eases leaves plain => exact .inl (plain note h)
  | acted origin position action rest later eases leaves plain => exact .inl (plain note h)
  | accepted sub pool found through hands plain => exact .inl (plain note h)
  | refused sub pool found refuses plain => exact .inl (plain note h)
  | jobAdded submits place pool job found waitable =>
      simp only [List.mem_cons, List.not_mem_nil, or_false] at h
      rcases h with rfl | rfl | rfl
      · exact .inr (.issuedJob submits place pool job found)
      · refine .inr (.ticketedJob submits place pool job _ found (by simp) ?_ waitable.symm)
        rintro _ ⟨⟩
        exact ⟨rfl, by simp⟩
      · exact .inl trivial
  | freeJobAdded submits place pool job found free =>
      simp only [List.mem_cons, List.not_mem_nil, or_false] at h
      rcases h with rfl | rfl | rfl
      · exact .inr (.issuedJob submits place pool job found)
      · refine .inr (.ticketedJob submits place pool job _ found (by simp) ?_ free.symm)
        rintro _ ⟨⟩
      · exact .inl trivial
  | batchAdded command place pool batch ticket found counted ahead =>
      simp only [List.mem_cons, List.not_mem_nil, or_false] at h
      rcases h with rfl | rfl | rfl
      · exact .inr (.issuedBatch command place pool batch found)
      · refine .inr (.ticketedBatch command place pool batch _ found (by simp) ?_ ?_)
        · rintro _ ⟨⟩
          exact ⟨rfl, by simp⟩
        · rcases counted with h | h <;> simp [h]
      · exact .inl trivial
  | freeBatchAdded command place pool batch ticket found bare free =>
      simp only [List.mem_cons, List.not_mem_nil, or_false] at h
      rcases h with rfl | rfl | rfl
      · exact .inr (.issuedBatch command place pool batch found)
      · refine .inr (.ticketedBatch command place pool batch _ found (by simp) ?_ ?_)
        · rintro _ ⟨⟩
        · simp [bare, free]
      · exact .inl trivial
  | emptyBatchAdded command place pool batch job ticket found finale empty =>
      obtain rfl := List.mem_singleton.mp h
      exact .inr (.issuedBatch command place pool batch found)
  | batchSettled place pool batch id asker succeeded found =>
      simp only [List.mem_cons, List.not_mem_nil, or_false] at h
      rcases h with rfl | rfl
      · exact .inr (.ticketedEmpty place batch id asker succeeded (by simp))
      · exact .inl trivial
  | codeCalled origin position program later =>
      obtain rfl := List.mem_singleton.mp h
      exact .inr (.called origin position program later)
  | codeReturned origin position later =>
      obtain rfl := List.mem_singleton.mp h
      exact .inr (.returned origin position later)
  | countSkipped place l failed job found counts last held spoilt =>
      simp only [List.mem_cons, List.not_mem_nil, or_false] at h
      rcases h with rfl | rfl
      · exact .inr (.counted place failed)
      · exact .inl trivial
  | countStarted place l job found counts last held sound =>
      obtain rfl := List.mem_singleton.mp h
      exact .inr (.counted place false)
  | counted place l failed found counts plain =>
      obtain rfl := List.mem_singleton.mp h
      exact .inr (.counted place failed)
  | memberAdded sub pool job rest found ahead =>
      obtain rfl := List.mem_singleton.mp h
      exact .inr (.issuedMember sub pool job rest found ahead)
  | pushed sub pool item stage found awake up room =>
      obtain rfl := List.mem_singleton.mp h
      exact .inr (.pushed sub item stage)
  | refusing sub pool item found =>
      simp only [List.mem_cons, List.not_mem_nil, or_false] at h
      rcases h with rfl | rfl
      · exact .inr (.refused sub item)
      · exact .inr (.rejected sub pool item found)
  | taken place index pool stage item ring found awake up valid first capacity =>
      obtain rfl := List.mem_singleton.mp h
      exact .inr (.taken place index pool stage item ring.toList found first)
  | jobStarted place index pool item found =>
      obtain rfl := List.mem_singleton.mp h
      exact .inr (.jobStarted place index item)
  | jobBroke place index pool item payload found =>
      obtain rfl := List.mem_singleton.mp h
      exact .inr (.jobPanicked place index item payload)
  | jobFinished place index pool item succeeded found =>
      cases succeeded with
      | true =>
          obtain rfl := List.mem_singleton.mp h
          exact .inr (.jobFinished place index item)
      | false => cases h
  | drained place pool ring found valid empty capacity =>
      obtain ⟨item, queued, rfl⟩ := List.mem_map.mp h
      exact .inr (.discarded place pool item found queued)
  | abandoned place pool items found =>
      cases items with
      | nil => cases h
      | cons item items =>
          obtain rfl := List.mem_singleton.mp h
          exact .inr (.abandoned place pool (item :: items) found)
  | poolMade | poolReady | workStarted | workerStopped | lastReleased | joinedAll =>
      simp only [List.mem_cons, List.not_mem_nil, or_false] at h
      rcases h with rfl | rfl <;> exact .inl trivial
  | _ => cases h

/-- What an act records: plain lines, the entries of the operation that takes its turn, and the
functions that a panic ends. -/
theorem Act.writes (act : Act around s who old e) {note : Entry} (h : note ∈ e.notes) :
    note.Plain ∨ (∃ origin position, note = .raised origin position) ∨
      ∃ op, old = [op] ∧ op.Writes s e note ∧ Deed around s who op e := by
  cases act with
  | deed deed quiet =>
      exact (deed.writes h).imp_right fun h => .inr ⟨_, rfl, h, deed⟩
  | broke payload loose lands uncaught =>
      rcases lands.of_mem_notes h with ⟨origin, position, rfl⟩ | rfl
      · exact .inr (.inl ⟨origin, position, rfl⟩)
      · exact .inl trivial

theorem Act.written (act : Act around s who old e) {note : Entry} (h : note ∈ e.notes)
    (telling : ¬note.Plain) (whole : ∀ origin position, note ≠ .raised origin position) :
    ∃ op, old = [op] ∧ op.Writes s e note ∧ Deed around s who op e := by
  rcases act.writes h with plain | ⟨origin, position, rfl⟩ | written
  · exact absurd plain telling
  · exact absurd rfl (whole origin position)
  · exact written

end

/-! ### The service of a pool -/

/-- The operations of workers, shutdowns and submissions, and those at the beginning and the end of
a pool. A submission that has been refused as a whole does nothing for the pool any more. -/
def Op.Serves : Op α → Prop
  | .work .. | .shutDown .. | .join .. | .spawn .. | .construct (.submission ..) _ => True
  | .submit _ .refused => False
  | .submit .. => True
  | _ => False

/-- What a turn of the first operation can leave of the service of a pool. -/
inductive Op.Follows (s : Store α) (e : Effect α) : Op α → Op α → Prop
  | reported (p i : Nat) :
      Follows s e (.work p i .start) (.work p i (.receive (.receive .arriving)))
  | receiveSlept (p i : Nat) (pool : Pool) (stage : Stage) (found : s.pools[p]? = some pool)
      (up : pool.isDown = false) (empty : pool.intake.value.isEmpty = true) (same : e.store = s) :
      Follows s e (.work p i (.receive (.receive stage)))
        (.work p i (.receive (.receive .asleep)))
  | taken (p i : Nat) (stage : Stage) (item : Item) :
      Follows s e (.work p i (.receive (.receive stage)))
        (.work p i (.receive (.announce (.received (some item)))))
  | received (p i : Nat) (item : Item) :
      Follows s e (.work p i (.receive (.announce (.received (some item)))))
        (.work p i (.begin item))
  | started (p i : Nat) (item : Item) :
      Follows s e (.work p i (.begin item)) (.work p i (.running item none))
  | performed (p i : Nat) (item : Item) :
      Follows s e (.work p i (.running item none)) (.work p i (.finish item true))
  | broke (p i : Nat) (item : Item) (payload : Payload) :
      Follows s e (.work p i (.running item (some payload))) (.work p i (.finish item false))
  | finished (p i : Nat) (item : Item) (succeeded : Bool) :
      Follows s e (.work p i (.finish item succeeded))
        (.work p i (.receive (.receive .arriving)))
  | shutDown (op : Op α) (p : Nat) : Follows s e op (.shutDown p .check)
  | checkedDown (p : Nat) (pool : Pool) (found : s.pools[p]? = some pool)
      (down : pool.isDown = true) : Follows s e (.shutDown p .check) (.shutDown p .done)
  | checkedUp (p : Nat) : Follows s e (.shutDown p .check) (.shutDown p (.call .terminate))
  | terminated (p : Nat) (pool : Pool) (found : e.store.pools[p]? = some pool)
      (down : pool.isDown = true) :
      Follows s e (.shutDown p (.call .terminate)) (.shutDown p (.call .drain))
  | drained (p : Nat) (items : List Item) :
      Follows s e (.shutDown p (.call .drain)) (.shutDown p (.call (.announce (.drained items))))
  | settled (p : Nat) (items : List Item) :
      Follows s e (.shutDown p (.call (.announce (.drained items)))) (.shutDown p .done)
  | created (command : Command α) (pool : Pool) (name : String)
      (fresh : e.store.pools = s.pools ++ [pool]) :
      Follows s e (.command command) (.spawn s.pools.length 0 name)
  | spawned (p i : Nat) (name : String) : Follows s e (.spawn p i name) (.spawn p (i + 1) name)
  | released (p : Nat) : Follows s e (.release p) (.join p 0 false)
  | joined (p i : Nat) : Follows s e (.join p i true) (.join p (i + 1) false)
  | joinBegun (p i : Nat) (pool : Pool) (found : s.pools[p]? = some pool)
      (inside : i < pool.threads) : Follows s e (.join p i false) (.join p i true)
  | jobAdded {op : Op α} {rest : List (Op α)} {asker : Asker} (submits : op.Submits rest asker)
      (p : Nat) (pool : Pool) (job : Job) (latch : Option Nat) (found : s.pools[p]? = some pool)
      (told : .ticketed p (.job pool.nextId latch) ∈ e.notes) :
      Follows s e op
        (.submit { pool := p, asker, ticket := .job pool.nextId latch }
          (.enlist { id := pool.nextId, job, latch }))
  | batchAdded (command : Command α) (p : Nat) (pool : Pool) (batch : Batch) (asker : Asker)
      (latch : Option Nat) (found : s.pools[p]? = some pool)
      (issued : .issued p pool.nextId (.batch batch) ∈ e.notes)
      (alone : ∀ id job, .issued p id (.member pool.nextId job) ∉ e.notes) :
      Follows s e (.command command)
        (.submit
          { pool := p
            asker
            ticket := .batch pool.nextId batch.size batch.waitable latch
            rest := batch.members }
          .next)
  | finaleBegun (command : Command α) (p : Nat) (pool : Pool) (batch : Batch) (asker : Asker)
      (found : s.pools[p]? = some pool) (empty : batch.members = [])
      (untold : ∀ ticket, .ticketed p ticket ∉ e.notes) :
      Follows s e (.command command) (.construct (.submission p batch pool.nextId asker) true)
  | finaleThrough (p : Nat) (batch : Batch) (id : Nat) (asker : Asker) (succeeded : Bool)
      (latch : Option Nat) :
      Follows s e (.construct (.submission p batch id asker) succeeded)
        (.submit
          { pool := p
            asker
            ticket := .batch id batch.size batch.waitable latch
            rest := batch.members }
          .next)
  | memberAdded (sub : Submission) (pool : Pool) (job : Job) (rest : List Job)
      (found : s.pools[sub.pool]? = some pool) (ahead : sub.rest = job :: rest)
      (issued : e.notes = [.issued sub.pool pool.nextId (.member sub.ticket.id job)]) :
      Follows s e (.submit sub .next)
        (.submit { sub with rest }
          (.enlist { id := pool.nextId, job, latch := sub.ticket.latch }))
  | enlisted (sub : Submission) (item : Item) :
      Follows s e (.submit sub (.enlist item)) (.submit sub (.send (.offer item)))
  | offered (sub : Submission) (item : Item) :
      Follows s e (.submit sub (.send (.offer item)))
        (.submit sub (.send (.send item .arriving)))
  | givenBack (sub : Submission) (call : Channel.Call Item) (item : Item)
      (had : (SubmissionPhase.send call).item? = some item) :
      Follows s e (.submit sub (.send call)) (.submit sub (.refuse item))
  | pushed (sub : Submission) (item : Item) (stage : Stage)
      (told : .pushed sub.pool item ∈ e.notes) :
      Follows s e (.submit sub (.send (.send item stage)))
        (.submit sub (.send (.announce .sent)))
  | sendSlept (sub : Submission) (item : Item) (stage : Stage) (pool : Pool)
      (found : s.pools[sub.pool]? = some pool) (up : pool.isDown = false)
      (full : pool.intake.value.full = true) (same : e.store = s) :
      Follows s e (.submit sub (.send (.send item stage)))
        (.submit sub (.send (.send item .asleep)))
  | sent (sub : Submission) :
      Follows s e (.submit sub (.send (.announce .sent))) (.submit sub .next)

section

variable {around : Around} {s : Store α} {who : Who} {old : List (Op α)} {e : Effect α}

theorem Op.Settles.not_serves {op : Op α} (h : op.Settles) : ¬op.Serves := by
  intro serves
  cases h <;> exact serves

theorem Op.Submits.not_serves {op : Op α} {made : List (Op α)} {asker : Asker}
    (submits : op.Submits made asker) : ∀ op' ∈ made, ¬op'.Serves := by
  intro op' hop serves
  cases submits with
  | command => cases hop
  | action =>
      obtain rfl := List.mem_singleton.mp hop
      exact serves

theorem Deed.follows {op : Op α} (deed : Deed around s who op e) {op' : Op α} (h : op' ∈ e.ops)
    (serves : op'.Serves) : op.Follows s e op' := by
  cases deed with
  | commanded command eases leaves plain =>
      cases leaves with
      | shutDown place answer named =>
          simp only [List.mem_cons, List.not_mem_nil, or_false] at h
          rcases h with rfl | rfl | rfl
          · exact .shutDown _ place
          · exact serves.elim
          · exact serves.elim
      | nothing => cases h
      | _ =>
          simp only [List.mem_cons, List.not_mem_nil, or_false] at h
          rcases h with rfl | rfl | rfl <;> exact serves.elim
  | acted origin position action rest later eases leaves plain =>
      rcases List.mem_append.mp h with h | h
      · cases leaves with
        | shutDown place named =>
            simp only [List.mem_cons, List.not_mem_nil, or_false] at h
            rcases h with rfl | rfl
            · exact .shutDown _ place
            · exact serves.elim
        | nothing => cases h
        | _ =>
            obtain rfl := List.mem_singleton.mp h
            exact serves.elim
      · obtain rfl := List.mem_singleton.mp h
        exact serves.elim
  | poolMade command name settings capacity threads =>
      obtain rfl := List.mem_singleton.mp h
      exact .created command _ name rfl
  | jobAdded submits place pool job found waitable =>
      rcases List.mem_cons.mp h with rfl | h
      · exact .jobAdded submits place pool job _ found (by simp)
      · have hmade := submits.not_serves
        exact absurd serves (hmade op' h)
  | freeJobAdded submits place pool job found free =>
      rcases List.mem_cons.mp h with rfl | h
      · exact .jobAdded submits place pool job _ found (by simp)
      · have hmade := submits.not_serves
        exact absurd serves (hmade op' h)
  | batchAdded command place pool batch ticket found counted ahead =>
      obtain rfl := List.mem_singleton.mp h
      exact .batchAdded command place pool batch _ _ found (by simp) (by simp)
  | freeBatchAdded command place pool batch ticket found bare free =>
      obtain rfl := List.mem_singleton.mp h
      exact .batchAdded command place pool batch _ _ found (by simp) (by simp)
  | emptyBatchAdded command place pool batch job ticket found finale empty =>
      simp only [List.mem_cons, List.not_mem_nil, or_false] at h
      rcases h with rfl | rfl
      · exact serves.elim
      · exact .finaleBegun command place pool batch _ found empty (by simp)
  | batchSettled place pool batch id asker succeeded found =>
      obtain rfl := List.mem_singleton.mp h
      exact .finaleThrough place batch id asker succeeded _
  | memberAdded sub pool job rest found ahead =>
      obtain rfl := List.mem_singleton.mp h
      exact .memberAdded sub pool job rest found ahead rfl
  | enlisted sub pool item found =>
      obtain rfl := List.mem_singleton.mp h
      exact .enlisted sub item
  | offered sub pool item found up =>
      obtain rfl := List.mem_singleton.mp h
      exact .offered sub item
  | givenBack sub pool item call found down sends =>
      obtain rfl := List.mem_singleton.mp h
      refine .givenBack sub call item ?_
      rcases sends with rfl | ⟨stage, -, rfl⟩ <;> rfl
  | pushed sub pool item stage found awake up room =>
      obtain rfl := List.mem_singleton.mp h
      exact .pushed sub item stage (by simp)
  | sendSlept sub pool item stage found awake up full =>
      obtain rfl := List.mem_singleton.mp h
      exact .sendSlept sub item stage pool found up full rfl
  | sendAnnounced sub pool found =>
      obtain rfl := List.mem_singleton.mp h
      exact .sent sub
  | monitorTurned place call left =>
      rcases left with rfl | ⟨call, rfl⟩
      · cases h
      · obtain rfl := List.mem_singleton.mp h
        exact serves.elim
  | channelTurned place call left =>
      rcases left with rfl | ⟨call, rfl⟩
      · cases h
      · obtain rfl := List.mem_singleton.mp h
        exact serves.elim
  | counted place l failed found counts plain =>
      dsimp only at h
      split at h
      · obtain rfl := List.mem_singleton.mp h
        exact serves.elim
      · cases h
  | continued place l job succeeded found =>
      dsimp only at h
      split at h
      · obtain rfl := List.mem_singleton.mp h
        exact serves.elim
      · cases h
  | left place pool found =>
      dsimp only at h
      split at h
      · obtain rfl := List.mem_singleton.mp h
        exact serves.elim
      · cases h
  | poolReady place l stage pool q name succeeded found awake verdict present =>
      rcases List.mem_append.mp h with h | h
      · obtain ⟨old, -, rfl⟩ := List.mem_map.mp h
        exact serves.elim
      · obtain rfl := List.mem_singleton.mp h
        exact serves.elim
  | accepted sub pool found through hands plain =>
      cases hands <;>
        · simp only [List.mem_cons, List.not_mem_nil, or_false] at h
          rcases h with rfl | rfl <;> exact serves.elim
  | refused sub pool found refuses plain =>
      cases refuses <;>
        · simp only [List.mem_cons, List.not_mem_nil, or_false] at h
          rcases h with rfl | rfl <;> exact serves.elim
  | refusing sub pool item found =>
      rcases List.mem_append.mp h with h | h
      · exact absurd serves (Op.discard_settles _ _ _ h).not_serves
      · exact absurd serves (sub.afterRefusal_settles _ h).not_serves
  | workStarted place index pool found =>
      simp only [List.mem_cons, List.not_mem_nil, or_false] at h
      rcases h with rfl | rfl
      · exact serves.elim
      · exact .reported place index
  | receiveSlept place index pool stage found awake up empty =>
      obtain rfl := List.mem_singleton.mp h
      exact .receiveSlept place index pool stage found up empty rfl
  | taken place index pool stage item ring found awake up valid first capacity =>
      obtain rfl := List.mem_singleton.mp h
      exact .taken place index stage item
  | receiveAnnounced place index pool item found =>
      obtain rfl := List.mem_singleton.mp h
      exact .received place index item
  | jobStarted place index pool item found =>
      simp only [List.mem_cons, List.not_mem_nil, or_false] at h
      rcases h with rfl | rfl
      · exact serves.elim
      · exact .started place index item
  | jobRan place index pool item found =>
      rcases List.mem_append.mp h with h | h
      · exact absurd serves (Op.complete_settles _ _ _ h).not_serves
      · obtain rfl := List.mem_singleton.mp h
        exact .performed place index item
  | jobBroke place index pool item payload found =>
      rcases List.mem_append.mp h with h | h
      · exact absurd serves (Op.complete_settles _ _ _ h).not_serves
      · obtain rfl := List.mem_singleton.mp h
        exact .broke place index item payload
  | jobFinished place index pool item succeeded found =>
      simp only [List.mem_cons, List.not_mem_nil, or_false] at h
      rcases h with rfl | rfl
      · exact serves.elim
      · exact .finished place index item succeeded
  | checkedDown place pool found down =>
      obtain rfl := List.mem_singleton.mp h
      exact .checkedDown place pool found down
  | checkedUp place pool found up =>
      obtain rfl := List.mem_singleton.mp h
      exact .checkedUp place
  | poolTerminated place pool found =>
      obtain rfl := List.mem_singleton.mp h
      have hlt := (List.getElem?_eq_some_iff.mp found).1
      exact .terminated place { pool with intake := Monitor.terminate pool.intake }
        (by simp [hlt]) rfl
  | drained place pool ring found valid empty capacity =>
      obtain rfl := List.mem_singleton.mp h
      exact .drained place _
  | abandoned place pool items found =>
      rcases List.mem_append.mp h with h | h
      · exact absurd serves (Op.flatMap_discard_settles _ _ _ h).not_serves
      · obtain rfl := List.mem_singleton.mp h
        exact .settled place items
  | spawned place index name pool found inside =>
      obtain rfl := List.mem_singleton.mp h
      exact .spawned place index name
  | lastReleased place pool found nameless unused =>
      simp only [List.mem_cons, List.not_mem_nil, or_false] at h
      rcases h with rfl | rfl
      · exact .shutDown _ place
      · exact .released place
  | joined place index pool found ended =>
      obtain rfl := List.mem_singleton.mp h
      exact .joined place index
  | joinBegun place index pool found inside =>
      obtain rfl := List.mem_singleton.mp h
      exact .joinBegun place index pool found inside
  | codeCalled | codeReturned | actionRaised | countSkipped | waitSlept | refusedWaited | idleSlept
  | spawnedAll =>
      obtain rfl := List.mem_singleton.mp h
      exact serves.elim
  | countStarted =>
      simp only [List.mem_cons, List.not_mem_nil, or_false] at h
      rcases h with rfl | rfl <;> exact serves.elim
  | _ => cases h

/-- A panic leaves of the service of a pool a worker, or the submission of a batch, that remembers
it. -/
theorem Op.Lands.of_serves {payload : Payload} {old new : List (Op α)} {notes : List Entry}
    (lands : Op.Lands payload old new notes) {op : Op α} (h : op ∈ new) (serves : op.Serves) :
    (∃ p i item, op = .work p i (.running item (some payload)) ∧
      .work p i (.running item none) ∈ old) ∨
    ∃ p batch id asker, op = .construct (.submission p batch id asker) false ∧
      .construct (.submission p batch id asker) true ∈ old := by
  cases lands with
  | nowhere => cases h
  | item position current later p i item =>
      exact .inl ⟨p, i, item, List.mem_singleton.mp h, by simp⟩
  | batch position current later p batch id asker =>
      exact .inr ⟨p, batch, id, asker, List.mem_singleton.mp h, by simp⟩
  | finale | latchMade =>
      obtain rfl := List.mem_singleton.mp h
      exact serves.elim

end

namespace World

variable {w v : World α} {index : Nat} {t : Thread α} {old tail : List (Op α)} {e : Effect α}

theorem Took.mem_history (took : w.Took v index t old tail e) {who : Who} {entry : Entry} :
    (who, entry) ∈ v.history ↔ (who = t.who ∧ entry ∈ e.notes) ∨ (who, entry) ∈ w.history := by
  rw [took.history, List.mem_append, List.mem_reverse, List.mem_map]
  simp only [Prod.mk.injEq]
  constructor
  · rintro (⟨note, hnote, rfl, rfl⟩ | h)
    · exact .inl ⟨rfl, hnote⟩
    · exact .inr h
  · rintro (⟨rfl, h⟩ | h)
    · exact .inl ⟨entry, h, rfl, rfl⟩
    · exact .inr h

/-- Nothing is taken out of the history. -/
theorem Took.history_subset (took : w.Took v index t old tail e) : w.history ⊆ v.history := by
  rintro ⟨who, entry⟩ h
  exact took.mem_history.mpr (.inr h)

/-- Whatever is read off the entries one by one, in order, a turn adds what its notes say. -/
theorem Took.noted {β : Type} (took : w.Took v index t old tail e) (f : Who × Entry → Option β) :
    (v.history.filterMap f).reverse =
      (w.history.filterMap f).reverse ++ e.notes.filterMap fun note => f (t.who, note) := by
  rw [took.history, List.filterMap_append, List.reverse_append, List.filterMap_reverse,
    List.reverse_reverse, List.filterMap_map]
  rfl

/-- The same of what is read off the entries apart from who made them. -/
theorem Took.noted_by {β : Type} (took : w.Took v index t old tail e) (f : Entry → Option β) :
    (v.history.filterMap fun (who, entry) => (f entry).map (who, ·)).reverse =
      (w.history.filterMap fun (who, entry) => (f entry).map (who, ·)).reverse ++
        (e.notes.filterMap f).map (t.who, ·) := by
  rw [took.noted, List.map_filterMap]

section

variable {β : Type} {h : List (Who × Entry)} {f : Entry → Option β} {entry : Entry} {x : β}

/-- What only one entry says is read off a history if and only if the entry is in it. -/
theorem mem_noted (only : ∀ other, f other = some x ↔ other = entry) :
    x ∈ (h.filterMap fun (_, other) => f other).reverse ↔ ∃ who, (who, entry) ∈ h := by
  simp only [List.mem_reverse, List.mem_filterMap, only]
  constructor
  · rintro ⟨⟨who, other⟩, mem, rfl⟩
    exact ⟨who, mem⟩
  · rintro ⟨who, mem⟩
    exact ⟨_, mem, rfl⟩

/-- The same of what is read off together with who has made the entry. -/
theorem mem_noted_by (only : ∀ other, f other = some x ↔ other = entry) {who : Who} :
    (who, x) ∈ (h.filterMap fun (who, other) => (f other).map (who, ·)).reverse ↔
      (who, entry) ∈ h := by
  simp only [List.mem_reverse, List.mem_filterMap, Option.map_eq_some_iff, Prod.mk.injEq]
  constructor
  · rintro ⟨⟨who', other⟩, mem, x', said, rfl, rfl⟩
    exact (only other).mp said ▸ mem
  · exact fun mem => ⟨_, mem, x, (only entry).mpr rfl, rfl, rfl⟩

end

end World

end WorkerPool
