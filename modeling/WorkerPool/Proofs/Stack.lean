import WorkerPool.Proofs.Deed

/-! What can stand behind what among the things that a thread has left to do. An operation comes to
stand in front of others only because a turn has put it there, so each kind of operation has few
kinds of successors: behind a function of a job stands the operation that deals with its end, behind
the calls that a function makes stands the rest of the function, and what a shutdown or a refused
submission has to settle stands in front of the shutdown or the submission. The last operation of a
worker is always the one that says where the worker stands.

A panic that leaves the operation in front therefore meets only functions of callers and the ends of
calls before it is caught, and nothing that counts for anybody is lost on the way. -/

namespace WorkerPool

variable {α : Type}

/-- The thread of a step, not one of a pool. -/
def Who.Steps : Who → Prop
  | .step _ => True
  | .worker .. => False

/-- The item that a submission has in its hands. -/
def SubmissionPhase.item? : SubmissionPhase → Option Item
  | .enlist item | .send (.offer item) | .send (.send item _) | .refuse item => some item
  | _ => none

/-- A submission has an item of its own in its hands: the item reports to the latch of the ticket,
and if a single job was submitted, it is that one. -/
structure Submission.Fits (sub : Submission) (phase : SubmissionPhase) : Prop where
  latch : ∀ item, phase.item? = some item → item.latch = sub.ticket.latch
  alone : ∀ id latch, sub.ticket = .job id latch →
    sub.rest = [] ∧ ∀ item, phase.item? = some item → item.id = id

namespace Op

/-- What a call comes back to that a function or a command has made. -/
inductive Resumes : List (Op α) → Prop
  | answer (answer : Answer α) (rest : List (Op α)) : Resumes (.answer answer :: rest)
  | code (origin : Origin) (position : Nat) (current : Program) (later : List Program)
      (rest : List (Op α)) : Resumes (.code origin position (some current) later :: rest)

/-- Behind a submission stands the function that submits, or nothing. -/
inductive AfterSubmission (who : Who) (sub : Submission) : List (Op α) → Prop
  | step (name : Option String) (handover : Handover) (asked : sub.asker = .step name handover)
      (steps : who.Steps) : AfterSubmission who sub []
  | function (asked : sub.asker = .function) (origin : Origin) (position : Nat) (current : Program)
      (later : List Program) (rest : List (Op α)) :
      AfterSubmission who sub (.code origin position (some current) later :: rest)

/-- What stands behind while items of the pool `p` are being settled. -/
inductive Clearing (p : Nat) : List (Op α) → Prop
  | leave {rest : List (Op α)} (behind : Clearing p rest) : Clearing p (.backlog p .leave :: rest)
  | count (l : Nat) {rest : List (Op α)} (behind : Clearing p rest) :
      Clearing p (.latch l (.count true) .nobody :: rest)
  | done (rest : List (Op α)) : Clearing p (.shutDown p .done :: rest)
  | wait (l : Nat) (sub : Submission) (rest : List (Op α)) (mine : sub.pool = p) :
      Clearing p (.latch l (.wait .arriving) (.refused sub) :: rest)
  | refused (sub : Submission) (rest : List (Op α)) (mine : sub.pool = p) :
      Clearing p (.submit sub .refused :: rest)

/-- Behind a departure stands the worker that has finished an item, or what else there is to settle.
-/
inductive AfterLeave (p : Nat) : List (Op α) → Prop
  | work (index : Nat) : AfterLeave p [.work p index (.receive (.receive .arriving))]
  | clearing {rest : List (Op α)} (behind : Clearing p rest) : AfterLeave p rest

/-- A count is made by a caller, by a worker that reports for duty or has performed an item, or for
an item that nobody performs. -/
inductive AfterCount (l : Nat) : Bool → List (Op α) → Prop
  | called (failed : Bool) {rest : List (Op α)} (back : Resumes rest) : AfterCount l failed rest
  | duty (p index : Nat) :
      AfterCount l false [.work p index (.receive (.receive .arriving))]
  | performed (p index : Nat) (item : Item) (succeeded : Bool) (told : item.latch = some l) :
      AfterCount l (!succeeded) [.work p index (.finish item succeeded)]
  | settled (p : Nat) {rest : List (Op α)} (behind : Clearing p rest) : AfterCount l true rest

/-- What stands behind the end of a call on a pool. -/
inductive AfterRelease (who : Who) : List (Op α) → Prop
  | nothing (steps : who.Steps) : AfterRelease who []
  | hand (ticket : Ticket) (name : Option String) (rest : List (Op α)) :
      AfterRelease who (.hand ticket name :: rest)
  | resumes {rest : List (Op α)} (back : Resumes rest) : AfterRelease who rest

/-- What stands behind a shutdown. -/
inductive AfterShutdown (p : Nat) : List (Op α) → Prop
  | answer (answer : Answer α) (rest : List (Op α)) : AfterShutdown p (.answer answer :: rest)
  | release (rest : List (Op α)) : AfterShutdown p (.release p :: rest)
  | join (rest : List (Op α)) : AfterShutdown p (.join p 0 false :: rest)

/-- What stands behind the functions that are called on account of an origin. -/
inductive AfterCode : Origin → List (Op α) → Prop
  | caller {rest : List (Op α)} (back : Resumes rest) : AfterCode .caller rest
  | latchMade (name : String) : AfterCode .caller [.construct (.latch name) true]
  | batch (p : Nat) (batch : Batch) (id : Nat) (asker : Asker) :
      AfterCode (.batch p id) [.construct (.submission p batch id asker) true]
  | finale (l : Nat) (job : Job) (rest : List (Op α)) :
      AfterCode (.latch l) (.latch l (.running job true) .nobody :: rest)
  | item (p index : Nat) (item : Item) :
      AfterCode (.item p item.id) [.work p index (.running item none)]

/-- `op` can stand in front of `rest` in the thread `who`. -/
inductive Before (who : Who) : Op α → List (Op α) → Prop
  | command (steps : who.Steps) (command : Command α) : Before who (.command command) []
  | code (origin : Origin) (position : Nat) (current : Option Program) (later : List Program)
      {rest : List (Op α)} (after : AfterCode origin rest) :
      Before who (.code origin position current later) rest
  | monitor (steps : who.Steps) (place : Nat) (call : Monitor.Call Int) :
      Before who (.monitor place call) []
  | channel (steps : who.Steps) (place : Nat) (call : Channel.Call α) :
      Before who (.channel place call) []
  | count (l : Nat) (failed : Bool) {rest : List (Op α)} (after : AfterCount l failed rest) :
      Before who (.latch l (.count failed) .nobody) rest
  | running (l : Nat) (job : Job) (succeeded : Bool) {rest : List (Op α)}
      (after : AfterCount l false rest) :
      Before who (.latch l (.running job succeeded) .nobody) rest
  | latchAnnounce (l : Nat) (failed : Bool) {rest : List (Op α)}
      (after : AfterCount l failed rest) : Before who (.latch l .announce .nobody) rest
  | terminate (l : Nat) {rest : List (Op α)} (back : Resumes rest) :
      Before who (.latch l .terminate .nobody) rest
  | waitCaller (steps : who.Steps) (l : Nat) (stage : Stage) :
      Before who (.latch l (.wait stage) .caller) []
  | waitTicket (steps : who.Steps) (l : Nat) (stage : Stage) (id : Nat) {rest : List (Op α)}
      (after : rest = [] ∨ ∃ p, rest = [.release p]) :
      Before who (.latch l (.wait stage) (.ticket id)) rest
  | waitRefused (l : Nat) (stage : Stage) (sub : Submission) (told : sub.ticket.latch = some l)
      (fits : sub.Fits .refused) {rest : List (Op α)} (after : AfterSubmission who sub rest) :
      Before who (.latch l (.wait stage) (.refused sub)) rest
  | waitReady (steps : who.Steps) (l : Nat) (stage : Stage) (p : Nat) (name : String) :
      Before who (.latch l (.wait stage) (.ready p name)) []
  | leave (p : Nat) {rest : List (Op α)} (after : AfterLeave p rest) :
      Before who (.backlog p .leave) rest
  | backlogAnnounce (p : Nat) {rest : List (Op α)} (after : AfterLeave p rest) :
      Before who (.backlog p .announce) rest
  | awaitIdle (steps : who.Steps) (p : Nat) (stage : Stage) (answer : Answer α) :
      Before who (.backlog p (.awaitIdle stage)) [.answer answer, .release p]
  | submit (sub : Submission) (phase : SubmissionPhase)
      (proper : (Op.submit sub phase : Op α).Proper) (fits : sub.Fits phase)
      {rest : List (Op α)} (after : AfterSubmission who sub rest) :
      Before who (.submit sub phase) rest
  | constructLatch (steps : who.Steps) (name : String) (succeeded : Bool) :
      Before who (.construct (.latch name) succeeded) []
  | constructBatch (steps : who.Steps) (p : Nat) (batch : Batch) (id : Nat) (job : Job)
      (name : Option String) (handover : Handover) (succeeded : Bool) (empty : batch.members = [])
      (finale : batch.finale = some job) :
      Before who (.construct (.submission p batch id (.step name handover)) succeeded) []
  | work (p index : Nat) (phase : WorkerPhase) (self : who = .worker p index)
      (proper : (Op.work p index phase : Op α).Proper) : Before who (.work p index phase) []
  | shutDown (p : Nat) (phase : ShutdownPhase) (proper : (Op.shutDown p phase : Op α).Proper)
      {rest : List (Op α)} (after : AfterShutdown p rest) : Before who (.shutDown p phase) rest
  | spawn (steps : who.Steps) (p index : Nat) (name : String) : Before who (.spawn p index name) []
  | join (p index : Nat) (waiting : Bool) {rest : List (Op α)} (after : AfterRelease who rest) :
      Before who (.join p index waiting) rest
  | release (p : Nat) {rest : List (Op α)} (after : AfterRelease who rest) :
      Before who (.release p) rest
  | hand (ticket : Ticket) (name : Option String) {rest : List (Op α)}
      (after : (rest = [] ∧ who.Steps) ∨ ∃ p rest', rest = .release p :: rest' ) :
      Before who (.hand ticket name) rest
  | answer (answer : Answer α) {rest : List (Op α)}
      (after : (rest = [] ∧ who.Steps) ∨ ∃ p rest', rest = .release p :: rest' ) :
      Before who (.answer answer) rest

/-- The operations `ops` in front of `rest`, each of which can stand where it stands. -/
def Leads (who : Who) : List (Op α) → List (Op α) → Prop
  | [], _ => True
  | op :: ops, rest => op.Before who (ops ++ rest) ∧ Leads who ops rest

@[simp] theorem leads_nil (who : Who) (rest : List (Op α)) : Leads who [] rest := trivial

@[simp] theorem leads_cons (who : Who) (op : Op α) (ops rest : List (Op α)) :
    Leads who (op :: ops) rest ↔ op.Before who (ops ++ rest) ∧ Leads who ops rest := Iff.rfl

theorem leads_append (who : Who) (ops ops' rest : List (Op α)) :
    Leads who (ops ++ ops') rest ↔ Leads who ops (ops' ++ rest) ∧ Leads who ops' rest := by
  induction ops with
  | nil => simp
  | cons op ops ih => simp [ih, and_assoc]

/-- Each operation in a stack can stand where it stands. -/
theorem Leads.before {who : Who} {ops behind : List (Op α)} (h : Leads who ops behind) {op : Op α}
    (hop : op ∈ ops) : ∃ above rest, ops = above ++ op :: rest ∧ op.Before who (rest ++ behind) := by
  obtain ⟨above, rest, rfl⟩ := List.append_of_mem hop
  rw [leads_append] at h
  exact ⟨above, rest, rfl, h.2.1⟩

theorem Before.proper {who : Who} {op : Op α} {rest : List (Op α)} (h : op.Before who rest) :
    op.Proper := by
  cases h with
  | submit _ _ proper => exact proper
  | work _ _ _ _ proper => exact proper
  | shutDown _ _ proper => exact proper
  | waitCaller | waitTicket | waitRefused | waitReady => simp [Op.Proper]
  | _ => trivial

theorem Before.fits {who : Who} {sub : Submission} {phase : SubmissionPhase} {rest : List (Op α)}
    (h : Before who (.submit sub phase) rest) : sub.Fits phase := by
  cases h with
  | submit _ _ _ fits => exact fits

theorem Before.self {who : Who} {p index : Nat} {phase : WorkerPhase} {rest : List (Op α)}
    (h : Before who (.work p index phase) rest) : who = .worker p index := by
  cases h with
  | work _ _ _ self => exact self

/-- Where a worker stands is said by its last operation. -/
theorem Before.alone {who : Who} {p index : Nat} {phase : WorkerPhase} {rest : List (Op α)}
    (h : Before who (.work p index phase) rest) : rest = [] := by
  cases h
  rfl

/-- Only a batch without members has its finale performed before its latch is made. -/
theorem Before.finale {who : Who} {p id : Nat} {batch : Batch} {asker : Asker} {succeeded : Bool}
    {rest : List (Op α)}
    (h : Before who (.construct (.submission p batch id asker) succeeded) rest) :
    batch.members = [] ∧ ∃ job, batch.finale = some job := by
  cases h with
  | constructBatch _ _ _ _ job _ _ _ empty finale => exact ⟨empty, job, finale⟩

/-- A sleeper that is woken stays where it is. -/
theorem Before.wake {who : Who} {op : Op α} {rest : List (Op α)} (h : op.Before who rest) :
    op.wake.Before who rest := by
  have hsame := h
  cases h with
  | monitor steps place call => exact .monitor steps place _
  | channel steps place call => exact .channel steps place _
  | waitCaller steps l stage => exact .waitCaller steps l _
  | waitTicket steps l stage id after => exact .waitTicket steps l _ id after
  | waitRefused l stage sub told fits after => exact .waitRefused l _ sub told fits after
  | waitReady steps l stage p name => exact .waitReady steps l _ p name
  | awaitIdle steps p stage answer => exact .awaitIdle steps p _ answer
  | submit sub phase proper fits after =>
      cases phase with
      | send call =>
          refine .submit sub _ ?_ ⟨?_, ?_⟩ after
          · cases call <;> exact proper
          · cases call <;> exact fits.latch
          · cases call <;> exact fits.alone
      | _ => exact hsame
  | work p index phase self proper =>
      cases phase with
      | receive call =>
          refine .work p index _ self ?_
          cases call <;> exact proper
      | _ => exact hsame
  | _ => exact hsame

/-- Operations in front of which others can stand: what a call comes back to, what is left to settle,
and where a worker stands. -/
def Trails : Op α → Prop
  | .answer _ | .hand .. | .release _ | .code .. | .construct .. | .work .. | .shutDown .. | .join ..
  | .backlog _ .leave | .latch _ (.count _) _ | .latch _ (.running ..) _
  | .latch _ (.wait _) (.refused _) | .submit _ .refused => True
  | _ => False

/-- Operations that are a step of their own, or the wait that such a step consists of: nothing can
stand in front of them. -/
def Fronts : Op α → Prop
  | .command _ | .monitor .. | .channel .. | .backlog _ (.awaitIdle _)
  | .latch _ (.wait _) (.ticket _) | .latch _ (.wait _) .caller | .latch _ (.wait _) (.ready ..)
  | .spawn .. => True
  | _ => False

/-- A submission that goes on. Nothing can stand in front of it, either. -/
def Sends : Op α → Prop
  | .submit _ .refused => False
  | .submit .. => True
  | _ => False

theorem Fronts.not_trails {op : Op α} (h : op.Fronts) : ¬op.Trails := by
  unfold Fronts at h
  split at h <;> first | exact h.elim | exact id

theorem Sends.not_trails {op : Op α} (h : op.Sends) : ¬op.Trails := by
  cases op with
  | submit sub phase => cases phase <;> first | exact h.elim | exact id
  | _ => exact h.elim

theorem Resumes.trails {op : Op α} {rest : List (Op α)} (h : Resumes (op :: rest)) :
    op.Trails := by
  cases h <;> trivial

theorem Clearing.trails {p : Nat} {op : Op α} {rest : List (Op α)}
    (h : Clearing p (op :: rest)) : op.Trails := by
  cases h <;> trivial

theorem AfterCount.trails {l : Nat} {failed : Bool} {op : Op α} {rest : List (Op α)}
    (h : AfterCount l failed (op :: rest)) : op.Trails := by
  cases h with
  | called _ back => exact back.trails
  | settled _ behind => exact behind.trails
  | duty | performed => trivial

theorem Before.trails {who : Who} {op op' : Op α} {rest : List (Op α)}
    (h : op.Before who (op' :: rest)) : op'.Trails := by
  cases h with
  | code _ _ _ _ after =>
      cases after with
      | caller back => exact back.trails
      | latchMade | batch | finale | item => trivial
  | count _ _ after | running _ _ _ after | latchAnnounce _ _ after => exact after.trails
  | terminate _ back => exact back.trails
  | waitTicket _ _ _ _ after =>
      rcases after with hnil | ⟨p, hcons⟩
      · cases hnil
      · cases hcons
        trivial
  | waitRefused _ _ _ _ _ after | submit _ _ _ _ after =>
      cases after
      trivial
  | leave _ after | backlogAnnounce _ after =>
      cases after with
      | work => trivial
      | clearing behind => exact behind.trails
  | awaitIdle => trivial
  | shutDown _ _ _ after => cases after <;> trivial
  | join _ _ _ after | release _ after =>
      cases after with
      | hand => trivial
      | resumes back => exact back.trails
  | hand _ _ after | answer _ after =>
      rcases after with ⟨hnil, -⟩ | ⟨p, rest', hcons⟩
      · cases hnil
      · cases hcons
        trivial

/-- An operation in front of which nothing can stand is the one that is due. -/
theorem Leads.front_of_not_trails {who : Who} {ops : List (Op α)} (stack : Leads who ops [])
    {op : Op α} (hop : op ∈ ops) (front : ¬op.Trails) : ∃ rest, ops = op :: rest := by
  obtain ⟨above, rest, rfl⟩ := List.append_of_mem hop
  rcases List.eq_nil_or_concat above with rfl | ⟨above, last, rfl⟩
  · exact ⟨rest, rfl⟩
  · rw [List.concat_eq_append, List.append_assoc, leads_append, List.append_nil] at stack
    exact absurd stack.2.1.trails front

theorem Leads.front {who : Who} {ops : List (Op α)} (stack : Leads who ops []) {op : Op α}
    (hop : op ∈ ops) (fronts : op.Fronts) : ∃ rest, ops = op :: rest :=
  stack.front_of_not_trails hop fronts.not_trails

/-- What a thread has to do for a submission that goes on comes first. -/
theorem Leads.front_of_sends {who : Who} {ops : List (Op α)} (stack : Leads who ops []) {op : Op α}
    (hop : op ∈ ops) (sends : op.Sends) : ∃ rest, ops = op :: rest :=
  stack.front_of_not_trails hop sends.not_trails

theorem leads_flatMap_discard {who : Who} {p : Nat} {items : List Item} {rest : List (Op α)}
    (h : Clearing p rest) :
    Clearing p (items.flatMap (discard p) ++ rest) ∧
      Leads who (items.flatMap (discard p)) rest := by
  induction items with
  | nil => exact ⟨h, trivial⟩
  | cons item items ih =>
      obtain ⟨hclear, hleads⟩ := ih
      have hleave : Clearing p (.backlog p .leave :: (items.flatMap (discard p) ++ rest)) :=
        .leave hclear
      rw [List.flatMap_cons, List.append_assoc, leads_append, discard]
      cases item.latch with
      | none =>
          simp only [complete, Option.toList_none, List.map_nil, List.nil_append]
          exact ⟨hleave, ⟨.leave p (.clearing hclear), trivial⟩, hleads⟩
      | some l =>
          simp only [complete, Option.toList_some, List.map_cons, List.map_nil, List.cons_append,
            List.nil_append]
          refine ⟨.count l hleave, ⟨?_, ?_, trivial⟩, hleads⟩
          · exact .count l true (.settled p hleave)
          · exact .leave p (.clearing hclear)

theorem leads_performed {who : Who} {p index : Nat} (item : Item) (succeeded : Bool)
    (self : who = .worker p index) :
    Leads (α := α) who
      (complete item.latch (!succeeded) ++ [.work p index (.finish item succeeded)]) [] := by
  have hfinish : Leads (α := α) who [.work p index (.finish item succeeded)] [] :=
    ⟨.work p index _ self trivial, trivial⟩
  cases htold : item.latch with
  | none => exact hfinish
  | some l => exact ⟨.count l _ (.performed p index item succeeded htold), hfinish⟩

end Op

section Deeds

variable {around : Around} {s : Store α} {who : Who}

open Op (Leads Before)

theorem Command.Leaves.leads {ops : List (Op α)} (h : Command.Leaves s ops) (steps : who.Steps) :
    Leads who ops [] := by
  have hanswer : ∀ answer : Answer α, Leads who [.answer answer] [] :=
    fun answer => ⟨.answer answer (.inl ⟨rfl, steps⟩), trivial⟩
  have hrelease : ∀ p : Nat, Leads (α := α) who [.release p] [] :=
    fun p => ⟨.release p (.nothing steps), trivial⟩
  cases h with
  | nothing => exact trivial
  | monitor place call awake => exact ⟨.monitor steps place call, trivial⟩
  | channel place call awake => exact ⟨.channel steps place call, trivial⟩
  | count place failed answer named =>
      exact ⟨.count place failed (.called failed (.answer answer [])), hanswer answer⟩
  | terminate place answer named => exact ⟨.terminate place (.answer answer []), hanswer answer⟩
  | wait place named => exact ⟨.waitCaller steps place .arriving, trivial⟩
  | perform programs answer =>
      exact ⟨.code .caller 0 none programs (.caller (.answer answer [])), hanswer answer⟩
  | construct programs name =>
      exact ⟨.code .caller 0 none programs (.latchMade name),
        .constructLatch steps name true, trivial⟩
  | idle place answer named =>
      exact ⟨.awaitIdle steps place .arriving answer,
        .answer answer (.inr ⟨place, [], rfl⟩), hrelease place⟩
  | shutDown place answer named =>
      exact ⟨.shutDown place .check trivial (.answer answer _),
        .answer answer (.inr ⟨place, [], rfl⟩), hrelease place⟩
  | destroy place answer named =>
      exact ⟨.release place (.resumes (.answer answer [])), hanswer answer⟩
  | letGo place named => exact hrelease place
  | ticket ticket place kept awaited =>
      exact ⟨.waitTicket steps place .arriving _ (.inl rfl), trivial⟩
  | ticketVia ticket place pool kept awaited named =>
      exact ⟨.waitTicket steps place .arriving _ (.inr ⟨pool, rfl⟩), hrelease pool⟩

theorem Action.Leaves.leads {ops : List (Op α)} (h : Action.Leaves s ops) {rest : List (Op α)}
    (back : Op.Resumes rest) : Leads who ops rest := by
  cases h with
  | nothing => exact trivial
  | count place failed named => exact ⟨.count place failed (.called failed back), trivial⟩
  | terminate place named => exact ⟨.terminate place back, trivial⟩
  | shutDown place named =>
      exact ⟨.shutDown place .check trivial (.release _),
        .release place (.resumes back), trivial⟩
  | perform programs => exact ⟨.code .caller 0 none programs (.caller back), trivial⟩

/-- What stands behind the submission of a job once it has begun. -/
theorem Op.Submits.after {op : Op α} {made : List (Op α)} {asker : Asker}
    (submits : op.Submits made asker) {rest : List (Op α)} (before : op.Before who rest)
    (sub : Submission) (asked : sub.asker = asker) :
    Op.AfterSubmission who sub (made ++ rest) ∧ Leads who made rest := by
  cases submits with
  | command command name handover =>
      cases before with
      | command steps => exact ⟨.step name handover asked steps, trivial⟩
  | action origin position action program later =>
      cases before with
      | code _ _ _ _ after =>
          exact ⟨.function asked origin position program later rest,
            .code origin position _ later after, trivial⟩

theorem Submission.Hands.leads {sub : Submission} {ops : List (Op α)} (hands : sub.Hands ops)
    {rest : List (Op α)} (after : Op.AfterSubmission who sub rest) : Leads who ops rest := by
  cases hands with
  | early name asked =>
      cases after with
      | step _ _ _ steps =>
          exact ⟨.hand _ name (.inr ⟨_, _, rfl⟩), .release _ (.nothing steps), trivial⟩
      | function asked' => simp [asked] at asked'
  | late name asked =>
      cases after with
      | step _ _ _ steps =>
          exact ⟨.release _ (.hand _ name []), .hand _ name (.inl ⟨rfl, steps⟩), trivial⟩
      | function asked' => simp [asked] at asked'
  | function asked =>
      cases after with
      | step _ _ asked' => simp [asked] at asked'
      | function _ origin position program later rest =>
          exact ⟨.release _ (.resumes (.code origin position program later rest)), trivial⟩

theorem Submission.Refuses.leads {sub : Submission} {ops : List (Op α)} (refuses : sub.Refuses ops)
    {rest : List (Op α)} (after : Op.AfterSubmission who sub rest) : Leads who ops rest := by
  cases refuses with
  | step name handover answer asked =>
      cases after with
      | step _ _ _ steps =>
          exact ⟨.release _ (.resumes (.answer answer [])),
            .answer answer (.inl ⟨rfl, steps⟩), trivial⟩
      | function asked' => simp [asked] at asked'
  | function asked =>
      cases after with
      | step _ _ asked' => simp [asked] at asked'
      | function _ origin position program later rest =>
          exact ⟨.release _ (.resumes (.code origin position program later rest)), trivial⟩

/-- A submission that goes on keeps its item or has got rid of it. -/
theorem Submission.Fits.leads {sub : Submission} {phase : SubmissionPhase} (fits : sub.Fits phase)
    (phase' : SubmissionPhase) (proper : (Op.submit sub phase' : Op α).Proper)
    (kept : phase'.item? = phase.item? ∨ phase'.item? = none) {rest : List (Op α)}
    (after : Op.AfterSubmission who sub rest) : Leads who [.submit sub phase'] rest := by
  refine ⟨.submit sub phase' proper ⟨fun item h => ?_, fun id latch h => ?_⟩ after, trivial⟩
  · rcases kept with kept | kept
    · exact fits.latch item (kept ▸ h)
    · simp [kept] at h
  · refine ⟨(fits.alone id latch h).1, fun item hitem => ?_⟩
    rcases kept with kept | kept
    · exact (fits.alone id latch h).2 item (kept ▸ hitem)
    · simp [kept] at hitem

/-- What a refused submission leaves behind, once its item has been settled. -/
theorem Submission.leads_afterRefusal {sub : Submission} {phase : SubmissionPhase}
    (fits : sub.Fits phase) {rest : List (Op α)} (after : Op.AfterSubmission who sub rest) :
    Op.Clearing sub.pool (sub.afterRefusal ++ rest) ∧ Leads who sub.afterRefusal rest := by
  have hplain : Leads who [.submit sub .refused] rest :=
    fits.leads .refused trivial (.inr rfl) after
  unfold afterRefusal
  split
  · rename_i id size waitable latch hticket
    have hwait : Op.Clearing sub.pool ([.latch latch (.wait .arriving) (.refused sub)] ++ rest) :=
      .wait latch sub rest rfl
    have hlast : Leads who [.latch latch (.wait .arriving) (.refused sub)] rest :=
      ⟨.waitRefused latch .arriving sub (by rw [hticket]; rfl) hplain.1.fits after, trivial⟩
    generalize sub.rest = members
    induction members with
    | nil => exact ⟨hwait, hlast⟩
    | cons member members ih =>
        obtain ⟨hclear, hleads⟩ := ih
        exact ⟨.count latch hclear, .count latch true (.settled sub.pool hclear), hleads⟩
  · exact ⟨.refused sub rest rfl, hplain⟩

/-- A turn leaves operations behind that can stand where the one that took it stood. -/
theorem Deed.leads {op : Op α} {e : Effect α} (deed : Deed around s who op e)
    {rest : List (Op α)} (before : op.Before who rest) : Leads who e.ops rest := by
  cases deed with
  | commanded command eases leaves plain =>
      cases before with
      | command steps => exact leaves.leads steps
  | poolMade command name settings capacity threads =>
      cases before with
      | command steps => exact ⟨.spawn steps _ 0 name, trivial⟩
  | jobAdded submits place pool job found waitable =>
      obtain ⟨after, hmade⟩ := submits.after before
        { pool := place, asker := _, ticket := .job pool.nextId (some s.latches.length) } rfl
      refine ⟨.submit _ _ (by trivial) ⟨?_, ?_⟩ after, hmade⟩
      · simp [SubmissionPhase.item?, Ticket.latch]
      · simp [SubmissionPhase.item?]
  | freeJobAdded submits place pool job found free =>
      obtain ⟨after, hmade⟩ := submits.after before
        { pool := place, asker := _, ticket := .job pool.nextId none } rfl
      refine ⟨.submit _ _ (by trivial) ⟨?_, ?_⟩ after, hmade⟩
      · simp [SubmissionPhase.item?, Ticket.latch]
      · simp [SubmissionPhase.item?]
  | batchAdded command place pool batch ticket found counted ahead =>
      cases before with
      | command steps =>
          exact ⟨.submit _ .next trivial ⟨by simp [SubmissionPhase.item?], by simp⟩
            (.step ticket .released rfl steps), trivial⟩
  | freeBatchAdded command place pool batch ticket found bare free =>
      cases before with
      | command steps =>
          exact ⟨.submit _ .next trivial ⟨by simp [SubmissionPhase.item?], by simp⟩
            (.step ticket .released rfl steps), trivial⟩
  | emptyBatchAdded command place pool batch job ticket found finale empty =>
      cases before with
      | command steps =>
          exact ⟨.code _ 0 none _ (.batch place batch pool.nextId _),
            .constructBatch steps place batch _ job ticket .released true empty finale, trivial⟩
  | batchSettled place pool batch id asker succeeded found =>
      cases before with
      | constructBatch steps _ _ _ job name handover _ empty finale =>
          exact ⟨.submit _ .next trivial ⟨by simp [SubmissionPhase.item?], by simp⟩
            (.step name handover rfl steps), trivial⟩
  | codeCalled origin position program later =>
      cases before with
      | code _ _ _ _ after => exact ⟨.code origin _ _ later after, trivial⟩
  | codeReturned origin position later =>
      cases before with
      | code _ _ _ _ after => exact ⟨.code origin _ _ later after, trivial⟩
  | acted origin position action program later eases leaves plain =>
      cases before with
      | code _ _ _ _ after =>
          rw [Op.leads_append]
          exact ⟨leaves.leads (.code origin position program later rest),
            .code origin position _ later after, trivial⟩
  | actionRaised origin position action program later payload =>
      cases before with
      | code _ _ _ _ after => exact ⟨.code origin _ _ later after, trivial⟩
  | monitorTurned place call left =>
      cases before with
      | monitor steps =>
          rcases left with rfl | ⟨call, rfl⟩
          · exact trivial
          · exact ⟨.monitor steps place call, trivial⟩
  | channelTurned place call left =>
      cases before with
      | channel steps =>
          rcases left with rfl | ⟨call, rfl⟩
          · exact trivial
          · exact ⟨.channel steps place call, trivial⟩
  | countSkipped place l failed job found counts last held spoilt =>
      cases before with
      | count _ _ after => exact ⟨.latchAnnounce place failed after, trivial⟩
  | countStarted place l job found counts last held sound =>
      cases before with
      | count _ _ after =>
          exact ⟨.code _ 0 none _ (.finale place job rest),
            .running place job true after, trivial⟩
  | counted place l failed found counts plain =>
      cases before with
      | count _ _ after =>
          dsimp only
          split
          · exact ⟨.latchAnnounce place failed after, trivial⟩
          · exact trivial
  | continued place l job succeeded found =>
      cases before with
      | running _ _ _ after =>
          dsimp only
          split
          · exact ⟨.latchAnnounce place false after, trivial⟩
          · exact trivial
  | waitSlept place l stage waiter found awake up held =>
      cases before with
      | waitCaller steps => exact ⟨.waitCaller steps place _, trivial⟩
      | waitTicket steps _ _ id after => exact ⟨.waitTicket steps place _ id after, trivial⟩
      | waitRefused _ _ sub told fits after =>
          exact ⟨.waitRefused place _ sub told fits after, trivial⟩
      | waitReady steps _ _ p name => exact ⟨.waitReady steps place _ p name, trivial⟩
  | refusedWaited place l stage sub succeeded found awake verdict =>
      cases before with
      | waitRefused _ _ _ told fits after =>
          exact ⟨.submit sub .refused trivial fits after, trivial⟩
  | poolReady place l stage pool p name succeeded found awake verdict present =>
      cases before with
      | waitReady steps =>
          have hanswer : Leads who [Op.answer (α := α) (.ok .nothing)] [] :=
            ⟨.answer _ (.inl ⟨rfl, steps⟩), trivial⟩
          cases s.names.pools.find? name with
          | none => exact hanswer
          | some old => exact ⟨.release old (.resumes (.answer _ [])), hanswer⟩
  | left place pool found =>
      cases before with
      | leave _ after =>
          dsimp only
          split
          · exact ⟨.backlogAnnounce place after, trivial⟩
          · exact trivial
  | idleSlept place pool stage found awake held =>
      cases before with
      | awaitIdle steps _ _ answer => exact ⟨.awaitIdle steps place _ answer, trivial⟩
  | accepted sub pool found through hands plain =>
      cases before with
      | submit _ _ proper fits after => exact hands.leads after
  | memberAdded sub pool job members found ahead =>
      cases before with
      | submit _ _ proper fits after =>
          refine ⟨.submit { sub with rest := members } (.enlist _) trivial
            ⟨?_, fun id latch h => ?_⟩ ?_, trivial⟩
          · simp [SubmissionPhase.item?]
          · simp [(fits.alone id latch h).1] at ahead
          · cases after with
            | step name handover asked steps => exact .step name handover asked steps
            | function asked o k program later rest' =>
                exact .function (by exact asked) o k program later rest'
  | enlisted sub pool item found =>
      cases before with
      | submit _ _ proper fits after =>
          exact fits.leads (.send (.offer item)) trivial (.inl rfl) after
  | offered sub pool item found up =>
      cases before with
      | submit _ _ proper fits after =>
          exact fits.leads (.send (.send item .arriving)) trivial (.inl rfl) after
  | givenBack sub pool item call found down sends =>
      cases before with
      | submit _ _ proper fits after =>
          rcases sends with rfl | ⟨stage, -, rfl⟩
          · exact fits.leads (.refuse item) trivial (.inl rfl) after
          · exact fits.leads (.refuse item) trivial (.inl rfl) after
  | pushed sub pool item stage found awake up room =>
      cases before with
      | submit _ _ proper fits after =>
          exact fits.leads (.send (.announce .sent)) trivial (.inr rfl) after
  | sendSlept sub pool item stage found awake up full =>
      cases before with
      | submit _ _ proper fits after =>
          exact fits.leads (.send (.send item .asleep)) trivial (.inl rfl) after
  | sendAnnounced sub pool found =>
      cases before with
      | submit _ _ proper fits after => exact fits.leads .next trivial (.inr rfl) after
  | refusing sub pool item found =>
      cases before with
      | submit _ _ proper fits after =>
          obtain ⟨hclear, hleads⟩ := sub.leads_afterRefusal fits after
          rw [Op.leads_append]
          refine ⟨?_, hleads⟩
          have hitem : Leads who ([item].flatMap (Op.discard sub.pool)) _ :=
            (Op.leads_flatMap_discard hclear).2
          simpa using hitem
  | refused sub pool found refuses plain =>
      cases before with
      | submit _ _ proper fits after => exact refuses.leads after
  | workStarted place index pool found =>
      cases before with
      | work _ _ _ self proper =>
          exact ⟨.count pool.started false (.duty place index),
            .work place index _ self (by trivial), trivial⟩
  | receiveSlept place index pool stage found awake up empty =>
      cases before with
      | work _ _ _ self proper => exact ⟨.work place index _ self (by trivial), trivial⟩
  | taken place index pool stage item ring found awake up valid first capacity =>
      cases before with
      | work _ _ _ self proper => exact ⟨.work place index _ self (by trivial), trivial⟩
  | receiveAnnounced place index pool item found =>
      cases before with
      | work _ _ _ self proper => exact ⟨.work place index _ self (by trivial), trivial⟩
  | jobStarted place index pool item found =>
      cases before with
      | work _ _ _ self proper =>
          exact ⟨.code _ 0 none _ (.item place index item),
            .work place index _ self (by trivial), trivial⟩
  | jobRan place index pool item found =>
      cases before with
      | work _ _ _ self proper => exact Op.leads_performed item true self
  | jobBroke place index pool item payload found =>
      cases before with
      | work _ _ _ self proper => exact Op.leads_performed item false self
  | jobFinished place index pool item succeeded found =>
      cases before with
      | work _ _ _ self proper =>
          exact ⟨.leave place (.work index), .work place index _ self (by trivial), trivial⟩
  | checkedDown place pool found down =>
      cases before with
      | shutDown _ _ proper after => exact ⟨.shutDown place _ (by trivial) after, trivial⟩
  | checkedUp place pool found up =>
      cases before with
      | shutDown _ _ proper after => exact ⟨.shutDown place _ (by trivial) after, trivial⟩
  | poolTerminated place pool found =>
      cases before with
      | shutDown _ _ proper after => exact ⟨.shutDown place _ (by trivial) after, trivial⟩
  | drained place pool ring found valid empty capacity =>
      cases before with
      | shutDown _ _ proper after => exact ⟨.shutDown place _ (by trivial) after, trivial⟩
  | abandoned place pool items found =>
      cases before with
      | shutDown _ _ proper after =>
          rw [Op.leads_append]
          exact ⟨(Op.leads_flatMap_discard (.done rest)).2,
            .shutDown place .done trivial after, trivial⟩
  | spawned place index name pool found inside =>
      cases before with
      | spawn steps => exact ⟨.spawn steps place _ name, trivial⟩
  | spawnedAll place index name pool found outside =>
      cases before with
      | spawn steps => exact ⟨.waitReady steps _ _ place name, trivial⟩
  | lastReleased place pool found nameless unused =>
      cases before with
      | release _ after =>
          exact ⟨.shutDown place .check trivial (.join rest),
            .join place 0 false after, trivial⟩
  | joined place index pool found ended =>
      cases before with
      | join _ _ _ after => exact ⟨.join place _ false after, trivial⟩
  | joinBegun place index pool found inside =>
      cases before with
      | join _ _ _ after => exact ⟨.join place index true after, trivial⟩
  | latchMade | latchSettled | codeOver | countIgnored | latchAnnounced | callerWaited
  | ticketWaited | poolMissed | latchTerminated | latchSpared | backlogAnnounced | idled | handed
  | workerStopped | shutDownOver | released | joinedAll | deadlocked | answered => exact trivial

/-- A thread that is started has its work in order. -/
theorem Deed.births_lead {op : Op α} {e : Effect α} (deed : Deed around s who op e) :
    ∀ t ∈ e.births, Leads t.who t.ops [] := by
  cases deed with
  | spawned place index name pool found inside =>
      intro t ht
      obtain rfl := List.mem_singleton.mp ht
      exact ⟨.work place index .start rfl trivial, trivial⟩
  | _ => simp

end Deeds

/-! ### Panics -/

namespace Op

/-- What a panic passes without being caught: functions that a caller performs, and the ends of
calls. -/
def Loose : Op α → Prop
  | .code origin _ current _ => origin = .caller ∧ current.isSome
  | .join .. | .release _ | .hand .. | .answer _ => True
  | _ => False

/-- What is recorded of a function that a panic ends. -/
def raisedNotes : Op α → List Entry
  | .code origin position (some _) _ => [.raised origin (position - 1)]
  | _ => []

/-- Where a panic comes to rest: the function it ends last together with what catches it there, what
is left of the two, and what is recorded. A panic that nothing catches comes to no rest. -/
inductive Lands (payload : Payload) : List (Op α) → List (Op α) → List Entry → Prop
  | nowhere : Lands payload [] [] []
  | item (position : Nat) (current : Program) (later : List Program) (p index : Nat) (item : Item) :
      Lands payload
        [.code (.item p item.id) position (some current) later, .work p index (.running item none)]
        [.work p index (.running item (some payload))]
        [.raised (.item p item.id) (position - 1)]
  | finale (position : Nat) (current : Program) (later : List Program) (l : Nat) (job : Job) :
      Lands payload
        [.code (.latch l) position (some current) later, .latch l (.running job true) .nobody]
        [.latch l (.running job false) .nobody]
        [.raised (.latch l) (position - 1), .line (.continuationPanicked payload)]
  | batch (position : Nat) (current : Program) (later : List Program) (p : Nat) (batch : Batch)
      (id : Nat) (asker : Asker) :
      Lands payload
        [.code (.batch p id) position (some current) later,
          .construct (.submission p batch id asker) true]
        [.construct (.submission p batch id asker) false]
        [.raised (.batch p id) (position - 1), .line (.continuationPanicked payload)]
  | latchMade (position : Nat) (current : Program) (later : List Program) (name : String) :
      Lands payload
        [.code .caller position (some current) later, .construct (.latch name) true]
        [.construct (.latch name) false]
        [.raised .caller (position - 1), .line (.continuationPanicked payload)]

/-- What a panic can begin with. -/
inductive Raises : Op α → Prop
  | code (origin : Origin) (position : Nat) (current : Program) (later : List Program) :
      Raises (.code origin position (some current) later)
  | join (p index : Nat) (waiting : Bool) : Raises (.join p index waiting)
  | release (p : Nat) : Raises (.release p)
  | hand (ticket : Ticket) (name : Option String) : Raises (.hand ticket name)
  | answer (answer : Answer α) : Raises (.answer answer)

end Op

theorem unwind_of_loose (payload : Payload) {op : Op α} (loose : op.Loose) (rest : List (Op α)) :
    unwind payload (op :: rest) =
      (op.raisedNotes ++ (unwind payload rest).1, (unwind payload rest).2) := by
  cases op with
  | code origin position current later =>
      obtain ⟨program, rfl⟩ := Option.isSome_iff_exists.mp loose.2
      rfl
  | join | release | hand | answer => rfl
  | _ => exact loose.elim

theorem Op.Resumes.raises {rest : List (Op α)} (h : Op.Resumes rest) :
    ∃ op rest', rest = op :: rest' ∧ op.Raises := by
  cases h with
  | answer answer rest => exact ⟨_, rest, rfl, .answer answer⟩
  | code origin position program later rest =>
      exact ⟨_, rest, rfl, .code origin position program later⟩

theorem Op.AfterRelease.raises {who : Who} {rest : List (Op α)} (h : Op.AfterRelease who rest) :
    rest = [] ∧ who.Steps ∨ ∃ op rest', rest = op :: rest' ∧ op.Raises := by
  cases h with
  | nothing steps => exact .inl ⟨rfl, steps⟩
  | hand ticket name rest => exact .inr ⟨_, rest, rfl, .hand ticket name⟩
  | resumes back => exact .inr back.raises

/-- A panic passes what it begins with, or is caught right behind it. -/
theorem Op.Raises.passes_or_lands (payload : Payload) {who : Who} {op : Op α}
    {rest : List (Op α)} (raises : op.Raises) (before : op.Before who rest) :
    (op.Loose ∧ (rest = [] ∧ who.Steps ∨ ∃ op' rest', rest = op' :: rest' ∧ op'.Raises)) ∨
      ∃ catcher rest' new notes, rest = catcher :: rest' ∧
        Op.Lands payload [op, catcher] new notes ∧
        unwind payload (op :: rest) = (notes, some (new ++ rest')) := by
  cases raises with
  | code origin position program later =>
      cases before with
      | code _ _ _ _ after =>
          cases after with
          | caller back => exact .inl ⟨⟨rfl, rfl⟩, .inr back.raises⟩
          | latchMade name =>
              exact .inr ⟨_, [], _, _, rfl, .latchMade position program later name, rfl⟩
          | batch p batch id asker =>
              exact .inr ⟨_, [], _, _, rfl, .batch position program later p batch id asker, rfl⟩
          | finale l job rest =>
              exact .inr ⟨_, rest, _, _, rfl, .finale position program later l job, rfl⟩
          | item p index item =>
              exact .inr ⟨_, [], _, _, rfl, .item position program later p index item, rfl⟩
  | join p index waiting =>
      cases before with
      | join _ _ _ after => exact .inl ⟨trivial, after.raises⟩
  | release p =>
      cases before with
      | release _ after => exact .inl ⟨trivial, after.raises⟩
  | hand ticket name =>
      cases before with
      | hand _ _ after =>
          rcases after with hend | ⟨p, rest', rfl⟩
          · exact .inl ⟨trivial, .inl hend⟩
          · exact .inl ⟨trivial, .inr ⟨_, rest', rfl, .release p⟩⟩
  | answer answer =>
      cases before with
      | answer _ after =>
          rcases after with hend | ⟨p, rest', rfl⟩
          · exact .inl ⟨trivial, .inl hend⟩
          · exact .inl ⟨trivial, .inr ⟨_, rest', rfl, .release p⟩⟩

/-- A panic passes loose operations only before it comes to rest. Only a step can end by it. -/
theorem unwind_eq (payload : Payload) {who : Who} {op : Op α} {rest : List (Op α)}
    (raises : op.Raises) (stack : Op.Leads who (op :: rest) []) :
    ∃ above old new notes tail,
      op :: rest = above ++ old ++ tail ∧ (∀ passed ∈ above, passed.Loose) ∧
        Op.Lands payload old new notes ∧ (old = [] → tail = [] ∧ who.Steps) ∧
        unwind payload (op :: rest) =
          (above.flatMap Op.raisedNotes ++ notes,
            if old.isEmpty then none else some (new ++ tail)) := by
  induction rest generalizing op with
  | nil =>
      obtain ⟨before, -⟩ := stack
      rcases raises.passes_or_lands payload before with
        ⟨loose, ⟨-, steps⟩ | ⟨_, _, hcons, -⟩⟩ | ⟨_, _, _, _, hcons, -⟩
      · refine ⟨[op], [], [], [], [], rfl, by simpa using loose, .nowhere,
          fun _ => ⟨rfl, steps⟩, ?_⟩
        rw [unwind_of_loose payload loose]
        simp [unwind]
      · cases hcons
      · cases hcons
  | cons op' rest ih =>
      obtain ⟨before, hrest⟩ := stack
      rw [List.append_nil] at before
      rcases raises.passes_or_lands payload before with
        ⟨loose, ⟨hnil, -⟩ | ⟨_, _, hcons, raises'⟩⟩ |
          ⟨catcher, rest', new, notes, hcons, lands, hunwind⟩
      · cases hnil
      · obtain ⟨rfl, rfl⟩ := List.cons.inj hcons
        obtain ⟨above, old, new, notes, tail, hops, hloose, lands, hend, hunwind⟩ :=
          ih raises' hrest
        refine ⟨op :: above, old, new, notes, tail, by simp [hops], ?_, lands, hend, ?_⟩
        · simpa using ⟨loose, hloose⟩
        · rw [unwind_of_loose payload loose, hunwind]
          simp
      · obtain ⟨rfl, rfl⟩ := List.cons.inj hcons
        exact ⟨[], [op, op'], new, notes, rest, by simp, by simp, lands, by simp,
          by simpa using hunwind⟩

end WorkerPool
