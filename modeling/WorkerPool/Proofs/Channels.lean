import WorkerPool.Proofs.Inert

/-! What a turn does to a channel. A step that is to call a channel leaves a fresh call behind when
its command is carried out, and from then on makes this call alone. So a turn is a move on the
channel at some place if it begins a call there or is a turn of such a call; every other turn leaves
this channel as it is, unless it makes it, and calls it nowhere. -/

namespace WorkerPool

variable {α : Type}

/-- The operation is a call on the channel at `place`. -/
def Op.On (place : Nat) : Op α → Prop
  | .channel p _ => p = place
  | _ => False

/-- The effect leaves all channels as they are and calls none of them. -/
structure Effect.Aside (s : Store α) (e : Effect α) : Prop where
  channels : e.store.channels = s.channels
  quiet : ∀ op ∈ e.ops, ∀ place, ¬op.On place

theorem Op.On.outer {place : Nat} {op : Op α} (on : op.On place) : op.Outer := by
  cases op with
  | channel => trivial
  | _ => exact on.elim

theorem Op.Loose.not_on {op : Op α} (loose : op.Loose) (place : Nat) : ¬op.On place :=
  fun on => loose.not_outer on.outer

theorem Op.Lands.not_on {payload : Payload} {old new : List (Op α)} {notes : List Entry}
    (lands : Op.Lands payload old new notes) (place : Nat) :
    (∀ op ∈ old, ¬op.On place) ∧ ∀ op ∈ new, ¬op.On place :=
  ⟨fun op hop on => lands.not_outer.1 op hop on.outer,
    fun op hop on => lands.not_outer.2 op hop on.outer⟩

theorem Effect.Inert.aside {s : Store α} {e : Effect α} (inert : Effect.Inert s e) :
    Effect.Aside s e :=
  ⟨inert.retains.channels, fun op hop _ on => inert.quiet op hop on.outer⟩

section Commands

variable {around : Around} {s : Store α}

open Effect (Aside)

theorem MonitorRequest.aside (place : Nat) (m : Monitor Int) (request : MonitorRequest) :
    Aside s (request.effect s place m) := by
  cases request with
  | poison =>
      simp only [effect]
      split <;> exact ⟨rfl, by simp [Effect.fail]⟩
  | _ => exact ⟨rfl, by simp [effect, effect.call, Op.On]⟩

/-- A call on a channel as a step begins it. -/
def Channel.Call.Fresh (call : Channel.Call α) : Prop :=
  (∃ x, call = .offer x) ∨ call = .receive .arriving ∨ call = .drain ∨ call = .terminate

/-- What the first turn of a command does to the channels: nothing, or it begins a call on one of
them, or it makes a new one. -/
inductive Command.Channels (s : Store α) : Command α → Effect α → Prop
  | aside (command : Command α) {e : Effect α} (aside : Aside s e) : Channels s command e
  | begun (command : Command α) {e : Effect α} (place : Nat) (call : Channel.Call α)
      (there : place < s.channels.length) (fresh : call.Fresh)
      (channels : e.store.channels = s.channels) (ops : e.ops = [.channel place call]) :
      Channels s command e
  | made (name : String) (capacity : Nat) {e : Effect α} (pos : 0 < capacity)
      (channels : e.store.channels = s.channels ++ [Channel.empty capacity]) (ops : e.ops = []) :
      Channels s (.newChannel name capacity) e

theorem Command.channels (command : Command α) :
    Command.Channels s command (command.effect around s) := by
  by_cases outer : command.Outer
  case neg => exact .aside _ (command.inert outer).aside
  cases command with
  | newChannel name capacity =>
      simp only [effect]
      split
      · exact .aside _ (inert_fail _ [] (.refl s)).aside
      · rename_i pos
        split
        · exact .aside _ (inert_fail _ [] (.refl s)).aside
        · exact .made name capacity (Nat.pos_of_ne_zero pos) rfl rfl
  | onChannel name request =>
      simp only [effect]
      cases s.names.channels.find? name with
      | none => exact .aside _ (inert_fail _ [] (.refl s)).aside
      | some place =>
          simp only [Effect.withObject]
          cases found : s.channels[place]? with
          | none => exact .aside _ (inert_fail _ [] (.refl s)).aside
          | some c =>
              have there := (List.getElem?_eq_some_iff.mp found).1
              cases request with
              | send x => exact .begun _ place (.offer x) there (.inl ⟨x, rfl⟩) rfl rfl
              | receive => exact .begun _ place _ there (.inr (.inl rfl)) rfl rfl
              | drain => exact .begun _ place _ there (.inr (.inr (.inl rfl))) rfl rfl
              | terminate => exact .begun _ place _ there (.inr (.inr (.inr rfl))) rfl rfl
              | capacity => exact .aside _ (inert_succeed _ (.refl s)).aside
  | newMonitor name value => exact .aside _ ⟨rfl, by simp [effect, Effect.succeed]⟩
  | onMonitor name request =>
      simp only [effect]
      cases s.names.monitors.find? name with
      | none => exact .aside _ (inert_fail _ [] (.refl s)).aside
      | some place =>
          simp only [Effect.withObject]
          cases s.monitors[place]? with
          | none => exact .aside _ (inert_fail _ [] (.refl s)).aside
          | some m => exact .aside _ (request.aside place m)
  | _ => exact outer.elim

end Commands

section Operations

variable {around : Around} {s : Store α} {who : Who} {e : Effect α}

theorem Monitor.Call.aside {place : Nat} {m : Monitor Int} {call : Monitor.Call Int}
    (h : call.effect s place m = some e) : Effect.Aside s e := by
  obtain ⟨turned, -, rfl⟩ := Option.map_eq_some_iff.mp h
  split <;> exact ⟨rfl, by simp [Op.On]⟩

/-- Only commands and calls on channels have anything to do with channels. -/
theorem Op.aside {op : Op α} (h : op.effect around s who = some e)
    (deed : Deed around s who op e) (still : ∀ command, op ≠ .command command)
    (calm : ∀ place, ¬op.On place) : Effect.Aside s e := by
  by_cases active : op.Active
  case neg => exact (op.inert h deed active).aside
  cases op with
  | command given => exact absurd rfl (still given)
  | channel place call => exact absurd rfl (calm place)
  | monitor place call =>
      obtain ⟨m, -, hcall⟩ := Option.bind_eq_some_iff.mp h
      exact Monitor.Call.aside hcall
  | code origin position current later =>
      obtain ⟨index, value, rest, rfl⟩ := Op.Active.write active
      obtain ⟨ops, ⟨-, store, -⟩ | ⟨-, store, -⟩⟩ := Op.effect_write h <;>
        exact ⟨by rw [store], by simp [ops, Op.On]⟩
  | _ => exact active.elim

end Operations

/-- What one thread does with a channel in a turn: the call that it makes, if it had begun before
the turn, and what becomes of it. -/
structure Channel.Move (α : Type) where
  who : Who
  before : Option (Channel.Call α)
  after : Next (Channel.Call α) (Channel.Reply α)

/-- The move on the channel at `place`: a command leaves a call on it, or a call takes a turn. -/
def Moment.move? (place : Nat) (m : Moment α) : Option (Channel.Move α) :=
  match m.due? with
  | some (who, .command given) =>
    match (given.effect (m.world.around m.index) m.world.store).ops with
    | [.channel p call] => if p = place then some ⟨who, none, .goes call⟩ else none
    | _ => none
  | some (who, .channel p call) =>
    if p = place then
      (m.world.store.channels[p]?.bind fun c => call.turn c).map fun turned =>
        ⟨who, some call, turned.next⟩
    else none
  | _ => none

/-- What is left of a call on the channel at `place`. -/
def Channel.left (place : Nat) : Next (Channel.Call α) (Channel.Reply α) → List (Op α)
  | .goes call => [.channel place call]
  | .returns _ => []

namespace World

/-- What a turn of the thread `who` does to the channel at `place`, with the move it makes there. A
turn that makes none leaves the channel as it is, if it does not make it. -/
inductive Moves (place : Nat) (s : Store α) (who : Who) :
    List (Op α) → Effect α → Option (Channel.Move α) → Prop
  | called {c : Channel α} {call : Channel.Call α}
      {turned : Turned (Ring α) (Channel.Call α) (Channel.Reply α)} {e : Effect α}
      (found : s.channels[place]? = some c) (turns : call.Turns c turned)
      (after : e.store.channels[place]? = some turned.object)
      (ops : e.ops = Channel.left place turned.next)
      (alarm : e.alarm = .of (.channel place) turned.wake) :
      Moves place s who [.channel place call] e (some ⟨who, some call, turned.next⟩)
  | begun (command : Command α) {call : Channel.Call α} {e : Effect α}
      (there : place < s.channels.length) (fresh : call.Fresh)
      (kept : e.store.channels[place]? = s.channels[place]?) (ops : e.ops = [.channel place call]) :
      Moves place s who [.command command] e (some ⟨who, none, .goes call⟩)
  | made (name : String) (capacity : Nat) {e : Effect α} (new : s.channels.length = place)
      (pos : 0 < capacity) (after : e.store.channels[place]? = some (Channel.empty capacity))
      (ops : e.ops = []) :
      Moves place s who [.command (.newChannel name capacity)] e none
  | apart {old : List (Op α)} {e : Effect α} (kept : e.store.channels[place]? = s.channels[place]?)
      (left : ∀ op ∈ old, ¬op.On place) (quiet : ∀ op ∈ e.ops, ¬op.On place) :
      Moves place s who old e none

variable {w v : World α} {index : Nat} {t : Thread α} {place : Nat}

theorem move?_eq_none {op : Op α} (due : (Moment.mk w index).due? = some (t.who, op))
    (calm : ¬op.On place) (still : ∀ command, op ≠ .command command) :
    (Moment.mk w index).move? place = none := by
  rw [Moment.move?, due]
  cases op with
  | command given => exact absurd rfl (still given)
  | channel p call => exact if_neg calm
  | _ => rfl

theorem moves_of_aside {old : List (Op α)} {e : Effect α} (aside : Effect.Aside w.store e)
    (left : ∀ op ∈ old, ¬op.On place) (none : (Moment.mk w index).move? place = none) :
    Moves place w.store t.who old e ((Moment.mk w index).move? place) := by
  rw [none]
  exact .apart (by rw [aside.channels]) left fun op hop => aside.quiet op hop place

theorem moves_of_command {given : Command α}
    (due : (Moment.mk w index).due? = some (t.who, .command given)) :
    Moves place w.store t.who [.command given] (given.effect (w.around index) w.store)
      ((Moment.mk w index).move? place) := by
  have move : (Moment.mk w index).move? place =
      match (given.effect (w.around index) w.store).ops with
      | [.channel p call] => if p = place then some ⟨t.who, none, .goes call⟩ else none
      | _ => none := by
    rw [Moment.move?, due]
  have channels : Command.Channels w.store given (given.effect (w.around index) w.store) :=
    given.channels
  generalize given.effect (w.around index) w.store = e at *
  cases channels with
  | aside _ aside =>
      refine moves_of_aside aside (by simp [Op.On]) ?_
      rw [move]
      split
      · rename_i p call ops
        exact absurd rfl (aside.quiet (.channel p call) (by simp [ops]) p)
      · rfl
  | begun _ p call there fresh channels ops =>
      rw [move, ops]
      dsimp only
      by_cases hp : p = place
      · subst hp
        rw [if_pos rfl]
        exact .begun given there fresh (by rw [channels]) ops
      · rw [if_neg hp]
        exact .apart (by rw [channels]) (by simp [Op.On]) (by simpa [ops, Op.On] using hp)
  | made name capacity pos channels ops =>
      rw [move, ops]
      by_cases new : w.store.channels.length = place
      · refine .made name capacity new pos ?_ ops
        rw [channels, ← new, List.getElem?_concat_length]
      · refine .apart ?_ (by simp [Op.On]) (by simp [ops])
        rw [channels]
        rcases Nat.lt_or_gt_of_ne new with hlt | hlt
        · rw [List.getElem?_eq_none (by rw [List.length_append]; exact hlt),
            List.getElem?_eq_none (Nat.le_of_lt hlt)]
        · exact List.getElem?_append_left hlt

theorem moves_of_call {around : Around} {p : Nat} {call : Channel.Call α} {e : Effect α}
    (due : (Moment.mk w index).due? = some (t.who, .channel p call))
    (h : (Op.channel p call).effect around w.store t.who = some e) :
    Moves place w.store t.who [.channel p call] e ((Moment.mk w index).move? place) := by
  obtain ⟨c, found, hcall⟩ := Option.bind_eq_some_iff.mp h
  obtain ⟨turned, hturn, rfl⟩ := Option.map_eq_some_iff.mp hcall
  have move : (Moment.mk w index).move? place =
      if p = place then some ⟨t.who, some call, turned.next⟩ else none := by
    rw [Moment.move?, due]
    simp [found, hturn]
  have there := (List.getElem?_eq_some_iff.mp found).1
  rw [move]
  by_cases hp : p = place
  · subst hp
    rw [if_pos rfl]
    refine .called found (Channel.Call.turns_of_turn hturn) ?_ ?_ ?_
    · cases turned.next <;> exact List.getElem?_set_self there
    · cases turned.next <;> rfl
    · cases turned.next <;> rfl
  · rw [if_neg hp]
    refine .apart ?_ (by simpa [Op.On] using hp) ?_
    · cases turned.next <;> exact List.getElem?_set_ne hp
    · cases turned.next <;> simp [Op.On, hp]

/-- Every turn is of one of these kinds. -/
theorem moves_of_turn (orderly : w.Orderly) {pick : Nat} (h : w.turn index pick = some v)
    (place : Nat) :
    ∃ t old tail e, w.Took v index t old tail e ∧
      Moves place w.store t.who old e ((Moment.mk w index).move? place) := by
  obtain ⟨t, got, due⟩ := Option.bind_eq_some_iff.mp h
  split at due
  · cases due
  rename_i op rest hops
  have due := due?_eq got hops
  obtain ⟨e, heffect, -, deed, ⟨-, took⟩ |
    ⟨payload, above, old, new, notes, tail, hpanic, loose, lands, -, took⟩⟩ :=
    took_cases orderly got hops h
  · refine ⟨t, [op], rest, e, took, ?_⟩
    by_cases given : ∃ command, op = .command command
    · obtain ⟨command, rfl⟩ := given
      obtain rfl := Option.some.inj heffect
      exact moves_of_command due
    by_cases calls : ∃ p call, op = .channel p call
    · obtain ⟨p, call, rfl⟩ := calls
      exact moves_of_call due heffect
    push Not at given calls
    have calm : ∀ p, ¬op.On p := by
      intro p on
      cases op with
      | channel q call => exact calls q call rfl
      | _ => exact on
    exact moves_of_aside (Op.aside heffect deed given calm) (by simpa using calm place)
      (move?_eq_none due (calm place) given)
  · refine ⟨t, above ++ old, tail, _, took, ?_⟩
    have raises := (deed.of_panic hpanic).1
    rw [move?_eq_none due (by cases raises <;> exact id) (by cases raises <;> simp)]
    refine .apart rfl (fun op hop => ?_) (lands.not_on place).2
    rcases List.mem_append.mp hop with hop | hop
    · exact (loose op hop).not_on place
    · exact (lands.not_on place).1 op hop

end World

end WorkerPool
