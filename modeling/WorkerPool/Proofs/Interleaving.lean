import WorkerPool.Proofs.Moments

/-! In which order things were recorded. A list of entries that belong to several threads of events
is an interleaving of what belongs to each of them. And when something is over by the time something
else begins, a history that is about both of them tells first the one and then the other. -/

namespace WorkerPool

variable {α β κ : Type}

/-- The list takes one element after the other from the fronts of the parts, until nothing is left of
any of them. -/
inductive Interleaves : List (List β) → List β → Prop
  | nil {parts : List (List β)} (through : ∀ part ∈ parts, part = []) : Interleaves parts []
  | cons {before after : List (List β)} {part l : List β} (x : β)
      (rest : Interleaves (before ++ part :: after) l) :
      Interleaves (before ++ (x :: part) :: after) (x :: l)

/-- A list is an interleaving of what belongs to each of the keys. -/
theorem interleaves_filter {keys : List κ} {f : κ → β → Bool} (nodup : keys.Nodup)
    (only : ∀ x k k', f k x = true → f k' x = true → k = k') {l : List β}
    (one : ∀ x ∈ l, ∃ k ∈ keys, f k x = true) :
    Interleaves (keys.map fun k => l.filter (f k)) l := by
  induction l with
  | nil => exact .nil (by simp)
  | cons x l ih =>
      have ih := ih fun y hy => one y (List.mem_cons_of_mem x hy)
      obtain ⟨k, hk, hx⟩ := one x List.mem_cons_self
      obtain ⟨before, after, rfl⟩ := List.append_of_mem hk
      have kept : ∀ k' ∈ before ++ after, (x :: l).filter (f k') = l.filter (f k') := by
        intro k' hk'
        refine List.filter_cons_of_neg fun hx' => ?_
        rw [only x k' k hx' hx] at hk'
        exact (List.nodup_middle.mp nodup).notMem hk'
      rw [List.map_append, List.map_cons, List.filter_cons_of_pos hx,
        List.map_congr_left fun k' hk' => kept k' (List.mem_append_left _ hk'),
        List.map_congr_left fun k' hk' => kept k' (List.mem_append_right _ hk')]
      rw [List.map_append, List.map_cons] at ih
      exact .cons x ih

/-- Where nothing of one kind comes after anything of the other, the list divides. -/
theorem filter_or_of_pairwise {P Q : β → Bool} {l : List β}
    (only : ∀ x ∈ l, Q x = true → P x = false)
    (behind : l.Pairwise fun x y => Q x = true → P y = false) :
    l.filter (fun x => P x || Q x) = l.filter P ++ l.filter Q := by
  induction l with
  | nil => rfl
  | cons x l ih =>
      obtain ⟨none, behind⟩ := List.pairwise_cons.mp behind
      have ih := ih (fun y hy => only y (List.mem_cons_of_mem x hy)) behind
      cases hQ : Q x with
      | true =>
          have hP := only x List.mem_cons_self hQ
          have empty : l.filter P = [] :=
            List.filter_eq_nil_iff.mpr fun y hy => by simp [none y hy hQ]
          rw [empty, List.nil_append] at ih
          rw [List.filter_cons_of_pos (by simp [hQ]), List.filter_cons_of_neg (by simp [hP]),
            List.filter_cons_of_pos hQ, empty, ih, List.nil_append]
      | false =>
          cases hP : P x with
          | true =>
              rw [List.filter_cons_of_pos (by simp [hP]), List.filter_cons_of_pos hP,
                List.filter_cons_of_neg (by simp [hQ]), ih, List.cons_append]
          | false =>
              rw [List.filter_cons_of_neg (by simp [hP, hQ]),
                List.filter_cons_of_neg (by simp [hP]), List.filter_cons_of_neg (by simp [hQ]), ih]

/-- A list that has nothing of one kind in front and nothing of the other behind divides. -/
theorem filter_or_of_parts {P Q : β → Bool} (front back : List β) (ahead : ∀ x ∈ front, Q x = false)
    (behind : ∀ x ∈ back, P x = false) :
    (front ++ back).filter (fun x => P x || Q x) =
      (front ++ back).filter P ++ (front ++ back).filter Q := by
  have never : ∀ x ∈ front, ∀ y, Q x = true → P y = false := by
    intro x hx y some
    rw [ahead x hx] at some
    cases some
  refine filter_or_of_pairwise (fun x hx some => ?_) (List.pairwise_append.mpr ⟨?_, ?_, ?_⟩)
  · exact (List.mem_append.mp hx).elim (fun hx => never x hx x some) (behind x)
  · exact List.pairwise_of_forall_mem_list fun x hx y _ => never x hx y
  · exact List.pairwise_of_forall_mem_list fun _ _ y hy _ => behind y hy
  · exact fun x hx y _ => never x hx y

/-- Where this holds of each key and all the later ones, the list is what belongs to the first key,
then what belongs to the second, and so on. -/
theorem filter_any_eq_flatMap {f : κ → β → Bool} {l : List β} {keys : List κ}
    (divides : ∀ k ks, k :: ks <:+ keys →
      l.filter (fun x => f k x || ks.any (f · x)) =
        l.filter (f k) ++ l.filter (fun x => ks.any (f · x))) :
    l.filter (fun x => keys.any (f · x)) = keys.flatMap fun k => l.filter (f k) := by
  induction keys with
  | nil => simp
  | cons k ks ih =>
      simp only [List.any_cons, List.flatMap_cons]
      rw [divides k ks (List.suffix_refl _),
        ih fun k' ks' suffix => divides k' ks' (suffix.trans (List.suffix_cons k ks))]

namespace World

variable {w : World α} {moments : List (Moment α)} {cells : List Int}

/-- In the run that has come to `w`, the thread `t` made an entry in its turn from `u` to `v`. -/
structure Noted (cells : List Int) (u v w : World α) (index : Nat) (t : Thread α)
    (old tail : List (Op α)) (e : Effect α) (note : Entry) : Prop where
  run : ∃ moments, (World.start cells).Run moments u
  turn : ∃ pick, u.turn index pick = some v
  took : u.Took v index t old tail e
  later : v.Later w
  mem : note ∈ e.notes

section Noted

variable {u v : World α} {index : Nat} {t : Thread α} {old tail : List (Op α)} {e : Effect α}
  {note : Entry}

theorem Noted.before (noted : Noted cells u v w index t old tail e note) : u.Reachable := by
  obtain ⟨moments, run⟩ := noted.run
  exact run.reachable (.start cells)

theorem Noted.after (noted : Noted cells u v w index t old tail e note) : v.Reachable := by
  obtain ⟨pick, turn⟩ := noted.turn
  exact .next noted.before (.turn index pick turn)

theorem Noted.ahead (noted : Noted cells u v w index t old tail e note) : u.Later w := by
  obtain ⟨pick, turn⟩ := noted.turn
  exact .head (.turn index pick turn) noted.later

end Noted

/-- Every entry was made in a turn, and what is older had been recorded before or in this turn. -/
theorem Run.of_history (run : (World.start cells).Run moments w)
    {newer older : List (Who × Entry)} {x : Who × Entry}
    (history : w.history = newer ++ x :: older) :
    ∃ u v index t old tail e note back, Noted cells u v w index t old tail e note ∧
      x = (t.who, note) ∧ older = back ++ u.history := by
  induction run generalizing newer with
  | nil => simp [World.start] at history
  | issue run command ih =>
      obtain ⟨u, v, index, t, old, tail, e, note, back, noted, rest⟩ := ih history
      exact ⟨u, v, index, t, old, tail, e, note, back,
        { noted with later := noted.later.tail (.issue _ command) }, rest⟩
  | @turn moments w v run index pick turn ih =>
      obtain ⟨t, old, tail, e, took⟩ :=
        took_of_turn (run.reachable (.start cells)).orderly turn
      rw [took.history] at history
      obtain ⟨newer', hw⟩ | ⟨l, hnotes, rfl⟩ :
          (∃ newer', w.history = newer' ++ x :: older) ∨
            ∃ l, (e.notes.map (t.who, ·)).reverse = newer ++ x :: l ∧ older = l ++ w.history := by
        rcases List.append_eq_append_iff.mp history with ⟨l, -, hw⟩ | ⟨l, hnotes, hx⟩
        · exact .inl ⟨l, hw⟩
        · cases l with
          | nil => exact .inl ⟨[], hx.symm⟩
          | cons y l =>
              obtain ⟨rfl, rfl⟩ := List.cons.inj hx
              exact .inr ⟨l, hnotes, rfl⟩
      · obtain ⟨u, v', index', t, old, tail, e, note, back, noted, rest⟩ := ih hw
        exact ⟨u, v', index', t, old, tail, e, note, back,
          { noted with later := noted.later.tail (.turn index pick turn) }, rest⟩
      · have mem : x ∈ (e.notes.map (t.who, ·)).reverse := by simp [hnotes]
        obtain ⟨note, hnote, rfl⟩ := List.mem_map.mp (List.mem_reverse.mp mem)
        exact ⟨w, v, index, t, old, tail, e, note, l,
          ⟨⟨moments, run⟩, ⟨pick, turn⟩, took, .refl, hnote⟩, rfl, rfl⟩

/-- If nothing about `P` is recorded any more as soon as something about `Q` is, then the history
tells first of the one and then of the other. -/
theorem Run.filter_or (run : (World.start cells).Run moments w) {P Q : Who × Entry → Bool}
    (past : ∀ u v index t old tail e note, Noted cells u v w index t old tail e note →
      Q (t.who, note) = true →
        ∀ newer, w.history = newer ++ u.history → ∀ x ∈ newer, P x = false) :
    w.history.reverse.filter (fun x => P x || Q x) =
      w.history.reverse.filter P ++ w.history.reverse.filter Q := by
  cases hfind : w.history.reverse.find? Q with
  | none =>
      have := filter_or_of_parts (P := P) (Q := Q) w.history.reverse []
        (fun x hx => by simpa using List.find?_eq_none.mp hfind x hx) (by simp)
      simpa using this
  | some x =>
      obtain ⟨hx, front, back, hsplit, ahead⟩ := List.find?_eq_some_iff_append.mp hfind
      have history : w.history = back.reverse ++ x :: front.reverse := by
        rw [← List.reverse_reverse w.history, hsplit]
        simp
      obtain ⟨u, v, index, t, old, tail, e, note, between, noted, rfl, holder⟩ :=
        run.of_history history
      have none := past u v index t old tail e note noted hx
        (back.reverse ++ (t.who, note) :: between) (by simp [history, holder])
      rw [hsplit]
      refine filter_or_of_parts _ _ (fun y hy => by simpa using ahead y hy) fun y hy => none y ?_
      rcases List.mem_cons.mp hy with rfl | hy
      · simp
      · simp [hy]

end World

end WorkerPool
