import WorkerPool.Table

/-! What is found in a table. An insertion and an erasure change what is found under one name, and
nothing else; what is found is among the entries. -/

namespace WorkerPool

namespace Table

variable {β : Type}

theorem lookup_cons_eq (e : String × β) (l : List (String × β)) (name : String) :
    (e :: l).lookup name = if name = e.1 then some e.2 else l.lookup name := by
  rw [show e :: l = (e.1, e.2) :: l from rfl, List.lookup_cons]
  by_cases same : name = e.1
  · simp [same]
  · rw [if_neg same, beq_false_of_ne same]

/-- What is found after the entry of `name` has been replaced. -/
theorem lookup_replaced (l : List (String × β)) (name other : String) (x : β) :
    (l.map fun e => if e.1 == name then (name, x) else e).lookup other =
      if other = name then (l.lookup name).map fun _ => x else l.lookup other := by
  induction l with
  | nil => simp
  | cons e l ih =>
      rw [List.map_cons, lookup_cons_eq, ih, lookup_cons_eq, lookup_cons_eq]
      by_cases key : e.1 = name
      · by_cases same : other = name <;> simp [key, same]
      · by_cases same : other = name <;> simp [key, same, Ne.symm key]

theorem find?_insert (t : Table β) (name other : String) (x : β) :
    (t.insert name x).find? other = if other = name then some x else t.find? other := by
  cases present : t.find? name with
  | some y =>
      have replaced := lookup_replaced t.toList name other x
      rw [show t.toList.lookup name = some y from present] at replaced
      rw [insert, if_pos (by simp [present])]
      exact replaced
  | none =>
      rw [insert, if_neg (by simp [present]), find?, List.lookup_append, lookup_cons_eq]
      split
      · rename_i same
        rw [same, show t.toList.lookup name = none from present, Option.none_or]
      · exact Option.or_none

/-- What is found after an insertion has just been put in, or was found before. -/
theorem of_find?_insert {t : Table β} {name other : String} {x y : β}
    (h : (t.insert name x).find? other = some y) : y = x ∨ t.find? other = some y := by
  rw [find?_insert] at h
  split at h
  · exact .inl (Option.some.inj h).symm
  · exact .inr h

theorem find?_erase (t : Table β) (name other : String) :
    (t.erase name).find? other = if other = name then none else t.find? other := by
  unfold erase find?
  generalize t.toList = l
  induction l with
  | nil => simp
  | cons e l ih =>
      rw [lookup_cons_eq]
      by_cases key : e.1 = name
      · rw [List.filter_cons_of_neg (by simpa using key), ih]
        by_cases same : other = name <;> simp [key, same]
      · rw [List.filter_cons_of_pos (by simpa using key), lookup_cons_eq, ih]
        by_cases same : other = name <;> simp [same, Ne.symm key]

/-- Nothing is found under a name that has been erased. -/
theorem find?_erase_self (t : Table β) (name : String) : (t.erase name).find? name = none :=
  (t.find?_erase name name).trans (if_pos rfl)

/-- An erasure takes names away and adds none. -/
theorem of_find?_erase {t : Table β} {name other : String} {y : β}
    (h : (t.erase name).find? other = some y) : t.find? other = some y := by
  rw [find?_erase] at h
  split at h
  · cases h
  · exact h

theorem mem_of_find? {t : Table β} {name : String} {x : β} (found : t.find? name = some x) :
    (name, x) ∈ t.toList := by
  unfold find? at found
  generalize t.toList = l at found ⊢
  induction l with
  | nil => cases found
  | cons e l ih =>
      rw [lookup_cons_eq] at found
      split at found
      · rename_i same
        rw [← Option.some.inj found, same]
        exact List.mem_cons_self
      · exact List.mem_cons_of_mem e (ih found)

end Table

end WorkerPool
