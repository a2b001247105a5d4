import Mathlib
/-!
# A table of records with a key

Records stand in no order: one that leaves gives its place to the last. Keys are looked up by walking
the table.
-/

namespace ProvenC.Lib.Slots

open List

variable {Record Key : Type*} [DecidableEq Key] (key : Record → Key)

def find (id : Key) (table : List Record) : Option Record :=
  table.find? fun record => key record = id

def update (id : Key) (change : Record → Record) : List Record → List Record
  | [] => []
  | record :: rest =>
    if key record = id then change record :: rest else record :: update id change rest

/-- Put the last record of `rest` before the others: it takes the place in front of them. -/
def lastFirst : List Record → List Record
  | [] => []
  | record :: rest => (record :: rest).getLast (cons_ne_nil _ _) :: (record :: rest).dropLast

def remove (id : Key) : List Record → List Record
  | [] => []
  | record :: rest => if key record = id then lastFirst rest else record :: remove id rest

theorem last_first_perm (table : List Record) : (lastFirst table).Perm table := by
  cases table with
  | nil => exact List.Perm.refl _
  | cons record rest =>
    have whole := dropLast_append_getLast (cons_ne_nil record rest)
    rw [lastFirst]
    refine List.Perm.trans ?_ (List.Perm.of_eq whole)
    exact (perm_append_singleton _ _).symm

theorem find_mem {id : Key} {table : List Record} {record : Record}
    (found : find key id table = some record) : record ∈ table ∧ key record = id :=
  ⟨mem_of_find?_eq_some found, by simpa using List.find?_some found⟩

theorem find_none {id : Key} {table : List Record} : find key id table = none ↔ ∀ record ∈ table, key record ≠ id := by
  simp [find, List.find?_eq_none]

theorem find_isSome {id : Key} {table : List Record} :
    (find key id table).isSome = true ↔ ∃ record ∈ table, key record = id := by
  simp [find, List.find?_isSome]

theorem find_split {id : Key} {table : List Record} {record : Record} (found : find key id table = some record) :
    ∃ before after, table = before ++ record :: after ∧ key record = id ∧ ∀ other ∈ before, key other ≠ id := by
  obtain ⟨here, before, after, split, others⟩ := List.find?_eq_some_iff_append.mp found
  exact ⟨before, after, split, by simpa using here, fun other member => by simpa using others other member⟩

theorem update_split {id : Key} {before after : List Record} {record : Record} (here : key record = id)
    (others : ∀ other ∈ before, key other ≠ id) (change : Record → Record) :
    update key id change (before ++ record :: after) = before ++ change record :: after := by
  induction before with
  | nil => rw [nil_append, update, if_pos here, nil_append]
  | cons other before ih =>
    rw [cons_append, update, if_neg (others other (mem_cons_self ..)),
      ih fun o member => others o (mem_cons_of_mem _ member), cons_append]

theorem remove_split {id : Key} {before after : List Record} {record : Record} (here : key record = id)
    (others : ∀ other ∈ before, key other ≠ id) :
    remove key id (before ++ record :: after) = before ++ lastFirst after := by
  induction before with
  | nil => rw [nil_append, remove, if_pos here, nil_append]
  | cons other before ih =>
    rw [cons_append, remove, if_neg (others other (mem_cons_self ..)),
      ih fun o member => others o (mem_cons_of_mem _ member), cons_append]

theorem update_absent {id : Key} {table : List Record} (absent : find key id table = none)
    (change : Record → Record) : update key id change table = table := by
  rw [find_none] at absent
  induction table with
  | nil => rfl
  | cons record rest ih =>
    rw [update, if_neg (absent record (mem_cons_self ..)), ih fun other member => absent other (mem_cons_of_mem _ member)]

theorem remove_absent {id : Key} {table : List Record} (absent : find key id table = none) :
    remove key id table = table := by
  rw [find_none] at absent
  induction table with
  | nil => rfl
  | cons record rest ih =>
    rw [remove, if_neg (absent record (mem_cons_self ..)), ih fun other member => absent other (mem_cons_of_mem _ member)]

variable {change : Record → Record}

theorem forall_update {id : Key} {table : List Record} {P : Record → Prop} (all : ∀ record ∈ table, P record)
    (changed : ∀ record, find key id table = some record → P record → P (change record)) :
    ∀ record ∈ update key id change table, P record := by
  cases found : find key id table with
  | none => rwa [update_absent key found]
  | some record =>
    obtain ⟨before, after, rfl, here, others⟩ := find_split key found
    rw [update_split key here others]
    intro other member
    rcases mem_append.mp member with first | second
    · exact all other (mem_append_left _ first)
    rcases mem_cons.mp second with rfl | last
    · exact changed record found (all record (by simp))
    · exact all other (by simp [last])

theorem mem_update {id : Key} {table : List Record} {record other : Record}
    (unique : (table.map key).Nodup) (found : find key id table = some record)
    (member : other ∈ update key id change table) : other = change record ∨ (other ∈ table ∧ key other ≠ id) := by
  obtain ⟨before, after, rfl, here, others⟩ := find_split key found
  rw [update_split key here others] at member
  rw [map_append, map_cons, nodup_append, nodup_cons] at unique
  rcases mem_append.mp member with first | second
  · exact .inr ⟨mem_append_left _ first, others other first⟩
  rcases mem_cons.mp second with rfl | last
  · exact .inl rfl
  refine .inr ⟨by simp [last], fun same => ?_⟩
  exact unique.2.1.1 (mem_map.mpr ⟨other, last, same.trans here.symm⟩)

theorem remove_subperm (id : Key) (table : List Record) : (remove key id table).Subperm table := by
  cases found : find key id table with
  | none => rw [remove_absent key found]
  | some record =>
    obtain ⟨before, after, rfl, here, others⟩ := find_split key found
    rw [remove_split key here others]
    have permuted : (before ++ lastFirst after).Perm (before ++ after) :=
      (last_first_perm after).append_left before
    exact permuted.subperm.trans
      (List.Sublist.append (List.Sublist.refl before) (sublist_cons_self record after)).subperm

def sum {Value : Type*} [AddCommMonoid Value] (amount : Record → Value) (table : List Record) : Value :=
  (table.map amount).sum

section Sums

variable {Value : Type*} [AddCommMonoid Value] (amount : Record → Value)

@[simp] theorem sum_nil : sum amount ([] : List Record) = 0 := rfl

@[simp] theorem sum_cons (record : Record) (rest : List Record) :
    sum amount (record :: rest) = amount record + sum amount rest := by
  simp [sum]

@[simp] theorem sum_append (left right : List Record) :
    sum amount (left ++ right) = sum amount left + sum amount right := by
  simp [sum]

theorem sum_perm {left right : List Record} (same : left.Perm right) : sum amount left = sum amount right :=
  (same.map amount).sum_eq

theorem sum_remove {id : Key} {table : List Record} {record : Record} (found : find key id table = some record) :
    sum amount table = sum amount (remove key id table) + amount record := by
  obtain ⟨before, after, rfl, here, others⟩ := find_split key found
  rw [remove_split key here others, sum_append, sum_append, sum_cons,
    sum_perm amount (last_first_perm after), add_comm (amount record), add_assoc]

theorem sum_update {id : Key} {table : List Record} {record : Record} (change : Record → Record)
    (found : find key id table = some record) : sum amount (update key id change table) + amount record =
      sum amount table + amount (change record) := by
  obtain ⟨before, after, rfl, here, others⟩ := find_split key found
  rw [update_split key here others]
  simp only [sum_append, sum_cons]
  ac_rfl

theorem sum_update_same {id : Key} {table : List Record} (change : Record → Record)
    (same : ∀ record, amount (change record) = amount record) :
    sum amount (update key id change table) = sum amount table := by
  induction table with
  | nil => rfl
  | cons record rest ih =>
    rw [update]
    split
    · rw [sum_cons, sum_cons, same]
    · rw [sum_cons, sum_cons, ih]

end Sums

theorem find_update_same {id : Key} {table : List Record} {record : Record}
    (found : find key id table = some record) (kept : key (change record) = id) :
    find key id (update key id change table) = some (change record) := by
  obtain ⟨before, after, rfl, here, others⟩ := find_split key found
  rw [update_split key here others, find, List.find?_append,
    List.find?_eq_none.mpr fun other member => by simpa using others other member]
  simp [kept]

theorem find_remove_same {id : Key} {table : List Record} (unique : (table.map key).Nodup) :
    find key id (remove key id table) = none := by
  cases found : find key id table with
  | none => rw [remove_absent key found, found]
  | some record =>
    obtain ⟨before, after, rfl, here, others⟩ := find_split key found
    rw [remove_split key here others, find_none]
    rw [map_append, map_cons, nodup_append, nodup_cons] at unique
    intro other member
    rcases mem_append.mp member with first | second
    · exact others other first
    intro same
    have inAfter := (last_first_perm after).mem_iff.mp second
    exact unique.2.1.1 (mem_map.mpr ⟨other, inAfter, same.trans here.symm⟩)

theorem map_update {Part : Type*} {part : Record → Part} {id : Key} {table : List Record}
    (kept : ∀ record ∈ table, key record = id → part (change record) = part record) :
    (update key id change table).map part = table.map part := by
  induction table with
  | nil => rfl
  | cons record rest ih =>
    rw [update]
    split
    next here =>
      rw [map_cons, map_cons, kept record mem_cons_self here]
    · rw [map_cons, map_cons, ih fun other member => kept other (mem_cons_of_mem _ member)]

theorem map_update_found {Part : Type*} {part : Record → Part} {id : Key} {table : List Record} {record : Record} (found : find key id table = some record) (kept : part (change record) = part record) :
    (update key id change table).map part = table.map part := by
  obtain ⟨before, after, rfl, here, others⟩ := find_split key found
  rw [update_split key here others, map_append, map_append, map_cons, map_cons, kept]

theorem keys_update_found {id : Key} {table : List Record} {record : Record} {change : Record → Record}
    (found : find key id table = some record) (kept : key (change record) = id) :
    (update key id change table).map key = table.map key := by
  obtain ⟨before, after, rfl, here, others⟩ := find_split key found
  rw [update_split key here others, map_append, map_append, map_cons, map_cons, kept, here]

end ProvenC.Lib.Slots
