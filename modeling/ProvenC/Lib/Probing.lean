import Mathlib

/-!
# Open addressing with linear probing

A table of slots in which a key is looked for from its home on, slot after slot and round the end, until
it is found or an empty slot is met.
-/

namespace ProvenC.Lib.Probing

open List

variable {Key Entry : Type}

inductive Slot (Key Entry : Type) where
  | empty
  | occupied (key : Key) (entry : Entry)
  | tombstone

def Slot.isLive : Slot Key Entry → Bool
  | .occupied _ _ => true
  | _ => false

def Slot.isUsed : Slot Key Entry → Bool
  | .empty => false
  | _ => true

/-- The slot looked at after `d` others. -/
def spot (size home d : Nat) : Nat := (home + d) % size

theorem spot_lt {size : Nat} (home d : Nat) (positive : 0 < size) : spot size home d < size :=
  Nat.mod_lt _ positive

theorem spot_next (size home d : Nat) : (spot size home d + 1) % size = spot size home (d + 1) := by
  unfold spot
  rw [Nat.mod_add_mod, add_assoc]

variable {j : Nat}

theorem spot_reaches {size : Nat} (home : Nat) (jIn : j < size) : ∃ d, d < size ∧ spot size home d = j := by
  have homeIn : home % size < size := Nat.mod_lt _ (by omega)
  have parts := Nat.div_add_mod home size
  have around : home + (j + (size - home % size)) = j + size * (home / size + 1) := by
    rw [mul_add, mul_one]
    omega
  refine ⟨(j + (size - home % size)) % size, Nat.mod_lt _ (by omega), ?_⟩
  unfold spot
  rw [Nat.add_mod_mod, around, Nat.add_mul_mod_self_left, Nat.mod_eq_of_lt jIn]

def Holds (slots : List (Slot Key Entry)) (key : Key) (entry : Entry) : Prop :=
  ∃ j : Nat, slots[j]? = some (Slot.occupied key entry)

structure Probed (home : Key → Nat) (slots : List (Slot Key Entry)) : Prop where
  reach : ∀ (j : Nat) (key : Key) (entry : Entry), slots[j]? = some (Slot.occupied key entry) →
    ∃ d, d < slots.length ∧ spot slots.length (home key) d = j ∧
      ∀ e, e < d → slots[spot slots.length (home key) e]? ≠ some Slot.empty
  unique : ∀ (i j : Nat) (key : Key) (entry other : Entry), slots[i]? = some (Slot.occupied key entry) →
    slots[j]? = some (Slot.occupied key other) → i = j

variable {home : Key → Nat} {slots : List (Slot Key Entry)}

variable {key : Key}

variable (probed : Probed home slots)
include probed

theorem holds_functional {entry other : Entry} (first : Holds slots key entry)
    (second : Holds slots key other) : entry = other := by
  obtain ⟨i, atI⟩ := first
  obtain ⟨j, atJ⟩ := second
  have same := probed.unique i j key entry other atI atJ
  subst same
  cases atI.symm.trans atJ
  rfl

theorem search_misses {d : Nat}
    (passed : ∀ e, e < d → ∀ entry, slots[spot slots.length (home key) e]? ≠ some (Slot.occupied key entry))
    (ends : d = slots.length ∨ slots[spot slots.length (home key) d]? = some Slot.empty) (entry : Entry) :
    ¬ Holds slots key entry := by
  rintro ⟨j, there⟩
  obtain ⟨steps, stepsIn, lands, full⟩ := probed.reach j key entry there
  rcases Nat.lt_trichotomy steps d with before | same | later
  · apply passed steps before entry
    rw [lands, there]
  · rcases ends with whole | isEmpty
    · omega
    rw [← same, lands, there] at isEmpty
    cases isEmpty
  rcases ends with whole | isEmpty
  · omega
  · exact full d later isEmpty

omit probed in
theorem probed_empty (home : Key → Nat) (size : Nat) :
    Probed home (List.replicate size (Slot.empty : Slot Key Entry)) where
  reach := by
    intro j key entry there
    rw [List.getElem?_replicate] at there
    split at there <;> cases there
  unique := by
    intro i j key entry other atI
    rw [List.getElem?_replicate] at atI
    split at atI <;> cases atI

omit probed in
theorem get_set (jIn : j < slots.length) (slot : Slot Key Entry) (i : Nat) :
    (slots.set j slot)[i]? = if i = j then some slot else slots[i]? := by
  rw [List.getElem?_set]
  by_cases same : j = i
  · subst same
    rw [if_pos rfl, if_pos jIn, if_pos rfl]
  · rw [if_neg same, if_neg (Ne.symm same)]

theorem reach_kept (jIn : j < slots.length) {slot : Slot Key Entry}
    (used : slot ≠ Slot.empty) {i : Nat} {entry : Entry} (there : slots[i]? = some (Slot.occupied key entry)) :
    ∃ d, d < (slots.set j slot).length ∧ spot (slots.set j slot).length (home key) d = i ∧
      ∀ e, e < d → (slots.set j slot)[spot (slots.set j slot).length (home key) e]? ≠ some Slot.empty := by
  obtain ⟨d, dIn, lands, full⟩ := probed.reach i key entry there
  rw [length_set]
  refine ⟨d, dIn, lands, fun e before => ?_⟩
  rw [get_set jIn]
  split
  · intro isEmpty
    cases isEmpty
    exact used rfl
  · exact full e before

theorem probed_place {d : Nat} (dIn : d < slots.length) (entry : Entry)
    (full : ∀ e, e < d → slots[spot slots.length (home key) e]? ≠ some Slot.empty)
    (absent : ∀ other, ¬ Holds slots key other) :
    Probed home (slots.set (spot slots.length (home key) d) (Slot.occupied key entry)) := by
  have jIn : spot slots.length (home key) d < slots.length := spot_lt _ _ (by omega)
  constructor
  · intro i key' entry' there
    rw [get_set jIn] at there
    split at there
    next same =>
      cases there
      rw [length_set]
      refine ⟨d, dIn, same.symm, fun e before => ?_⟩
      rw [get_set jIn]
      split
      · intro isEmpty
        cases isEmpty
      · exact full e before
    · exact reach_kept probed jIn (fun isEmpty => by cases isEmpty) there
  intro i i' key' first second atI atI'
  rw [get_set jIn] at atI atI'
  split at atI
  next isI =>
    cases atI
    split at atI'
    next isI' =>
      rw [isI, isI']
    · exact absurd ⟨i', atI'⟩ (absent second)
  split at atI'
  · cases atI'
    exact absurd ⟨i, atI⟩ (absent first)
  · exact probed.unique i i' key' first second atI atI'

theorem probed_rewrite {old : Entry} (there : slots[j]? = some (Slot.occupied key old)) (entry : Entry) :
    Probed home (slots.set j (Slot.occupied key entry)) := by
  have jIn : j < slots.length := (List.getElem?_eq_some_iff.mp there).1
  constructor
  · intro i key' entry' atI
    rw [get_set jIn] at atI
    split at atI
    next same =>
      cases atI
      subst same
      exact reach_kept probed jIn (fun isEmpty => by cases isEmpty) there
    · exact reach_kept probed jIn (fun isEmpty => by cases isEmpty) atI
  intro i i' key' first second atI atI'
  rw [get_set jIn] at atI atI'
  split at atI
  next isI =>
    cases atI
    split at atI'
    next isI' =>
      rw [isI, isI']
    rw [isI]
    exact probed.unique j i' key old second there atI'
  split at atI'
  next isI' =>
    cases atI'
    rw [isI']
    exact probed.unique i j key first old atI there
  · exact probed.unique i i' key' first second atI atI'

theorem probed_bury (jIn : j < slots.length) : Probed home (slots.set j Slot.tombstone) := by
  constructor
  · intro i key entry atI
    rw [get_set jIn] at atI
    split at atI
    · cases atI
    · exact reach_kept probed jIn (fun isEmpty => by cases isEmpty) atI
  intro i i' key first second atI atI'
  rw [get_set jIn] at atI atI'
  split at atI
  · cases atI
  split at atI'
  · cases atI'
  · exact probed.unique i i' key first second atI atI'

omit probed

def liveCount (slots : List (Slot Key Entry)) : Nat := slots.countP Slot.isLive

def usedCount (slots : List (Slot Key Entry)) : Nat := slots.countP Slot.isUsed

theorem live_le_used : liveCount slots ≤ usedCount slots := by
  apply countP_mono_left
  intro slot among live
  cases slot <;> first | rfl | cases live

theorem empty_exists (spare : usedCount slots < slots.length) : ∃ j : Nat, slots[j]? = some Slot.empty := by
  by_contra none_
  push Not at none_
  have all : ∀ slot ∈ slots, slot.isUsed = true := by
    intro slot among
    obtain ⟨j, there⟩ := mem_iff_getElem?.mp among
    cases slot with
    | empty => exact absurd there (none_ j)
    | occupied | tombstone => rfl
  have whole : usedCount slots = slots.length := countP_eq_length.mpr all
  omega

theorem count_set (counts : Slot Key Entry → Bool) {old : Slot Key Entry} (there : slots[j]? = some old)
    (slot : Slot Key Entry) : (slots.set j slot).countP counts + (if counts old then 1 else 0) =
      slots.countP counts + (if counts slot then 1 else 0) := by
  obtain ⟨jIn, isOld⟩ := List.getElem?_eq_some_iff.mp there
  have before : counts old = true → 0 < slots.countP counts := by
    intro counted
    exact countP_pos_iff.mpr ⟨old, mem_of_getElem? there, counted⟩
  rw [countP_set jIn, isOld]
  by_cases counted : counts old = true
  · rw [if_pos counted]
    have positive := before counted
    omega
  rw [if_neg counted]
  omega

def Slot.key? : Slot Key Entry → Option Key
  | .occupied key _ => some key
  | _ => none

theorem live_key (slot : Slot Key Entry) : slot.isLive = slot.key?.isSome := by
  cases slot <;> rfl

theorem key_of_slot {slot : Slot Key Entry} (is : slot.key? = some key) : ∃ entry, slot = Slot.occupied key entry := by
  cases slot with
  | empty | tombstone => cases is
  | occupied key' entry =>
    cases is
    exact ⟨entry, rfl⟩

theorem keys_counted (probed : Probed home slots) : {key | ∃ entry, Holds slots key entry}.ncard = liveCount slots := by
  classical
  have distinct : (slots.filterMap Slot.key?).Nodup := by
    apply pairwise_filterMap.mpr
    apply pairwise_iff_getElem.mpr
    intro i j iIn jIn before key isKey other isOther same
    subst same
    obtain ⟨entry, atI⟩ := key_of_slot isKey
    obtain ⟨entry', atJ⟩ := key_of_slot isOther
    have together := probed.unique i j key entry entry' (List.getElem?_eq_some_iff.mpr ⟨iIn, atI⟩)
      (List.getElem?_eq_some_iff.mpr ⟨jIn, atJ⟩)
    omega
  have listed : {key | ∃ entry, Holds slots key entry} = ↑(slots.filterMap Slot.key?).toFinset := by
    ext key
    rw [Set.mem_ofPred_eq, coe_toFinset, Set.mem_ofPred_eq, mem_filterMap]
    constructor
    · rintro ⟨entry, j, there⟩
      exact ⟨_, mem_of_getElem? there, rfl⟩
    rintro ⟨slot, among, is⟩
    obtain ⟨entry, rfl⟩ := key_of_slot is
    exact ⟨entry, mem_iff_getElem?.mp among⟩
  rw [listed, Set.ncard_coe_finset, toFinset_card_of_nodup distinct, length_filterMap_eq_countP]
  unfold liveCount
  congr 1
  funext slot
  exact (live_key slot).symm

end ProvenC.Lib.Probing
