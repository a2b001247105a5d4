import ProvenC.Lib.Cells

/-!
# Cells read round a ring

A ring of `slots` cells holds a queue from `head` on: the cell after the last is the first.
-/

namespace ProvenC.Lib.Circle

open Lib.Cells

variable {Value : Type} {cells : Nat → Value} {slots head count : Nat}

/-- The `count` cells from `head` on, round the ring. -/
def around (cells : Nat → Value) (slots head count : Nat) : List Value :=
  (List.range count).map fun i => cells ((head + i) % slots)

theorem around_length : (around cells slots head count).length = count := by
  rw [around, List.length_map, List.length_range]

theorem around_succ :
    around cells slots head (count + 1) = around cells slots head count ++ [cells ((head + count) % slots)] := by
  rw [around, List.range_succ, List.map_append]
  rfl

theorem around_front :
    around cells slots head (count + 1) = cells (head % slots) :: around cells slots ((head + 1) % slots) count := by
  rw [around, List.range_succ_eq_map, List.map_cons, List.map_map]
  congr 1
  refine List.map_congr_left fun i _ => ?_
  change cells ((head + (i + 1)) % slots) = cells (((head + 1) % slots + i) % slots)
  rw [Nat.mod_add_mod, Nat.add_assoc, Nat.add_comm 1 i]

theorem around_get {i : Nat} (inside : i < count) :
    (around cells slots head count)[i]? = some (cells ((head + i) % slots)) := by
  rw [around, List.getElem?_map, List.getElem?_range inside]
  rfl

theorem place_wraps {place : Nat} (near : place < 2 * slots) :
    (if slots ≤ place then place - slots else place) = place % slots := by
  split
  next past =>
    rw [Nat.mod_eq_sub_mod past, Nat.mod_eq_of_lt (by omega)]
  rename_i before
  exact (Nat.mod_eq_of_lt (Nat.lt_of_not_le before)).symm

theorem places_apart {i j : Nat} (before : i < j) (round : j < slots) : (head + i) % slots ≠ (head + j) % slots := by
  intro same
  have distance : j - i = head + j - (head + i) := by omega
  have whole : (head + j - (head + i)) % slots = 0 := Nat.sub_mod_eq_zero_of_mod_eq same.symm
  rw [← distance, Nat.mod_eq_of_lt (by omega)] at whole
  omega

theorem around_congr {other : Nat → Value} (same : ∀ i < count, cells ((head + i) % slots) = other ((head + i) % slots)) :
    around cells slots head count = around other slots head count :=
  List.map_congr_left fun i inside => same i (List.mem_range.mp inside)

theorem around_stored (room : count < slots) (value : Value) :
    around (stored cells ((head + count) % slots) value) slots head (count + 1) = around cells slots head count ++ [value] := by
  rw [around_succ, stored, Function.update_self]
  congr 1
  refine around_congr fun i inside => ?_
  exact Function.update_of_ne (places_apart inside room) _ _

theorem around_straight (fits : count ≤ slots) : around cells slots 0 count = range cells 0 count := by
  refine List.ext_getElem? fun i => ?_
  by_cases inside : i < count
  · rw [around_get inside, Nat.zero_add, Nat.mod_eq_of_lt (by omega), range, List.getElem?_ofFn, dif_pos inside, Nat.zero_add]
  · rw [List.getElem?_eq_none (by rw [around_length]; omega), List.getElem?_eq_none (by rw [range_length]; omega)]

end ProvenC.Lib.Circle
