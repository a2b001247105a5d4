import ProvenC.Lib.Ring
import ProvenC.Jobs.Queue

/-!
# Words of the job queue

What the masks, the steps by one and the comparison of two positions say of the numbers whose
remainders the words are.
-/

namespace ProvenC.Jobs.Words

open Lib.Ring (distance distance_ahead distance_behind)
open Jobs.Queue

variable {bits : ℕ}

theorem range_eq (some : 0 < bits) : 2 ^ bits = 2 * signBit bits := by
  obtain ⟨less, rfl⟩ := Nat.exists_eq_succ_of_ne_zero (ne_of_gt some)
  rw [signBit, Nat.succ_sub_one, Nat.pow_succ, mul_comm]

theorem signBit_pos : 0 < signBit bits := Nat.two_pow_pos (bits - 1)

theorem up_mod (p : ℕ) : up bits (p % 2 ^ bits) = (p + 1) % 2 ^ bits := Nat.mod_add_mod p (2 ^ bits) 1

theorem and_activeMask (word : ℕ) : word &&& activeMask bits = word % signBit bits :=
  Nat.and_two_pow_sub_one_eq_mod word (bits - 1)

theorem and_signBit (word : ℕ) : word &&& signBit bits = word / signBit bits % 2 * signBit bits := by
  rw [signBit, Nat.and_two_pow, Nat.toNat_testBit]

theorem signed_iff (some : 0 < bits) {word : ℕ} (small : word < 2 ^ bits) :
    word &&& signBit bits ≠ 0 ↔ signBit bits ≤ word := by
  have half := @signBit_pos bits
  rw [range_eq some] at small
  have quotient : word / signBit bits < 2 := Nat.div_lt_of_lt_mul (by rwa [mul_comm])
  rw [and_signBit, Nat.mod_eq_of_lt quotient]
  constructor
  · intro signed
    by_contra lower
    rw [Nat.div_eq_of_lt (Nat.lt_of_not_le lower), zero_mul] at signed
    exact signed rfl
  intro upper zero
  have positive : 0 < word / signBit bits := Nat.div_pos upper half
  exact absurd zero (ne_of_gt (Nat.mul_pos positive half))

theorem or_signBit (some : 0 < bits) {word : ℕ} (small : word < 2 ^ bits) :
    word ||| signBit bits = if signBit bits ≤ word then word else word + signBit bits := by
  rw [range_eq some] at small
  split
  next upper =>
    have rest : word - signBit bits < signBit bits := by omega
    have whole : word = (word - signBit bits) ||| signBit bits := by
      have sum := Nat.or_two_pow_eq_add_of_lt rest
      rw [← signBit] at sum
      omega
    rw [whole, Nat.or_assoc, Nat.or_self]
  rename_i lower
  exact Nat.or_two_pow_eq_add_of_lt (Nat.lt_of_not_le lower)

theorem cellState_of (some : 0 < bits) {p q : ℕ} (behind : p ≤ q + signBit bits) (ahead : q < p + signBit bits) :
    cellState bits (q % 2 ^ bits) (p % 2 ^ bits) =
      if q = p then CellState.ready else if q < p then CellState.behind else CellState.ahead := by
  have range := range_eq some
  have half := @signBit_pos bits
  have small : (q % 2 ^ bits + 2 ^ bits - p % 2 ^ bits) % 2 ^ bits < 2 ^ bits := Nat.mod_lt _ (Nat.two_pow_pos bits)
  have told : (q % 2 ^ bits + 2 ^ bits - p % 2 ^ bits) % 2 ^ bits = distance (2 ^ bits) (p % 2 ^ bits) (q % 2 ^ bits) :=
    rfl
  have signed := signed_iff some small
  unfold cellState
  rw [told] at signed ⊢
  rcases Nat.lt_trichotomy q p with before | equal | after
  · rw [distance_behind before (by omega)] at signed ⊢
    rw [if_neg (by omega), if_pos (signed.mpr (by omega)), if_neg (by omega), if_pos before]
  · rw [distance_ahead (by omega) (by omega)] at signed ⊢
    rw [if_pos (by omega), if_pos equal]
  rw [distance_ahead (by omega) (by omega)] at signed ⊢
  rw [if_neg (by omega), if_neg (by
      intro signed'
      have upper := signed.mp signed'
      omega), if_neg (by omega), if_neg (by omega)]

end ProvenC.Jobs.Words
