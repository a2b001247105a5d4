import Mathlib
/-!
# Bit strings, most significant bit first

A bit string is read as a number with its first bit highest.
-/

namespace ProvenC.Lib.BitString

open List

def natOfBits : List Bool → Nat
  | [] => 0
  | bit :: rest => bit.toNat * 2 ^ rest.length + natOfBits rest

def bitsOfNat : Nat → Nat → List Bool
  | 0, _ => []
  | width + 1, value => decide (value / 2 ^ width % 2 = 1) :: bitsOfNat width value

@[simp] theorem bits_of_nat_length (width value : Nat) : (bitsOfNat width value).length = width := by
  induction width with
  | zero => rfl
  | succ width ih => simp [bitsOfNat, ih]

theorem nat_of_bits_lt (bits : List Bool) : natOfBits bits < 2 ^ bits.length := by
  induction bits with
  | nil => simp [natOfBits]
  | cons bit rest ih =>
    simp only [natOfBits, length_cons, pow_succ]
    cases bit <;> simp <;> omega

theorem nat_of_bits_append (left right : List Bool) :
    natOfBits (left ++ right) = natOfBits left * 2 ^ right.length + natOfBits right := by
  induction left with
  | nil => simp [natOfBits]
  | cons bit rest ih =>
    simp only [cons_append, natOfBits, length_append, ih, pow_add]
    ring

theorem nat_of_bits_of_nat (width value : Nat) : natOfBits (bitsOfNat width value) = value % 2 ^ width := by
  induction width with
  | zero => simp [bitsOfNat, natOfBits, Nat.mod_one]
  | succ width ih =>
    have split : value % 2 ^ (width + 1) = value % 2 ^ width + 2 ^ width * (value / 2 ^ width % 2) := by
      rw [pow_succ, Nat.mod_mul]
    rw [bitsOfNat, natOfBits, ih, bits_of_nat_length, split]
    rcases Nat.mod_two_eq_zero_or_one (value / 2 ^ width) with even | odd
    · simp [even]
    · simp [odd, add_comm]

theorem bits_of_nat_of_bits (bits : List Bool) : bitsOfNat bits.length (natOfBits bits) = bits := by
  induction bits with
  | nil => rfl
  | cons bit rest ih =>
    have restLt := nat_of_bits_lt rest
    have positive : 0 < 2 ^ rest.length := Nat.two_pow_pos _
    have quotient : (bit.toNat * 2 ^ rest.length + natOfBits rest) / 2 ^ rest.length = bit.toNat := by
      rw [mul_comm, Nat.mul_add_div positive, Nat.div_eq_of_lt restLt, add_zero]
    have low : ∀ (width high : Nat), width ≤ rest.length → bitsOfNat width (high * 2 ^ rest.length + natOfBits rest) =
          bitsOfNat width (natOfBits rest) := by
      intro width high bound
      induction width with
      | zero => rfl
      | succ width inner =>
        have same : (high * 2 ^ rest.length + natOfBits rest) / 2 ^ width % 2 = natOfBits rest / 2 ^ width % 2 := by
          have power : 2 ^ rest.length = 2 ^ width * (2 * 2 ^ (rest.length - width - 1)) := by
            rw [← pow_succ', ← pow_add]
            congr 1
            omega
          rw [power, ← mul_assoc, mul_comm high, mul_assoc,
            Nat.mul_add_div (Nat.two_pow_pos _), Nat.mul_left_comm, Nat.mul_add_mod]
        rw [bitsOfNat, bitsOfNat, same, inner (by omega)]
    rw [length_cons, bitsOfNat, natOfBits, quotient, low _ _ (le_refl _), ih]
    cases bit <;> simp

theorem bits_of_nat_mod (width value : Nat) : bitsOfNat width (value % 2 ^ width) = bitsOfNat width value := by
  have back := bits_of_nat_of_bits (bitsOfNat width value)
  rwa [bits_of_nat_length, nat_of_bits_of_nat] at back

theorem bits_of_nat_mod_of_le {width register : Nat} (value : Nat) (bound : width ≤ register) :
    bitsOfNat width (value % 2 ^ register) = bitsOfNat width value := by
  rw [← bits_of_nat_mod width (value % 2 ^ register), Nat.mod_mod_of_dvd _ (Nat.pow_dvd_pow 2 bound), bits_of_nat_mod]

theorem nat_of_bits_injective {left right : List Bool} (length : left.length = right.length)
    (same : natOfBits left = natOfBits right) : left = right := by
  rw [← bits_of_nat_of_bits left, ← bits_of_nat_of_bits right, length, same]

theorem bits_of_nat_add (high low value : Nat) :
    bitsOfNat (high + low) value = bitsOfNat high (value / 2 ^ low) ++ bitsOfNat low value := by
  apply nat_of_bits_injective
  · simp
  rw [nat_of_bits_append, nat_of_bits_of_nat, nat_of_bits_of_nat, nat_of_bits_of_nat,
    bits_of_nat_length, add_comm high low, pow_add, Nat.mod_mul]
  ring

theorem bits_of_nat_shift_add (high low value code : Nat) (fits : code < 2 ^ low) :
    bitsOfNat (high + low) (value * 2 ^ low + code) = bitsOfNat high value ++ bitsOfNat low code := by
  have quotient : (value * 2 ^ low + code) / 2 ^ low = value := by
    rw [mul_comm, Nat.mul_add_div (Nat.two_pow_pos _), Nat.div_eq_of_lt fits, add_zero]
  have remainder : (value * 2 ^ low + code) % 2 ^ low = code := by
    rw [mul_comm, Nat.mul_add_mod, Nat.mod_eq_of_lt fits]
  rw [bits_of_nat_add, quotient, ← bits_of_nat_mod low (value * 2 ^ low + code), remainder]

theorem bits_of_nat_take {width count : Nat} (value : Nat) (bound : count ≤ width) :
    (bitsOfNat width value).take count = bitsOfNat count (value / 2 ^ (width - count)) := by
  have split := bits_of_nat_add count (width - count) value
  rw [Nat.add_sub_cancel' bound] at split
  rw [split, take_left' (bits_of_nat_length _ _)]

theorem bits_of_nat_drop {width count : Nat} (value : Nat) (bound : count ≤ width) :
    (bitsOfNat width value).drop count = bitsOfNat (width - count) value := by
  have split := bits_of_nat_add count (width - count) value
  rw [Nat.add_sub_cancel' bound] at split
  rw [split, drop_left' (bits_of_nat_length _ _)]

theorem nat_of_bits_ones (width : Nat) : natOfBits (List.replicate width true) = 2 ^ width - 1 := by
  induction width with
  | zero => rfl
  | succ width ih =>
    have positive : 0 < 2 ^ width := Nat.two_pow_pos _
    simp only [replicate_succ, natOfBits, length_replicate, ih, pow_succ, Bool.toNat_true]
    omega

theorem bits_of_nat_ones (width : Nat) : bitsOfNat width (2 ^ width - 1) = List.replicate width true := by
  have back := bits_of_nat_of_bits (List.replicate width true)
  rwa [length_replicate, nat_of_bits_ones] at back

def bitsOfBytes (bytes : List (Fin 256)) : List Bool :=
  bytes.flatMap fun byte => bitsOfNat 8 byte.val

@[simp] theorem bits_of_bytes_nil : bitsOfBytes [] = [] := rfl

@[simp] theorem bits_of_bytes_cons (byte : Fin 256) (rest : List (Fin 256)) :
    bitsOfBytes (byte :: rest) = bitsOfNat 8 byte.val ++ bitsOfBytes rest := rfl

@[simp] theorem bits_of_bytes_append (left right : List (Fin 256)) :
    bitsOfBytes (left ++ right) = bitsOfBytes left ++ bitsOfBytes right := by
  simp [bitsOfBytes]

@[simp] theorem bits_of_bytes_length (bytes : List (Fin 256)) : (bitsOfBytes bytes).length = 8 * bytes.length := by
  induction bytes with
  | nil => rfl
  | cons byte rest ih => simp [ih]; omega

theorem bits_of_bytes_injective (left right : List (Fin 256)) (same : bitsOfBytes left = bitsOfBytes right) :
    left = right := by
  have length := congrArg List.length same
  rw [bits_of_bytes_length, bits_of_bytes_length] at length
  induction left generalizing right with
  | nil => exact (length_eq_zero_iff.mp (by simp only [length_nil] at length; omega)).symm
  | cons byte rest ih =>
    cases right with
    | nil => simp at length
    | cons byte' rest' =>
      rw [bits_of_bytes_cons, bits_of_bytes_cons] at same
      obtain ⟨first, later⟩ := append_inj same (by simp)
      have value := congrArg natOfBits first
      have small (byte : Fin 256) : byte.val % 2 ^ 8 = byte.val := Nat.mod_eq_of_lt byte.isLt
      rw [nat_of_bits_of_nat, nat_of_bits_of_nat, small, small] at value
      simp only [length_cons] at length
      rw [Fin.ext value, ih rest' later (by omega)]

end ProvenC.Lib.BitString
