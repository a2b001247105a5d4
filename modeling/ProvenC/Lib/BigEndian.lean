import Mathlib

/-!
# Big-endian numbers

Numbers in a fixed count of bytes, the most significant first.
-/

namespace ProvenC.Lib.BigEndian

open List

def bigEndian (bytes : List (Fin 256)) : Nat := bytes.foldl (fun value b => value * 256 + b.val) 0

local instance octetNeZero : NeZero 256 := ⟨by decide⟩

def bigEndianBytes : Nat → Nat → List (Fin 256)
  | 0, _ => []
  | count + 1, value => bigEndianBytes count (value / 256) ++ [Fin.ofNat 256 value]

theorem big_endian_concat (bytes : List (Fin 256)) (b : Fin 256) :
    bigEndian (bytes ++ [b]) = bigEndian bytes * 256 + b.val := foldl_concat _ _ _ _

theorem big_endian_bytes_length (count value : Nat) : (bigEndianBytes count value).length = count := by
  induction count generalizing value with
  | zero => rfl
  | succ count ih => rw [bigEndianBytes, length_append, ih, length_singleton]

theorem big_endian_of_bytes {count value : Nat} (small : value < 256 ^ count) :
    bigEndian (bigEndianBytes count value) = value := by
  induction count generalizing value with
  | zero =>
    rw [pow_zero, Nat.lt_one_iff] at small
    exact small.symm
  | succ count ih =>
    rw [pow_succ] at small
    have last : (Fin.ofNat 256 value).val = value % 256 := rfl
    rw [bigEndianBytes, big_endian_concat, ih (Nat.div_lt_of_lt_mul (by omega)), last]
    omega

theorem big_endian_lt (bytes : List (Fin 256)) : bigEndian bytes < 256 ^ bytes.length := by
  induction bytes using List.reverseRecOn with
  | nil => exact Nat.one_pos
  | append_singleton bytes b ih =>
    have small := b.isLt
    rw [big_endian_concat, length_append, length_singleton, pow_succ]
    omega

theorem bytes_of_big_endian (bytes : List (Fin 256)) : bigEndianBytes bytes.length (bigEndian bytes) = bytes := by
  induction bytes using List.reverseRecOn with
  | nil => rfl
  | append_singleton bytes b ih =>
    have small := b.isLt
    have front : (bigEndian bytes * 256 + b.val) / 256 = bigEndian bytes := by omega
    have last : Fin.ofNat 256 (bigEndian bytes * 256 + b.val) = b := Fin.ext (show _ % 256 = _ by omega)
    rw [length_append, length_singleton, big_endian_concat, bigEndianBytes, front, last, ih]

theorem big_endian_head (b : Fin 256) (bytes : List (Fin 256)) :
    bigEndian (b :: bytes) = b.val * 256 ^ bytes.length + bigEndian bytes := by
  induction bytes using List.reverseRecOn with
  | nil => simp [bigEndian]
  | append_singleton bytes last ih =>
    rw [← cons_append, big_endian_concat, big_endian_concat, ih, length_append, length_singleton, pow_succ]
    ring

theorem big_endian_append (first second : List (Fin 256)) :
    bigEndian (first ++ second) = bigEndian first * 256 ^ second.length + bigEndian second := by
  induction second using List.reverseRecOn with
  | nil => simp [bigEndian]
  | append_singleton second b ih =>
    rw [← append_assoc, big_endian_concat, big_endian_concat, ih, length_append, length_singleton, pow_succ]
    ring

end ProvenC.Lib.BigEndian
