import Mathlib

/-!
# Rounding up to a power of two

Copying every bit into the bits below it leaves a number whose successor is a power of two.
-/

namespace ProvenC.Lib.Powers

/-- Every bit of `v` stands in `x` at its own place and at the `n - 1` places below it. -/
def Spread (v n x : Nat) : Prop := ∀ i, x.testBit i = true ↔ ∃ j, j < n ∧ v.testBit (i + j) = true

theorem spread_start (v : Nat) : Spread v 1 v := by
  intro i
  constructor
  · intro set_
    exact ⟨0, by omega, set_⟩
  rintro ⟨j, isZero, set_⟩
  obtain rfl : j = 0 := by omega
  exact set_

theorem spread_more {v n x : Nat} (spread : Spread v n x) : Spread v (n + n) (x ||| (x >>> n)) := by
  intro i
  rw [Nat.testBit_or, Nat.testBit_shiftRight, Bool.or_eq_true, spread i, spread (n + i)]
  constructor
  · rintro (⟨j, jIn, set_⟩ | ⟨j, jIn, set_⟩)
    · exact ⟨j, by omega, set_⟩
    refine ⟨n + j, by omega, ?_⟩
    rw [show i + (n + j) = n + i + j by omega]
    exact set_
  rintro ⟨j, jIn, set_⟩
  by_cases near : j < n
  · exact Or.inl ⟨j, near, set_⟩
  refine Or.inr ⟨j - n, by omega, ?_⟩
  rw [show n + i + (j - n) = i + j by omega]
  exact set_

theorem spread_whole {v n x : Nat} (positive : v ≠ 0) (fits : v < 2 ^ n) (spread : Spread v n x) :
    x + 1 = 2 ^ (v.log2 + 1) := by
  have highest := Nat.testBit_log2 positive
  have low : v.log2 < n := by
    by_contra far
    have clear := Nat.testBit_lt_two_pow (lt_of_lt_of_le fits (Nat.pow_le_pow_right (by omega) (not_lt.mp far)))
    rw [highest] at clear
    cases clear
  have ones : x = 2 ^ (v.log2 + 1) - 1 := by
    apply Nat.eq_of_testBit_eq
    intro i
    rw [Nat.testBit_two_pow_sub_one, Bool.eq_iff_iff, spread i, decide_eq_true_eq]
    constructor
    · rintro ⟨j, jIn, set_⟩
      by_contra far
      have above : v < 2 ^ (i + j) :=
        lt_of_lt_of_le Nat.lt_log2_self (Nat.pow_le_pow_right (by omega) (by omega))
      rw [Nat.testBit_lt_two_pow above] at set_
      cases set_
    intro below
    refine ⟨v.log2 - i, by omega, ?_⟩
    rw [show i + (v.log2 - i) = v.log2 by omega]
    exact highest
  have positivePower : 0 < 2 ^ (v.log2 + 1) := Nat.two_pow_pos _
  omega

end ProvenC.Lib.Powers
