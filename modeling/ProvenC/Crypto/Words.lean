import ProvenC.Bytes
import ProvenC.Lib.Limbs

/-!
# Rows of limbs

The plain operations on the limbs of two numbers: sum and difference with what carries out, and the
choice between two numbers by a mask.
-/

namespace ProvenC.Crypto.Words

open Bytes Lib.Limbs

inductive LimbBits where
  | bits32
  | bits64
  deriving DecidableEq, Repr

def LimbBits.width : LimbBits → Nat
  | .bits32 => 32
  | .bits64 => 64

def LimbBits.bytes (limbBits : LimbBits) : Nat := limbBits.width / 8

theorem LimbBits.width_eq (limbBits : LimbBits) : limbBits.width = 32 ∨ limbBits.width = 64 := by
  cases limbBits
  · exact .inl rfl
  · exact .inr rfl

variable {width : Nat}

/-- The cast to `wide_t`. -/
def wide (width v : Nat) : Nat := v % 2 ^ (2 * width)

/-- `proven_crypto_mp_add_raw`, after a carry. -/
def addFrom : Nat → List (Limb width) → List (Limb width) → List (Limb width) × Nat
  | carry, a :: as, b :: bs =>
    let s := wide width (a.val + b.val + carry)
    let (rest, last) := addFrom (s / 2 ^ width) as bs
    (low s :: rest, last)
  | carry, _, _ => ([], carry)

def addRaw (a b : List (Limb width)) : List (Limb width) × Limb width :=
  let (out, carry) := addFrom 0 a b
  (out, low carry)

/-- `proven_crypto_mp_sub_raw`, after a borrow. -/
def subFrom : Nat → List (Limb width) → List (Limb width) → List (Limb width) × Nat
  | borrow, a :: as, b :: bs =>
    let d := wide width (a.val + (2 ^ (2 * width) - b.val - borrow))
    let (rest, last) := subFrom (d / 2 ^ width % 2) as bs
    (low d :: rest, last)
  | borrow, _, _ => ([], borrow)

def subRaw (a b : List (Limb width)) : List (Limb width) × Limb width :=
  let (out, borrow) := subFrom 0 a b
  (out, low borrow)

def negLimb (x : Limb width) : Limb width := low (2 ^ width - x.val)

def mpMaskFromBit (bit : Nat) : Limb width := negLimb (low (bit % 2))

/-- `mp_mask_zero`: all ones for 0. -/
def mpMaskZero (x : Limb width) : Limb width :=
  low ((x.val ||| (negLimb x).val) / 2 ^ (width - 1) + (2 ^ width - 1))

/-- One limb of `proven_crypto_mp_select`. -/
def selectLimb (mask a b : Limb width) : Limb width := low ((a.val &&& mask.val) ||| (b.val &&& (mask.val ^^^ (2 ^ width - 1))))

def select (a b : List (Limb width)) (mask : Limb width) : List (Limb width) := List.zipWith (selectLimb mask) a b

/-- The number in `t`, and one bit above it, less the modulus where it reaches that: the difference
is kept when there was a bit above or nothing was borrowed. -/
def reduceOnce (t : List (Limb width)) (top : Limb width) (n : List (Limb width)) : List (Limb width) :=
  let (d, borrow) := subRaw t n
  select d t (mpMaskFromBit (top.val ||| (borrow.val ^^^ 1)))

instance widthNeZero (limbBits : LimbBits) : NeZero limbBits.width := ⟨by cases limbBits <;> decide⟩

section Rows

variable [NeZero width]

theorem two_le_base : 2 ≤ 2 ^ width :=
  Nat.le_self_pow (NeZero.ne width) 2

theorem base_even : 2 ^ width = 2 * 2 ^ (width - 1) := by
  rw [← pow_succ', Nat.sub_add_cancel (Nat.pos_of_neZero width)]

omit [NeZero width] in
theorem wide_of_lt {v : Nat} (fits : v < 2 ^ width * 2 ^ width) : wide width v = v := by
  rw [wide, Nat.two_mul, pow_add]
  exact Nat.mod_eq_of_lt fits

omit [NeZero width] in
theorem low_add_high (v : Nat) : (low v : Limb width).val + 2 ^ width * (v / 2 ^ width) = v := Nat.mod_add_div v _

theorem add_from_spec {carry : Nat} {a b : List (Limb width)} (length : a.length = b.length) (small : carry ≤ 1) :
    (addFrom carry a b).1.length = a.length ∧ (addFrom carry a b).2 ≤ 1 ∧
      value (addFrom carry a b).1 + (2 ^ width) ^ a.length * (addFrom carry a b).2 = value a + value b + carry := by
  induction a generalizing carry b with
  | nil =>
    cases b with
    | nil => exact ⟨rfl, small, by simp [addFrom]⟩
    | cons y b => cases length
  | cons x a ih =>
    cases b with
    | nil => cases length
    | cons y b =>
      have two := @two_le_base width _
      have bound : x.val + y.val + carry < 2 ^ width * 2 := by
        have smallX := x.isLt
        have smallY := y.isLt
        omega
      have fits : wide width (x.val + y.val + carry) = x.val + y.val + carry :=
        wide_of_lt (bound.trans_le (Nat.mul_le_mul_left _ two))
      have high : (x.val + y.val + carry) / 2 ^ width ≤ 1 := Nat.le_of_lt_succ (Nat.div_lt_of_lt_mul bound)
      obtain ⟨length_, carry_, sum⟩ := @ih _ b (Nat.succ.inj length) high
      rw [addFrom, fits]
      refine ⟨congrArg Nat.succ length_, carry_, ?_⟩
      have split := @low_add_high width (x.val + y.val + carry)
      rw [value_cons, value_cons, value_cons, List.length_cons, pow_succ']
      generalize addFrom ((x.val + y.val + carry) / 2 ^ width) a b = rest at *
      calc (low (x.val + y.val + carry) : Limb width).val + 2 ^ width * value rest.1 +
            2 ^ width * (2 ^ width) ^ a.length * rest.2
        _ = (low (x.val + y.val + carry) : Limb width).val +
            2 ^ width * (value rest.1 + (2 ^ width) ^ a.length * rest.2) := by ring
        _ = (low (x.val + y.val + carry) : Limb width).val + 2 ^ width * ((x.val + y.val + carry) / 2 ^ width) +
            2 ^ width * (value a + value b) := by rw [sum]; ring
        _ = x.val + 2 ^ width * value a + (y.val + 2 ^ width * value b) + carry := by rw [split]; ring

theorem add_raw_spec {a b : List (Limb width)} (length : a.length = b.length) :
    (addRaw a b).1.length = a.length ∧ (addRaw a b).2.val ≤ 1 ∧
      value (addRaw a b).1 + (2 ^ width) ^ a.length * (addRaw a b).2.val = value a + value b := by
  obtain ⟨length_, carry, sum⟩ := add_from_spec length (Nat.zero_le 1)
  have kept : (addRaw a b).2.val = (addFrom 0 a b).2 :=
    Nat.mod_eq_of_lt (carry.trans_lt two_le_base)
  refine ⟨length_, kept ▸ carry, ?_⟩
  rw [kept]
  exact sum

theorem sub_limb (x y : Limb width) {borrow : Nat} (small : borrow ≤ 1) :
    (low (wide width (x.val + (2 ^ (2 * width) - y.val - borrow))) : Limb width).val + y.val + borrow =
      x.val + 2 ^ width * (wide width (x.val + (2 ^ (2 * width) - y.val - borrow)) / 2 ^ width % 2) := by
  have smallX := x.isLt
  have smallY := y.isLt
  have two := @two_le_base width _
  have even := @base_even width _
  have square : 2 ^ (2 * width) = 2 ^ width * 2 ^ width := by rw [Nat.two_mul, pow_add]
  have much : 2 ^ width * 2 ≤ 2 ^ width * 2 ^ width := Nat.mul_le_mul_left _ two
  rw [low_val, wide, square]
  by_cases enough : y.val + borrow ≤ x.val
  · have difference : (x.val + (2 ^ width * 2 ^ width - y.val - borrow)) % (2 ^ width * 2 ^ width) = x.val - y.val - borrow := by
      rw [show x.val + (2 ^ width * 2 ^ width - y.val - borrow) = x.val - y.val - borrow + 2 ^ width * 2 ^ width by omega,
        Nat.add_mod_right]
      exact Nat.mod_eq_of_lt (by omega)
    rw [difference, Nat.div_eq_of_lt (by omega), Nat.mod_eq_of_lt (by omega)]
    omega
  -- What is taken from the limb above is one of it.
  obtain ⟨lack, sum, positive, few⟩ : ∃ lack, x.val + lack = y.val + borrow ∧ 0 < lack ∧ lack ≤ 2 ^ width :=
    ⟨y.val + borrow - x.val, by omega, by omega, by omega⟩
  have difference : (x.val + (2 ^ width * 2 ^ width - y.val - borrow)) % (2 ^ width * 2 ^ width) =
      (2 ^ width - lack) + (2 ^ width - 1) * 2 ^ width := by
    have parts : (2 ^ width - 1) * 2 ^ width = 2 ^ width * 2 ^ width - 2 ^ width := by rw [Nat.sub_mul, one_mul]
    rw [Nat.mod_eq_of_lt (by omega)]
    omega
  have above : (2 ^ width - lack + (2 ^ width - 1) * 2 ^ width) / 2 ^ width = 2 ^ width - 1 := by
    rw [Nat.add_mul_div_right _ _ (Nat.two_pow_pos width), Nat.div_eq_of_lt (by omega), zero_add]
  rw [difference, above, Nat.add_mul_mod_self_right, Nat.mod_eq_of_lt (by omega)]
  have odd : (2 ^ width - 1) % 2 = 1 := by omega
  rw [odd]
  omega

theorem sub_from_spec {borrow : Nat} {a b : List (Limb width)} (length : a.length = b.length) (small : borrow ≤ 1) :
    (subFrom borrow a b).1.length = a.length ∧ (subFrom borrow a b).2 ≤ 1 ∧
      value (subFrom borrow a b).1 + value b + borrow = value a + (2 ^ width) ^ a.length * (subFrom borrow a b).2 := by
  induction a generalizing borrow b with
  | nil =>
    cases b with
    | nil => exact ⟨rfl, small, by simp [subFrom]⟩
    | cons y b => cases length
  | cons x a ih =>
    cases b with
    | nil => cases length
    | cons y b =>
      have limb := sub_limb x y small
      rw [subFrom]
      generalize wide width (x.val + (2 ^ (2 * width) - y.val - borrow)) = d at limb ⊢
      have high : d / 2 ^ width % 2 ≤ 1 := Nat.le_of_lt_succ (Nat.mod_lt _ (by decide))
      obtain ⟨length_, borrow_, sum⟩ := @ih _ b (Nat.succ.inj length) high
      refine ⟨congrArg Nat.succ length_, borrow_, ?_⟩
      rw [value_cons, value_cons, value_cons, List.length_cons, pow_succ']
      generalize subFrom (d / 2 ^ width % 2) a b = rest at *
      generalize d / 2 ^ width % 2 = next at *
      calc (low d : Limb width).val + 2 ^ width * value rest.1 + (y.val + 2 ^ width * value b) + borrow
        _ = (low d : Limb width).val + y.val + borrow + 2 ^ width * (value rest.1 + value b) := by ring
        _ = x.val + 2 ^ width * (value rest.1 + value b + next) := by rw [limb]; ring
        _ = x.val + 2 ^ width * value a + 2 ^ width * (2 ^ width) ^ a.length * rest.2 := by rw [sum]; ring

theorem sub_raw_spec {a b : List (Limb width)} (length : a.length = b.length) :
    (subRaw a b).1.length = a.length ∧ (subRaw a b).2.val ≤ 1 ∧
      value (subRaw a b).1 + value b = value a + (2 ^ width) ^ a.length * (subRaw a b).2.val := by
  obtain ⟨length_, borrow, sum⟩ := sub_from_spec length (Nat.zero_le 1)
  have kept : (subRaw a b).2.val = (subFrom 0 a b).2 :=
    Nat.mod_eq_of_lt (borrow.trans_lt two_le_base)
  refine ⟨length_, kept ▸ borrow, ?_⟩
  rw [kept]
  exact sum

theorem mask_from_bit_one : (mpMaskFromBit 1 : Limb width).val = 2 ^ width - 1 := by
  have two := @two_le_base width _
  show (2 ^ width - 1 % 2 % 2 ^ width) % 2 ^ width = 2 ^ width - 1
  rw [Nat.mod_eq_of_lt (a := 1 % 2) (by omega)]
  exact Nat.mod_eq_of_lt (by omega)

omit [NeZero width] in
theorem mask_from_bit_zero : (mpMaskFromBit 0 : Limb width).val = 0 := by
  show (2 ^ width - 0 % 2 % 2 ^ width) % 2 ^ width = 0
  rw [Nat.zero_mod, Nat.sub_zero, Nat.mod_self]

omit [NeZero width] in
theorem select_ones {a b : List (Limb width)} {mask : Limb width} (length : a.length = b.length)
    (ones : mask.val = 2 ^ width - 1) : select a b mask = a := by
  have limb (x y : Limb width) : selectLimb mask x y = x := by
    unfold selectLimb
    rw [ones, Nat.xor_self, Nat.and_zero, Nat.or_zero, Nat.and_two_pow_sub_one_eq_mod, Nat.mod_eq_of_lt x.isLt]
    exact low_of_val x
  induction a generalizing b with
  | nil => rfl
  | cons x a ih =>
    cases b with
    | nil => cases length
    | cons y b =>
      show selectLimb mask x y :: select a b mask = x :: a
      rw [limb, ih (Nat.succ.inj length)]

omit [NeZero width] in
theorem select_none {a b : List (Limb width)} {mask : Limb width} (length : a.length = b.length)
    (none_ : mask.val = 0) : select a b mask = b := by
  have limb (x y : Limb width) : selectLimb mask x y = y := by
    unfold selectLimb
    rw [none_, Nat.zero_xor, Nat.and_zero, Nat.zero_or, Nat.and_two_pow_sub_one_eq_mod, Nat.mod_eq_of_lt y.isLt]
    exact low_of_val y
  induction a generalizing b with
  | nil =>
    cases b with
    | nil => rfl
    | cons y b => cases length
  | cons x a ih =>
    cases b with
    | nil => cases length
    | cons y b =>
      show selectLimb mask x y :: select a b mask = y :: b
      rw [limb, ih (Nat.succ.inj length)]

theorem reduce_once_spec {t n : List (Limb width)} {top : Limb width} (length : t.length = n.length) (bit : top.val ≤ 1)
    (below : value t + (2 ^ width) ^ n.length * top.val < 2 * value n) : (reduceOnce t top n).length = n.length ∧
      value (reduceOnce t top n) = (value t + (2 ^ width) ^ n.length * top.val) % value n := by
  obtain ⟨length_, borrow, difference⟩ := sub_raw_spec length
  have small := value_lt n
  have smallT := value_lt t
  have smallD := value_lt (subRaw t n).1
  rw [length_] at smallD
  rw [length] at smallT smallD length_ difference
  unfold reduceOnce
  generalize subRaw t n = result at *
  obtain ⟨d, borrow_⟩ := result
  dsimp only at *
  have bits (a b : Nat) (a_ : a ≤ 1) (b_ : b ≤ 1) : a ||| (b ^^^ 1) = if a = 0 ∧ b = 1 then 0 else 1 := by
    rcases Nat.le_one_iff_eq_zero_or_eq_one.mp a_ with rfl | rfl <;>
      rcases Nat.le_one_iff_eq_zero_or_eq_one.mp b_ with rfl | rfl <;> rfl
  rw [bits top.val borrow_.val bit borrow]
  by_cases keep : top.val = 0 ∧ borrow_.val = 1
  · rw [if_pos keep, select_none (length_.trans length.symm) mask_from_bit_zero]
    refine ⟨length, ?_⟩
    rw [keep.1, mul_zero, add_zero]
    rw [keep.2, mul_one] at difference
    exact (Nat.mod_eq_of_lt (by omega)).symm
  rw [if_neg keep, select_ones (length_.trans length.symm) mask_from_bit_one]
  refine ⟨length_, ?_⟩
  have reached : value t + (2 ^ width) ^ n.length * top.val = value d + value n := by
    rcases Nat.le_one_iff_eq_zero_or_eq_one.mp bit with none_ | one
    · have noBorrow : borrow_.val = 0 := by
        by_contra some_
        exact keep ⟨none_, by omega⟩
      rw [noBorrow, mul_zero] at difference
      rw [none_, mul_zero]
      omega
    have borrowed : borrow_.val = 1 := by
      by_contra other
      have noBorrow : borrow_.val = 0 := by omega
      rw [one, mul_one] at below
      rw [noBorrow, mul_zero] at difference
      omega
    rw [borrowed] at difference
    rw [one]
    omega
  have less : value d < value n := by omega
  rw [reached, Nat.add_mod_right, Nat.mod_eq_of_lt less]

theorem mask_zero_spec (x : Limb width) : (mpMaskZero x).val = if x.val = 0 then 2 ^ width - 1 else 0 := by
  have two := @two_le_base width _
  have even := @base_even width _
  have small := x.isLt
  unfold mpMaskZero negLimb
  rw [low_val, low_val]
  by_cases zero : x.val = 0
  · rw [if_pos zero, zero, Nat.sub_zero, Nat.mod_self, Nat.or_zero, Nat.zero_div, zero_add]
    exact Nat.mod_eq_of_lt (by omega)
  rw [if_neg zero, Nat.mod_eq_of_lt (a := 2 ^ width - x.val) (by omega)]
  -- One of a limb and its negative has the top bit.
  have high : 2 ^ (width - 1) ≤ x.val ||| (2 ^ width - x.val) := by
    rcases Nat.lt_or_ge x.val (2 ^ (width - 1)) with less | more
    · exact le_trans (by omega) Nat.right_le_or
    · exact more.trans Nat.left_le_or
  have bound : x.val ||| (2 ^ width - x.val) < 2 ^ width := Nat.or_lt_two_pow small (by omega)
  have top : (x.val ||| (2 ^ width - x.val)) / 2 ^ (width - 1) = 1 :=
    Nat.div_eq_of_lt_le (by omega) (by omega)
  rw [top, show 1 + (2 ^ width - 1) = 2 ^ width by omega, Nat.mod_self]

end Rows

end ProvenC.Crypto.Words
