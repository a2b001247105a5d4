import Mathlib

/-!
# Numbers in limbs

A number is a list of limbs of a fixed width, the least significant first. What a row of additions
or of products leaves in the limbs is told by the number and the carry together.
-/

namespace ProvenC.Lib.Limbs

abbrev Limb (width : Nat) := Fin (2 ^ width)

variable {width : Nat}

def low (v : Nat) : Limb width := ⟨v % 2 ^ width, Nat.mod_lt _ (Nat.two_pow_pos width)⟩

@[simp] theorem low_val (v : Nat) : (low v : Limb width).val = v % 2 ^ width := rfl

theorem low_of_val (x : Limb width) : low x.val = x := Fin.ext (Nat.mod_eq_of_lt x.isLt)

def value : List (Limb width) → Nat
  | [] => 0
  | x :: rest => x.val + 2 ^ width * value rest

@[simp] theorem value_nil : value ([] : List (Limb width)) = 0 := rfl

@[simp] theorem value_cons (x : Limb width) (rest : List (Limb width)) :
    value (x :: rest) = x.val + 2 ^ width * value rest := rfl

theorem value_append (first second : List (Limb width)) :
    value (first ++ second) = value first + (2 ^ width) ^ first.length * value second := by
  induction first with
  | nil => simp
  | cons x first ih =>
    rw [List.cons_append, value_cons, value_cons, ih, List.length_cons, pow_succ]
    ring

theorem value_lt (limbs : List (Limb width)) : value limbs < (2 ^ width) ^ limbs.length := by
  induction limbs with
  | nil => exact Nat.one_pos
  | cons x limbs ih =>
    have small := x.isLt
    rw [value_cons, List.length_cons, pow_succ]
    calc x.val + 2 ^ width * value limbs
      _ < 2 ^ width + 2 ^ width * value limbs := Nat.add_lt_add_right small _
      _ = 2 ^ width * (value limbs + 1) := by ring
      _ ≤ 2 ^ width * (2 ^ width) ^ limbs.length := Nat.mul_le_mul_left _ ih
      _ = (2 ^ width) ^ limbs.length * 2 ^ width := Nat.mul_comm _ _

theorem value_inj {first second : List (Limb width)} (length : first.length = second.length)
    (same : value first = value second) : first = second := by
  induction first generalizing second with
  | nil => exact (List.eq_nil_of_length_eq_zero length.symm).symm
  | cons x first ih =>
    cases second with
    | nil => cases length
    | cons y second =>
      rw [value_cons, value_cons] at same
      have low_ : x.val = y.val := by
        have parts := congrArg (· % 2 ^ width) same
        simp only [Nat.add_mul_mod_self_left] at parts
        rwa [Nat.mod_eq_of_lt x.isLt, Nat.mod_eq_of_lt y.isLt] at parts
      have rest : value first = value second := by
        rw [low_] at same
        exact Nat.eq_of_mul_eq_mul_left (Nat.two_pow_pos width) (Nat.add_left_cancel same)
      rw [Fin.ext low_, ih (Nat.succ.inj length) rest]

def zeros (count : Nat) : List (Limb width) := List.replicate count (low 0)

@[simp] theorem zeros_length (count : Nat) : (zeros count : List (Limb width)).length = count := List.length_replicate

theorem zeros_succ (count : Nat) : (zeros (count + 1) : List (Limb width)) = low 0 :: zeros count := rfl

@[simp] theorem value_zeros (count : Nat) : value (zeros count : List (Limb width)) = 0 := by
  induction count with
  | zero => rfl
  | succ count ih =>
    rw [zeros_succ, value_cons, ih, low_val, Nat.zero_mod, Nat.mul_zero]

variable {limbs : List (Limb width)}

theorem value_set {i : Nat} (place : i < limbs.length) (x : Limb width) :
    value (limbs.set i x) + limbs[i].val * (2 ^ width) ^ i = value limbs + x.val * (2 ^ width) ^ i := by
  induction limbs generalizing i with
  | nil => exact absurd place (Nat.not_lt_zero i)
  | cons y limbs ih =>
    cases i with
    | zero =>
      simp only [List.set_cons_zero, value_cons, List.getElem_cons_zero, pow_zero, Nat.mul_one]
      omega
    | succ i =>
      have inside : i < limbs.length := Nat.lt_of_succ_lt_succ place
      have rest := ih inside
      simp only [List.set_cons_succ, value_cons, List.getElem_cons_succ, pow_succ]
      calc y.val + 2 ^ width * value (limbs.set i x) + limbs[i].val * ((2 ^ width) ^ i * 2 ^ width)
        _ = y.val + 2 ^ width * (value (limbs.set i x) + limbs[i].val * (2 ^ width) ^ i) := by ring
        _ = y.val + 2 ^ width * (value limbs + x.val * (2 ^ width) ^ i) := by rw [rest]
        _ = y.val + 2 ^ width * value limbs + x.val * ((2 ^ width) ^ i * 2 ^ width) := by ring

theorem value_modify {i : Nat} (place : i < limbs.length) (f : Limb width → Limb width) :
    value (limbs.modify i f) + limbs[i].val * (2 ^ width) ^ i = value limbs + (f limbs[i]).val * (2 ^ width) ^ i := by
  rw [List.modify_eq_set_getElem?, List.getElem?_eq_getElem place]
  exact value_set place (f limbs[i])

theorem limb_of_value {i : Nat} (place : i < limbs.length) :
    limbs[i].val = value limbs / (2 ^ width) ^ i % 2 ^ width := by
  induction limbs generalizing i with
  | nil => exact absurd place (Nat.not_lt_zero i)
  | cons y limbs ih =>
    have positive := Nat.two_pow_pos width
    cases i with
    | zero =>
      rw [pow_zero, Nat.div_one, value_cons, Nat.add_mul_mod_self_left, Nat.mod_eq_of_lt y.isLt]
      rfl
    | succ i =>
      rw [List.getElem_cons_succ, ih (Nat.lt_of_succ_lt_succ place), pow_succ', ← Nat.div_div_eq_div_mul, value_cons,
        Nat.add_mul_div_left _ _ positive, Nat.div_eq_of_lt y.isLt, Nat.zero_add]

end ProvenC.Lib.Limbs
