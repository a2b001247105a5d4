import ProvenC.Lib.Cells

/-!
# Shuffling by exchanges

Each position from the top down to 1 changes places with a position chosen at or below it. The sequences
of choices and the permutations of the positions correspond one to one.
-/

namespace ProvenC.Lib.Shuffling

open Function Lib.Cells

/-- Where the element at a position comes from, after the choices for `top` and those below it. -/
def order : Nat → List Nat → Equiv.Perm Nat
  | top + 1, choice :: choices => Equiv.swap (top + 1) choice * order top choices
  | _, _ => 1

/-- One choice for each position from `top` down to 1. -/
def Chosen : Nat → List Nat → Prop
  | top + 1, choice :: choices => choice ≤ top + 1 ∧ Chosen top choices
  | 0, [] => True
  | _, _ => False

variable {top : Nat}

theorem order_above {choices : List Nat} (chosen : Chosen top choices) {place : Nat}
    (above : top < place) : order top choices place = place := by
  induction top generalizing choices with
  | zero => rfl
  | succ top ih =>
    cases choices with
    | nil => rfl
    | cons choice choices =>
      obtain ⟨within, rest⟩ := chosen
      rw [order, Equiv.Perm.mul_apply, ih rest (by omega)]
      exact Equiv.swap_apply_of_ne_of_ne (by omega) (by omega)

theorem order_top {top choice : Nat} {choices : List Nat} (chosen : Chosen top choices) :
    order (top + 1) (choice :: choices) (top + 1) = choice := by
  rw [order, Equiv.Perm.mul_apply, order_above chosen (Nat.lt_succ_self top), Equiv.swap_apply_left]

theorem order_within {choices : List Nat} (chosen : Chosen top choices) {place : Nat}
    (within : place ≤ top) : order top choices place ≤ top := by
  by_contra outside
  have fixed := order_above chosen (not_le.mp outside)
  have same := (order top choices).injective fixed
  omega

theorem order_injective {choices choices' : List Nat} (chosen : Chosen top choices)
    (chosen' : Chosen top choices') (same : order top choices = order top choices') : choices = choices' := by
  induction top generalizing choices choices' with
  | zero =>
    cases choices with
    | cons _ _ => cases chosen
    | nil =>
      cases choices' with
      | cons _ _ => cases chosen'
      | nil => rfl
  | succ top ih =>
    cases choices with
    | nil => cases chosen
    | cons choice choices =>
      cases choices' with
      | nil => cases chosen'
      | cons choice' choices' =>
        have head : choice = choice' := by
          rw [← @order_top top choice choices chosen.2, ← @order_top top choice' choices' chosen'.2, same]
        subst head
        rw [order, order] at same
        rw [ih chosen.2 chosen'.2 (mul_left_cancel same)]

theorem order_surjective {wanted : Equiv.Perm Nat} (fixed : ∀ place, top < place → wanted place = place) :
    ∃ choices, Chosen top choices ∧ order top choices = wanted := by
  induction top generalizing wanted with
  | zero =>
    refine ⟨[], trivial, ?_⟩
    ext place
    rcases Nat.eq_zero_or_pos place with rfl | positive
    · rcases Nat.eq_zero_or_pos (wanted 0) with zero | positive
      · exact zero.symm
      have same := wanted.injective (fixed (wanted 0) positive)
      omega
    · exact (fixed place positive).symm
  | succ top ih =>
    have within : wanted (top + 1) ≤ top + 1 := by
      by_contra outside
      have same := wanted.injective (fixed (wanted (top + 1)) (not_le.mp outside))
      omega
    have lower : ∀ place, top < place → (Equiv.swap (top + 1) (wanted (top + 1)) * wanted) place = place := by
      intro place above
      rw [Equiv.Perm.mul_apply]
      by_cases last : place = top + 1
      · rw [last, Equiv.swap_apply_right]
      rw [fixed place (by omega)]
      exact Equiv.swap_apply_of_ne_of_ne last (by omega)
    obtain ⟨choices, chosen, same⟩ := ih lower
    refine ⟨wanted (top + 1) :: choices, ⟨within, chosen⟩, ?_⟩
    rw [order, same, ← mul_assoc, Equiv.swap_mul_self, one_mul]

theorem order_once {wanted : Equiv.Perm Nat} (fixed : ∀ place, top < place → wanted place = place) :
    ∃! choices, Chosen top choices ∧ order top choices = wanted := by
  obtain ⟨choices, chosen, same⟩ := order_surjective fixed
  refine ⟨choices, ⟨chosen, same⟩, ?_⟩
  rintro choices' ⟨chosen', same'⟩
  exact order_injective chosen' chosen (same'.trans same.symm)

variable {Value : Type}

/-- The cells after the first `n` of two ranges have changed places one by one, upwards. -/
def exchangedUp (cells : Nat → Value) (x y : Nat) : Nat → Nat → Value
  | 0 => cells
  | n + 1 =>
    let before := exchangedUp cells x y n
    stored (stored before (x + n) (before (y + n))) (y + n) (before (x + n))

theorem exchanged_up_eq (cells : Nat → Value) {x y n : Nat} (apart : Apart x n y n) (place : Nat) :
    exchangedUp cells x y n place = if x ≤ place ∧ place < x + n then cells (y + (place - x))
      else if y ≤ place ∧ place < y + n then cells (x + (place - y)) else cells place := by
  induction n generalizing place with
  | zero =>
    rw [if_neg (by omega), if_neg (by omega)]
    rfl
  | succ n ih =>
    have fewer : Apart x n y n := by
      rcases apart with before | after
      · exact Or.inl (by omega)
      · exact Or.inr (by omega)
    have unreadX : exchangedUp cells x y n (x + n) = cells (x + n) := by
      rw [ih fewer, if_neg (by omega), if_neg (by rcases apart with before | after <;> omega)]
    have unreadY : exchangedUp cells x y n (y + n) = cells (y + n) := by
      rw [ih fewer, if_neg (by rcases apart with before | after <;> omega), if_neg (by omega)]
    rw [exchangedUp, unreadX, unreadY, stored, stored]
    by_cases lastY : place = y + n
    · subst lastY
      rw [update_self, if_neg (by rcases apart with before | after <;> omega), if_pos (by omega)]
      congr 1
      omega
    rw [update_of_ne lastY]
    by_cases lastX : place = x + n
    · subst lastX
      rw [update_self, if_pos (by omega)]
      congr 1
      omega
    rw [update_of_ne lastX, ih fewer]
    by_cases inX : x ≤ place ∧ place < x + n
    · rw [if_pos inX, if_pos (by omega)]
    have outX : ¬(x ≤ place ∧ place < x + (n + 1)) := by omega
    rw [if_neg inX, if_neg outX]
    exact if_congr (by omega) rfl rfl

/-- The `count` elements from `base` on after a permutation, the cells around them untouched. -/
structure Arranged (base count size : Nat) (moves : Equiv.Perm Nat) (before after : Nat → Value) : Prop where
  elements : ∀ place < count, ∀ i < size, after (base + place * size + i) = before (base + moves place * size + i)
  around : ∀ cell, cell < base ∨ base + count * size ≤ cell → after cell = before cell

theorem element_apart {base size i j : Nat} (different : i ≠ j) :
    Apart (base + i * size) size (base + j * size) size := by
  rcases Nat.lt_or_gt_of_ne different with less | more
  · have room := Nat.mul_le_mul_right size (Nat.succ_le_of_lt less)
    rw [Nat.succ_mul] at room
    exact Or.inl (by omega)
  have room := Nat.mul_le_mul_right size (Nat.succ_le_of_lt more)
  rw [Nat.succ_mul] at room
  exact Or.inr (by omega)

theorem arranged_exchange (cells : Nat → Value) {base count size i j : Nat} (iIn : i < count) (jIn : j < count)
    (different : i ≠ j) : Arranged base count size (Equiv.swap i j) cells
      (exchangedUp cells (base + i * size) (base + j * size) size) := by
  have apart := @element_apart base size i j different
  constructor
  · intro place inside n within
    rw [exchanged_up_eq cells apart]
    by_cases first : place = i
    · subst first
      rw [if_pos (by omega), Equiv.swap_apply_left]
      congr 1
      omega
    have away := @element_apart base size place i first
    rw [if_neg (by rcases away with before | after <;> omega)]
    by_cases second : place = j
    · subst second
      rw [if_pos (by omega), Equiv.swap_apply_right]
      congr 1
      omega
    have off := @element_apart base size place j second
    rw [if_neg (by rcases off with before | after <;> omega), Equiv.swap_apply_of_ne_of_ne first second]
  intro cell outside
  have room := Nat.mul_le_mul_right size (Nat.succ_le_of_lt iIn)
  have room' := Nat.mul_le_mul_right size (Nat.succ_le_of_lt jIn)
  rw [Nat.succ_mul] at room room'
  rw [exchanged_up_eq cells apart, if_neg (by omega), if_neg (by omega)]

theorem arranged_refl (cells : Nat → Value) (base count size : Nat) : Arranged base count size 1 cells cells :=
  ⟨fun _ _ _ _ => rfl, fun _ _ => rfl⟩

theorem arranged_trans {base count size : Nat} {first second : Equiv.Perm Nat} {a b c : Nat → Value}
    (before : Arranged base count size first a b) (after : Arranged base count size second b c)
    (inside : ∀ place < count, second place < count) : Arranged base count size (first * second) a c := by
  constructor
  · intro place within i small
    rw [after.elements place within i small, before.elements _ (inside place within) i small, Equiv.Perm.mul_apply]
  intro cell outside
  rw [after.around cell outside, before.around cell outside]

end ProvenC.Lib.Shuffling
