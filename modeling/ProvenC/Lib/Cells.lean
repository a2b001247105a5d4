import Mathlib

/-!
# Cells and copies

A memory is a value for every address. A copy that reads before it writes (`moved`) and one that
goes upwards cell by cell (`copiedUp`) agree on ranges that have no cell in common.
-/

namespace ProvenC.Lib.Cells

open List Function

variable {Value : Type}

def stored (cells : Nat → Value) (place : Nat) (value : Value) : Nat → Value := Function.update cells place value

/-- The cells after `count` of them are copied from `source` to `target` as they were. -/
def moved (cells : Nat → Value) (target source count : Nat) : Nat → Value := fun place =>
  if target ≤ place ∧ place < target + count then cells (source + (place - target)) else cells place

/-- The cells after `count` of them are copied one by one, upwards. -/
def copiedUp (cells : Nat → Value) (target source : Nat) : Nat → Nat → Value
  | 0 => cells
  | count + 1 =>
    stored (copiedUp cells target source count) (target + count)
      (copiedUp cells target source count (source + count))

/-- The cells after values are written one by one from `place` on. -/
def storedAll (cells : Nat → Value) : Nat → List Value → Nat → Value
  | _, [] => cells
  | place, value :: values => storedAll (stored cells place value) (place + 1) values

/-- The `count` cells from `place` on. -/
def range (cells : Nat → Value) (place count : Nat) : List Value := List.ofFn fun i : Fin count => cells (place + i)

def Apart (a n b m : Nat) : Prop := a + n ≤ b ∨ b + m ≤ a

instance (a n b m : Nat) : Decidable (Apart a n b m) := inferInstanceAs (Decidable (_ ∨ _))

theorem apart_symm {a n b m : Nat} (apart : Apart a n b m) : Apart b m a n := Or.symm apart

theorem apart_within {a n b m a' n' b' m' : Nat} (apart : Apart a n b m) (low : a ≤ a') (high : a' + n' ≤ a + n)
    (low' : b ≤ b') (high' : b' + m' ≤ b + m) : Apart a' n' b' m' := by
  rcases apart with before | after
  · exact Or.inl (by omega)
  · exact Or.inr (by omega)

variable {cells : Nat → Value}

variable {target source : Nat}

theorem moved_inside {count i : Nat} (inside : i < count) :
    moved cells target source count (target + i) = cells (source + i) := by
  unfold moved
  rw [if_pos (by omega), Nat.add_sub_cancel_left]

theorem moved_outside {count place : Nat} (outside : place < target ∨ target + count ≤ place) :
    moved cells target source count place = cells place := by
  unfold moved
  rw [if_neg (by omega)]

theorem copied_up_moved {count : Nat} (apart : Apart target count source count) :
    copiedUp cells target source count = moved cells target source count := by
  have all : ∀ n ≤ count, copiedUp cells target source n = moved cells target source n := by
    intro n
    induction n with
    | zero =>
      intro _
      funext place
      rw [moved_outside (by omega)]
      rfl
    | succ n ih =>
      intro within
      rw [copiedUp, ih (by omega)]
      have unread : moved cells target source n (source + n) = cells (source + n) := by
        apply moved_outside
        rcases apart with before | after
        · exact Or.inr (by omega)
        · exact Or.inl (by omega)
      rw [unread]
      funext place
      unfold stored
      by_cases last : place = target + n
      · rw [last, update_self, moved_inside (Nat.lt_succ_self n)]
      rw [update_of_ne last]
      unfold moved
      exact if_congr (by omega) rfl rfl
  exact all count (le_refl count)

theorem copied_up_below {target source count : Nat} (below : target ≤ source) :
    copiedUp cells target source count = moved cells target source count := by
  induction count with
  | zero =>
    funext place
    rw [moved_outside (by omega)]
    rfl
  | succ n ih =>
    have unread : moved cells target source n (source + n) = cells (source + n) := moved_outside (by omega)
    rw [copiedUp, ih, unread]
    funext place
    unfold stored
    by_cases last : place = target + n
    · rw [last, update_self, moved_inside (Nat.lt_succ_self n)]
    rw [update_of_ne last]
    unfold moved
    exact if_congr (by omega) rfl rfl

theorem stored_all_outside (cells : Nat → Value) (place : Nat) (values : List Value) {i : Nat}
    (outside : i < place ∨ place + values.length ≤ i) : storedAll cells place values i = cells i := by
  induction values generalizing cells place with
  | nil => rfl
  | cons value values ih =>
    rw [length_cons] at outside
    rw [storedAll, ih _ _ (by omega)]
    exact update_of_ne (by omega) _ _

theorem stored_all_append (cells : Nat → Value) (place : Nat) (front back : List Value) :
    storedAll cells place (front ++ back) = storedAll (storedAll cells place front) (place + front.length) back := by
  induction front generalizing cells place with
  | nil => rfl
  | cons value front ih =>
    rw [cons_append, storedAll, storedAll, ih, length_cons, Nat.add_right_comm, add_assoc]

theorem range_succ (place n : Nat) : range cells place (n + 1) = cells place :: range cells (place + 1) n := by
  unfold range
  rw [ofFn_succ]
  congr 2
  funext i
  exact congrArg cells (by rw [Fin.val_succ]; omega)

theorem stored_all_range (cells : Nat → Value) (place : Nat) (values : List Value) :
    range (storedAll cells place values) place values.length = values := by
  induction values generalizing cells place with
  | nil => rfl
  | cons value values ih =>
    rw [length_cons, range_succ, storedAll, ih, stored_all_outside _ _ _ (Or.inl (Nat.lt_succ_self place))]
    rw [stored, update_self]

theorem moved_apart {count place n i : Nat} (apart : Apart target count place n) (inside : i < n) :
    moved cells target source count (place + i) = cells (place + i) := by
  apply moved_outside
  rcases apart with before | after
  · exact Or.inr (by omega)
  · exact Or.inl (by omega)

theorem range_length (place count : Nat) : (range cells place count).length = count := length_ofFn

theorem range_eq {cells' : Nat → Value} {place place' count : Nat}
    (same : ∀ i < count, cells (place + i) = cells' (place' + i)) :
    range cells place count = range cells' place' count := by
  unfold range
  congr 1
  funext i
  exact same i i.isLt

theorem range_append (place n m : Nat) : range cells place (n + m) = range cells place n ++ range cells (place + n) m := by
  unfold range
  rw [ofFn_add]
  congr 2
  funext i
  exact congrArg cells (add_assoc _ _ _).symm

theorem range_drop (place : Nat) {n k : Nat} (within : k ≤ n) :
    range cells (place + k) (n - k) = (range cells place n).drop k := by
  have parts := @range_append _ cells place k (n - k)
  have all : k + (n - k) = n := Nat.add_sub_cancel' within
  rw [all] at parts
  have front := @range_length _ cells place k
  rw [parts, drop_left' front]

theorem range_one (place : Nat) : range cells place 1 = [cells place] := by
  rw [range_succ]
  rfl

theorem range_stored (cells : Nat → Value) (n : Nat) (value : Value) :
    range (stored cells n value) 0 (n + 1) = range cells 0 n ++ [value] := by
  rw [range_append, range_one, zero_add, stored, update_self]
  congr 1
  apply range_eq
  intro i inside
  rw [update_of_ne (by omega)]

theorem range_moved (cells : Nat → Value) (n source count : Nat) :
    range (moved cells n source count) 0 (n + count) = range cells 0 n ++ range cells source count := by
  rw [range_append, zero_add]
  congr 1
  · apply range_eq
    intro i inside
    exact moved_outside (by omega)
  apply range_eq
  intro i inside
  exact moved_inside inside

end ProvenC.Lib.Cells
