import Mathlib

/-!
# Multiply and reject

A draw below `size` is multiplied by `bound`. The product's quotient by `size` is the outcome, and the
draw is rejected when the remainder is below `size % bound`.
-/

namespace ProvenC.Lib.Rejection

open List

variable {size bound : Nat}

def verdict (size bound draw : Nat) : Option Nat :=
  if draw * bound % size < size % bound then none else some (draw * bound / size)

/-- The least draw that comes to `outcome`. -/
def firstOf (size bound outcome : Nat) : Nat := (outcome * size + size % bound + (bound - 1)) / bound

variable {outcome draw : Nat}

theorem verdict_product (nonempty : 0 < size) : verdict size bound draw = some outcome ↔
      outcome * size + size % bound ≤ bound * draw ∧ bound * draw < outcome * size + size := by
  have parts := Nat.div_add_mod (draw * bound) size
  have small := Nat.mod_lt (draw * bound) nonempty
  rw [mul_comm draw bound] at *
  unfold verdict
  rw [mul_comm draw bound]
  constructor
  · intro accepted
    split at accepted
    · cases accepted
    obtain rfl : bound * draw / size = outcome := Option.some.inj accepted
    rw [mul_comm size] at parts
    omega
  rintro ⟨low, high⟩
  have same : bound * draw / size = outcome := by
    apply Nat.div_eq_of_lt_le
    · omega
    rw [Nat.succ_mul]
    exact high
  rw [same, mul_comm size] at parts
  rw [if_neg (by omega), same]

theorem verdict_interval (positive : 0 < bound) (nonempty : 0 < size) : verdict size bound draw = some outcome ↔
      draw ∈ Finset.Ico (firstOf size bound outcome) (firstOf size bound outcome + size / bound) := by
  have whole := Nat.div_add_mod size bound
  have low : firstOf size bound outcome ≤ draw ↔ outcome * size + size % bound ≤ bound * draw := by
    unfold firstOf
    rw [Nat.div_le_iff_le_mul_add_pred positive]
    omega
  have shifted : firstOf size bound outcome + size / bound = (outcome * size + size + (bound - 1)) / bound := by
    unfold firstOf
    rw [← Nat.add_mul_div_left _ _ positive]
    congr 1
    omega
  have high : firstOf size bound outcome + size / bound ≤ draw ↔ outcome * size + size ≤ bound * draw := by
    rw [shifted, Nat.div_le_iff_le_mul_add_pred positive]
    omega
  rw [verdict_product nonempty, Finset.mem_Ico, low, ← not_le (b := draw), high]
  omega

theorem verdict_below (small : draw < size) (accepted : verdict size bound draw = some outcome) : outcome < bound := by
  have nonempty : 0 < size := by omega
  obtain ⟨low, -⟩ := (verdict_product nonempty).mp accepted
  by_contra large
  have outside : bound * size ≤ outcome * size := Nat.mul_le_mul_right size (by omega)
  rcases Nat.eq_zero_or_pos bound with rfl | positive
  · simp at low
    omega
  have inside : bound * draw < bound * size := (Nat.mul_lt_mul_left positive).mpr small
  omega

theorem outcome_draws_small (below : outcome < bound)
    (accepted : verdict size bound draw = some outcome) (nonempty : 0 < size) : draw < size := by
  obtain ⟨-, high⟩ := (verdict_product nonempty).mp accepted
  have room : (outcome + 1) * size ≤ bound * size := Nat.mul_le_mul_right size below
  rw [Nat.succ_mul] at room
  exact Nat.lt_of_mul_lt_mul_left (lt_of_lt_of_le high room)

theorem accepted_card (positive : 0 < bound) (nonempty : 0 < size) (below : outcome < bound) :
    (Finset.univ.filter fun draw : Fin size => verdict size bound draw = some outcome).card = size / bound := by
  rw [← Finset.card_map Fin.valEmbedding]
  have interval : (Finset.univ.filter fun draw : Fin size => verdict size bound draw = some outcome).map
      Fin.valEmbedding = Finset.Ico (firstOf size bound outcome) (firstOf size bound outcome + size / bound) := by
    ext draw
    rw [← verdict_interval positive nonempty, Finset.mem_map]
    constructor
    · rintro ⟨small, there, rfl⟩
      exact (Finset.mem_filter.mp there).2
    intro accepted
    exact ⟨⟨draw, outcome_draws_small below accepted nonempty⟩,
      Finset.mem_filter.mpr ⟨Finset.mem_univ _, accepted⟩, rfl⟩
  rw [interval, Nat.card_Ico, Nat.add_sub_cancel_left]

theorem rejected_card (positive : 0 < bound) (nonempty : 0 < size) :
    (Finset.univ.filter fun draw : Fin size => verdict size bound draw = none).card = size % bound := by
  have parted := Finset.card_filter_add_card_filter_not (s := (Finset.univ : Finset (Fin size)))
    fun draw : Fin size => verdict size bound draw = none
  have shared : (Finset.univ.filter fun draw : Fin size => ¬verdict size bound draw = none).card =
      bound * (size / bound) := by
    have everywhere : ∀ draw ∈ Finset.univ.filter (fun draw : Fin size => ¬verdict size bound draw = none),
        (verdict size bound draw).getD 0 ∈ Finset.range bound := by
      intro draw there
      obtain ⟨outcome, accepted⟩ := Option.ne_none_iff_exists'.mp (Finset.mem_filter.mp there).2
      rw [accepted, Option.getD_some, Finset.mem_range]
      exact verdict_below draw.isLt accepted
    rw [Finset.card_eq_sum_card_fiberwise everywhere, Finset.sum_const_nat (m := size / bound), Finset.card_range]
    intro outcome inRange
    rw [← accepted_card positive nonempty (Finset.mem_range.mp inRange), Finset.filter_filter]
    congr 1
    apply Finset.filter_congr
    intro draw _
    constructor
    · rintro ⟨accepted, same⟩
      obtain ⟨other, found⟩ := Option.ne_none_iff_exists'.mp accepted
      rw [found, Option.getD_some] at same
      rw [found, same]
    intro accepted
    rw [accepted]
    exact ⟨Option.some_ne_none _, rfl⟩
  rw [shared, Finset.card_univ, Fintype.card_fin] at parted
  have whole := Nat.div_add_mod size bound
  omega

variable {Draw Outcome : Type} (judge : Draw → Option Outcome)

def firstAccepted : List Draw → Option (Outcome × List Draw)
  | [] => none
  | draw :: draws =>
    match judge draw with
    | some outcome => some (outcome, draws)
    | none => firstAccepted draws

variable {judge}

theorem first_accepted_mem {draws rest : List Draw} {outcome : Outcome}
    (found : firstAccepted judge draws = some (outcome, rest)) : ∃ draw ∈ draws, judge draw = some outcome := by
  induction draws with
  | nil => cases found
  | cons draw draws ih =>
    unfold firstAccepted at found
    split at found
    next result accepted =>
      obtain ⟨rfl, -⟩ := Prod.mk.inj (Option.some.inj found)
      exact ⟨draw, mem_cons_self, accepted⟩
    obtain ⟨later, there, accepted⟩ := ih found
    exact ⟨later, mem_cons_of_mem draw there, accepted⟩

theorem first_accepted_one {draw : Draw} {outcome : Outcome} :
    firstAccepted judge [draw] = some (outcome, []) ↔ judge draw = some outcome := by
  unfold firstAccepted
  cases judge draw with
  | none => simp [firstAccepted]
  | some other => simp

theorem first_accepted_more {draw next : Draw} {draws : List Draw} {outcome : Outcome} :
    firstAccepted judge (draw :: next :: draws) = some (outcome, []) ↔
      judge draw = none ∧ firstAccepted judge (next :: draws) = some (outcome, []) := by
  rw [firstAccepted]
  cases judge draw with
  | none | some => simp

theorem first_accepted_map {Other : Type} (name : Outcome → Other) (draws : List Draw) :
    firstAccepted (fun draw => (judge draw).map name) draws =
      (firstAccepted judge draws).map fun found => (name found.1, found.2) := by
  induction draws with
  | nil => rfl
  | cons draw draws ih =>
    rw [firstAccepted, firstAccepted]
    cases judge draw with
    | none => exact ih
    | some outcome => rfl

variable [Fintype Draw] [DecidableEq Draw] [DecidableEq Outcome]

variable (judge) in
/-- The sequences of `n` draws whose last is the first to be accepted, with `outcome`. -/
def sequences (n : Nat) (outcome : Outcome) : Finset (Fin n → Draw) :=
  Finset.univ.filter fun draws => firstAccepted judge (List.ofFn draws) = some (outcome, [])

theorem sequences_card (n : Nat) (outcome : Outcome) : (sequences judge (n + 1) outcome).card =
      (Finset.univ.filter fun draw => judge draw = none).card ^ n *
        (Finset.univ.filter fun draw => judge draw = some outcome).card := by
  induction n with
  | zero =>
    rw [pow_zero, one_mul]
    refine Finset.card_equiv (Equiv.funUnique (Fin 1) Draw) fun draws => ?_
    rw [sequences, Finset.mem_filter, Finset.mem_filter, ofFn_succ, ofFn_zero, first_accepted_one]
    exact and_congr (iff_of_true (Finset.mem_univ _) (Finset.mem_univ _)) Iff.rfl
  | succ n ih =>
    rw [pow_succ, Nat.mul_right_comm, mul_comm, ← ih, ← Finset.card_product]
    symm
    refine Finset.card_equiv (Fin.consEquiv fun _ => Draw) fun pair => ?_
    rw [Finset.mem_product, sequences, sequences, Finset.mem_filter, Finset.mem_filter, Finset.mem_filter]
    rw [ofFn_succ, ofFn_succ, ofFn_succ, first_accepted_more]
    simp

end ProvenC.Lib.Rejection
