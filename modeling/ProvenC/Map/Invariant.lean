import ProvenC.Lib.Powers
import ProvenC.Map.Table

/-!
# What holds of a map between any two operations

Every key stands where a probe from its home finds it, an empty bucket is left, the counts are
exact, and the sizes are those `proven_map_is_valid` computes again.
-/

namespace ProvenC.Map.Invariant

open Bytes Lib.Probing Lib.Powers Map.Table

variable {World V : Type} {map : ProvenMap World V}

theorem isPow2_iff (x : Nat) : isPow2 x = true ↔ ∃ e, x = 2 ^ e := by
  unfold isPow2
  rw [Bool.and_eq_true, bne_iff_ne, beq_iff_eq]
  exact Nat.ne_zero_and_sub_one_eq_zero_iff_isPowerOfTwo

theorem nextPow2_power {v cap : Nat} (rounded : nextPow2 v = some cap) : ∃ e, cap = 2 ^ e := by
  unfold nextPow2 at rounded
  split at rounded
  · cases rounded
    exact ⟨3, rfl⟩
  split at rounded
  · cases rounded
  rename_i large small
  obtain rfl := Option.some.inj rounded
  have spread := spread_more (spread_more (spread_more (spread_more (spread_more (spread_more
    (spread_start (v - 1)))))))
  exact ⟨_, spread_whole (by omega) (by omega) spread⟩

theorem nextPow2_eight {v cap : Nat} (rounded : nextPow2 v = some cap) : 8 ≤ cap := by
  unfold nextPow2 at rounded
  split at rounded
  · exact le_of_eq (Option.some.inj rounded)
  split at rounded
  · cases rounded
  rename_i large small
  obtain rfl := Option.some.inj rounded
  have grows : ∀ v n : Nat, v ≤ smear v n := fun v n => Nat.left_le_or
  have reach := (grows _ 1).trans ((grows _ 2).trans ((grows _ 4).trans ((grows _ 8).trans
    ((grows _ 16).trans (grows (smear (smear (smear (smear (smear (v - 1) 1) 2) 4) 8) 16) 32)))))
  omega

theorem doubleUp_power {target : Nat} (left : Nat) : ∀ {p cap : Nat}, (∃ e, p = 2 ^ e) →
    doubleUp target left p = some cap → (∃ e, cap = 2 ^ e) ∧ target ≤ cap := by
  induction left with
  | zero =>
    intro p cap power doubled
    cases doubled
  | succ left ih =>
    intro p cap power doubled
    unfold doubleUp at doubled
    split at doubled
    · split at doubled
      · cases doubled
      obtain ⟨e, rfl⟩ := power
      exact ih ⟨e + 1, by rw [Nat.pow_succ, mul_comm]⟩ doubled
    obtain rfl := Option.some.inj doubled
    exact ⟨power, by omega⟩

theorem doubleUp_least {target cap : Nat} (left : Nat) : ∀ {p : Nat}, p < 2 * target → doubleUp target left p = some cap →
    cap < 2 * target := by
  induction left with
  | zero =>
    intro p below doubled
    cases doubled
  | succ left ih =>
    intro p below doubled
    unfold doubleUp at doubled
    split at doubled
    · split at doubled
      · cases doubled
      · exact ih (by omega) doubled
    obtain rfl := Option.some.inj doubled
    exact below

/-- The sizes are those `proven_map_create` computed. -/
structure Geometry (map : ProvenMap World V) : Prop where
  element : map.elemSize ≠ 0
  aligned : isPow2 map.align = true
  offset : memAlignUp headerSize (reqAlign map.align) = map.payloadOffset
  offsetPositive : map.payloadOffset ≠ 0
  reaches : map.payloadOffset + map.elemSize < sizeLimit
  stride : memAlignUp (map.payloadOffset + map.elemSize) (reqAlign map.align) = map.bucketStride
  stridePositive : map.bucketStride ≠ 0

structure Sound (map : ProvenMap World V) : Prop where
  geometry : Geometry map
  slots : map.buckets.length = map.cap
  power : ∃ e, map.cap = 2 ^ e
  probed : Probed map.hash map.buckets
  live : map.len = liveCount map.buckets
  used : map.used = usedCount map.buckets
  spare : map.used < map.cap
  fits : map.cap * map.bucketStride < sizeLimit
  storage : map.storageSize = map.cap * map.bucketStride

variable (sound : Sound map)
include sound

theorem cap_positive : 0 < map.cap := by
  have spare := sound.spare
  omega

theorem len_le_used : map.len ≤ map.used := by
  rw [sound.live, sound.used]
  exact live_le_used

theorem sound_valid : provenMapIsValid map = true := by
  have geometry := sound.geometry
  have lens := len_le_used sound
  have spare := sound.spare
  have fits := sound.fits
  have power := (isPow2_iff map.cap).mpr sound.power
  unfold provenMapIsValid
  simp only [Bool.and_eq_true, Bool.or_eq_true, bne_iff_ne, ne_eq, decide_eq_true_eq, beq_iff_eq]
  refine ⟨⟨⟨⟨⟨⟨⟨⟨geometry.element, geometry.aligned⟩, lens⟩, by omega⟩, Or.inr power⟩, ?_⟩, geometry.reaches⟩, ?_⟩, ?_⟩
  · rw [geometry.offset]
    exact ⟨geometry.offsetPositive, rfl⟩
  · rw [geometry.stride]
    exact ⟨geometry.stridePositive, rfl⟩
  · exact Or.inr ⟨fits, sound.storage⟩

theorem first_spot (key : MapKey) : firstIdx map key = spot map.cap (map.hash key) 0 := by
  obtain ⟨e, isPower⟩ := sound.power
  unfold firstIdx spot
  rw [isPower, Nat.and_two_pow_sub_one_eq_mod, add_zero]

theorem next_spot (home d : Nat) : nextIdx map (spot map.cap home d) = spot map.cap home (d + 1) := by
  obtain ⟨e, isPower⟩ := sound.power
  rw [← spot_next]
  unfold nextIdx
  rw [isPower, Nat.and_two_pow_sub_one_eq_mod]

theorem offset_fits {idx : Nat} (inside : idx < map.cap) : offsetOverflows map idx = false := by
  have below : idx * map.bucketStride ≤ map.cap * map.bucketStride := Nat.mul_le_mul_right _ (le_of_lt inside)
  have fits := sound.fits
  unfold offsetOverflows
  rw [decide_eq_false_iff_not]
  omega

theorem bucket_there {idx : Nat} (inside : idx < map.cap) : map.buckets[idx]? = some (bucketAt map idx) := by
  rw [← sound.slots] at inside
  unfold bucketAt
  rw [List.getD_eq_getElem?_getD, List.getElem?_eq_getElem inside, Option.getD_some]

omit sound

end ProvenC.Map.Invariant
