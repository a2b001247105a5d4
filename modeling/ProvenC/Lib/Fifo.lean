import Mathlib
/-!
# A queue with a weight bound

A queue whose entries weigh something and whose total must stay under a limit evicts its oldest entries
until it does.
-/

namespace ProvenC.Lib.Fifo

open List

variable {Entry : Type*} (weight : Entry → Nat)

def total (queue : List Entry) : Nat := (queue.map weight).sum

@[simp] theorem total_nil : total weight [] = 0 := rfl

@[simp] theorem total_cons (entry : Entry) (rest : List Entry) :
    total weight (entry :: rest) = weight entry + total weight rest := by
  simp [total]

@[simp] theorem total_append (left right : List Entry) :
    total weight (left ++ right) = total weight left + total weight right := by
  simp [total]

/-- Evict the oldest entry for as long as the queue weighs more than `limit`. -/
def evictTo (limit : Nat) : List Entry → List Entry
  | [] => []
  | entry :: rest =>
    if limit < total weight (entry :: rest) then evictTo limit rest else entry :: rest

theorem evict_to_suffix (limit : Nat) (queue : List Entry) : evictTo weight limit queue <:+ queue := by
  induction queue with
  | nil => exact suffix_refl _
  | cons entry rest ih =>
    rw [evictTo]
    split
    · exact ih.trans (suffix_cons entry rest)
    · exact suffix_refl _

theorem total_evict_to (limit : Nat) (queue : List Entry) : total weight (evictTo weight limit queue) ≤ limit := by
  induction queue with
  | nil => exact Nat.zero_le _
  | cons entry rest ih =>
    rw [evictTo]
    split
    · exact ih
    · omega

variable {shorter longer : List Entry}

theorem total_suffix_le (suffix : shorter <:+ longer) : total weight shorter ≤ total weight longer := by
  obtain ⟨front, rfl⟩ := suffix
  rw [total_append]
  omega

theorem suffix_evict_to {limit : Nat} {kept queue : List Entry} (suffix : kept <:+ queue)
    (fits : total weight kept ≤ limit) : kept <:+ evictTo weight limit queue := by
  induction queue with
  | nil => simpa [evictTo] using suffix
  | cons entry rest ih =>
    rw [evictTo]
    split
    next exceeds =>
      rcases suffix_cons_iff.mp suffix with whole | inner
      · subst whole
        omega
      · exact ih inner
    · exact suffix

theorem evict_to_mono {less more : Nat} (limits : less ≤ more) (suffix : shorter <:+ longer) :
    evictTo weight less shorter <:+ evictTo weight more longer :=
  suffix_evict_to weight ((evict_to_suffix weight less shorter).trans suffix)
    ((total_evict_to weight less shorter).trans limits)

theorem suffix_reverse_get (suffix : shorter <:+ longer) {index : Nat} (inside : index < shorter.length) :
    longer.reverse[index]? = shorter.reverse[index]? := by
  obtain ⟨front, rfl⟩ := suffix
  rw [reverse_append, List.getElem?_append_left (by simpa using inside)]

end ProvenC.Lib.Fifo
