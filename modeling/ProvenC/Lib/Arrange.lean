import Mathlib

/-!
# Arrays rearranged inside a range

An array that is changed by exchanging entries of one range only keeps its entries, keeps every other
position, and keeps what holds of all entries of a range around it.
-/

namespace ProvenC.Lib.Arrange

variable {α : Type*}

/-- Where the entry at `k` comes from when the entries at `i` and `j` change places. -/
def origin (i j k : Nat) : Nat := if k = i then j else if k = j then i else k

theorem origin_cases (i j k : Nat) :
    (k = i ∧ origin i j k = j) ∨ (k = j ∧ origin i j k = i) ∨ (k ≠ i ∧ k ≠ j ∧ origin i j k = k) := by
  unfold origin
  split
  · exact .inl ⟨by assumption, rfl⟩
  split
  · exact .inr (.inl ⟨by assumption, rfl⟩)
  · exact .inr (.inr ⟨by assumption, by assumption, rfl⟩)

variable {a : Array α}

theorem swap_origin {i j : Nat} (iIn : i < a.size) (jIn : j < a.size) (k : Nat) :
    (a.swapIfInBounds i j)[k]? = a[origin i j k]? := by
  unfold origin Array.swapIfInBounds
  rw [dif_pos iIn, dif_pos jIn, Array.getElem?_swap]
  split
  · split
    · rw [Array.getElem?_eq_getElem jIn]
      congr 1
      simp_all
    · rw [if_pos (by omega), Array.getElem?_eq_getElem iIn]
  split
  · rw [if_pos (by omega), Array.getElem?_eq_getElem jIn]
  · rw [if_neg (by omega), if_neg (by omega)]

def Exchanged (low high : Nat) (a b : Array α) : Prop :=
  ∃ i j, low ≤ i ∧ i < high ∧ low ≤ j ∧ j < high ∧ i < a.size ∧ j < a.size ∧ b = a.swapIfInBounds i j

def Rearranged (low high : Nat) : Array α → Array α → Prop :=
  Relation.ReflTransGen (Exchanged low high)

variable {high : Nat}

theorem rearranged_refl {low : Nat} (a : Array α) : Rearranged low high a a :=
  Relation.ReflTransGen.refl

variable {b : Array α}

theorem rearranged_trans {low : Nat} {c : Array α} (first : Rearranged low high a b)
    (second : Rearranged low high b c) : Rearranged low high a c :=
  Relation.ReflTransGen.trans first second

theorem rearranged_swap {low i j : Nat} (iLow : low ≤ i) (iHigh : i < high) (jLow : low ≤ j)
    (jHigh : j < high) (inside : high ≤ a.size) : Rearranged low high a (a.swapIfInBounds i j) :=
  Relation.ReflTransGen.single
    ⟨i, j, iLow, iHigh, jLow, jHigh, by omega, by omega, rfl⟩

variable {low' high' : Nat}

theorem rearranged_widen {low : Nat} (below : low' ≤ low) (above : high ≤ high')
    (rearranged : Rearranged low high a b) : Rearranged low' high' a b := by
  induction rearranged with
  | refl => exact rearranged_refl a
  | tail _ step ih =>
    obtain ⟨i, j, iLow, iHigh, jLow, jHigh, iIn, jIn, same⟩ := step
    exact Relation.ReflTransGen.tail ih
      ⟨i, j, by omega, by omega, by omega, by omega, iIn, jIn, same⟩

theorem rearranged_size {low : Nat} (rearranged : Rearranged low high a b) : b.size = a.size := by
  induction rearranged with
  | refl => rfl
  | tail _ step ih =>
    obtain ⟨i, j, _, _, _, _, _, _, rfl⟩ := step
    rw [Array.size_swapIfInBounds, ih]

theorem rearranged_perm {low : Nat} (rearranged : Rearranged low high a b) : b.Perm a := by
  induction rearranged with
  | refl => exact Array.Perm.refl a
  | @tail b _ _ step ih =>
    obtain ⟨i, j, _, _, _, _, iIn, jIn, rfl⟩ := step
    rw [Array.swapIfInBounds, dif_pos iIn, dif_pos jIn]
    exact (Array.swap_perm iIn jIn).trans ih

theorem rearranged_outside {low : Nat} (rearranged : Rearranged low high a b) {k : Nat}
    (outside : k < low ∨ high ≤ k) : b[k]? = a[k]? := by
  induction rearranged with
  | refl => rfl
  | tail _ step ih =>
    obtain ⟨i, j, iLow, iHigh, jLow, jHigh, iIn, jIn, rfl⟩ := step
    rw [swap_origin iIn jIn, ← ih]
    rcases origin_cases i j k with ⟨same, _⟩ | ⟨same, _⟩ | ⟨_, _, same⟩
    · omega
    · omega
    · rw [same]

def AllIn (P : α → Prop) (a : Array α) (low high : Nat) : Prop :=
  ∀ i x, low ≤ i → i < high → a[i]? = some x → P x

theorem rearranged_all {P : α → Prop} {low : Nat}
    (rearranged : Rearranged low high a b) (below : low' ≤ low) (above : high ≤ high')
    (all : AllIn P a low' high') : AllIn P b low' high' := by
  induction rearranged with
  | refl => exact all
  | tail _ step ih =>
    obtain ⟨i, j, iLow, iHigh, jLow, jHigh, iIn, jIn, rfl⟩ := step
    intro k x kLow kHigh there
    rw [swap_origin iIn jIn] at there
    apply ih _ x _ _ there
    all_goals rcases origin_cases i j k with ⟨_, same⟩ | ⟨_, same⟩ | ⟨_, _, same⟩ <;> omega

theorem rearranged_all_apart {P : α → Prop} {low : Nat}
    (rearranged : Rearranged low high a b) (apart : high' ≤ low ∨ high ≤ low')
    (all : AllIn P a low' high') : AllIn P b low' high' := by
  intro k x kLow kHigh there
  rw [rearranged_outside rearranged (by omega)] at there
  exact all k x kLow kHigh there

variable (le : α → α → Prop)

def SortedIn (a : Array α) (low high : Nat) : Prop :=
  ∀ i j x y, low ≤ i → i < j → j < high → a[i]? = some x → a[j]? = some y → le x y

variable {le}

theorem sorted_short {low : Nat} (short : high ≤ low + 1) : SortedIn le a low high := by
  intro i j x y iLow before jHigh
  omega

theorem rearranged_sorted_apart {low : Nat} (rearranged : Rearranged low high a b) (apart : high' ≤ low ∨ high ≤ low')
    (sorted : SortedIn le a low' high') : SortedIn le b low' high' := by
  intro i j x y iLow before jHigh first second
  rw [rearranged_outside rearranged (by omega)] at first second
  exact sorted i j x y iLow before jHigh first second

variable (le) in
/-- Nothing between `low` and `middle` is above anything between `middle` and `high`. -/
def Below (a : Array α) (low middle high : Nat) : Prop :=
  ∀ i j x y, low ≤ i → i < middle → middle ≤ j → j < high → a[i]? = some x → a[j]? = some y → le x y

theorem rearranged_below_left {low middle : Nat}
    (rearranged : Rearranged low high a b) (under : low' ≤ low) (above : high ≤ middle)
    (below : Below le a low' middle high') : Below le b low' middle high' := by
  intro i j x y iLow iHigh jLow jHigh first second
  rw [rearranged_outside rearranged (by omega)] at second
  have all : AllIn (fun x => le x y) a low' middle := by
    intro k z kLow kHigh there
    exact below k j z y kLow kHigh jLow jHigh there second
  exact rearranged_all rearranged under above all i x iLow iHigh first

theorem sorted_join {low middle : Nat} (left : SortedIn le a low middle)
    (right : SortedIn le a middle high) (below : Below le a low middle high) : SortedIn le a low high := by
  intro i j x y iLow before jHigh first second
  by_cases iLeft : i < middle
  · by_cases jLeft : j < middle
    · exact left i j x y iLow before jLeft first second
    · exact below i j x y iLow iLeft (by omega) jHigh first second
  · exact right i j x y (by omega) before jHigh first second

theorem sorted_pairwise (sorted : SortedIn le a 0 a.size) : a.toList.Pairwise le := by
  rw [List.pairwise_iff_getElem]
  intro i j iIn jIn before
  rw [Array.length_toList] at iIn jIn
  exact sorted i j _ _ (Nat.zero_le i) before jIn (by simp [iIn]) (by simp [jIn])

end ProvenC.Lib.Arrange
