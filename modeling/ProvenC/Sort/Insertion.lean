import ProvenC.Sort.Rules

/-!
# Insertion sort

Both paths move an element down past the larger ones before it.
-/

namespace ProvenC.Sort.Insertion

open Sort.Algorithm Sort.Rules Lib.Outcome Lib.Arrange

variable {α Mind : Type} {cmp : CompareFn α Mind} {le : α → α → Prop}

/-- The range is sorted but for the entry at `p`, which is not above any entry after it. -/
structure Inserting (le : α → α → Prop) (a : Array α) (low high p : Nat) : Prop where
  others : ∀ i j x y, low ≤ i → i < j → j < high → i ≠ p → j ≠ p → a[i]? = some x → a[j]? = some y → le x y
  after : ∀ j x y, p < j → j < high → a[p]? = some x → a[j]? = some y → le x y

variable {a : Array α} {p : Nat}

theorem inserting_last {low : Nat} (sorted : SortedIn le a low p) : Inserting le a low (p + 1) p where
  others i j x y iLow before jHigh _ jApart first second :=
    sorted i j x y iLow before (by omega) first second
  after j x y before jHigh := by omega

theorem inserting_first {low high : Nat} (inserting : Inserting le a low high low) : SortedIn le a low high := by
  intro i j x y iLow before jHigh first second
  by_cases same : i = low
  · subst same
    exact inserting.after j x y before jHigh first second
  · exact inserting.others i j x y iLow before jHigh same (by omega) first second

theorem inserting_done {low high : Nat} (trans : ∀ x y z, le x y → le y z → le x z)
    (inserting : Inserting le a low high (p + 1))
    (above : ∀ x y, a[p]? = some x → a[p + 1]? = some y → le x y) : SortedIn le a low high := by
  intro i j x y iLow before jHigh first second
  by_cases iSame : i = p + 1
  · subst iSame
    exact inserting.after j x y before jHigh first second
  by_cases jSame : j = p + 1
  · subst jSame
    have inside : p + 1 < a.size := (Array.getElem?_eq_some_iff.mp second).1
    obtain ⟨z, there⟩ : ∃ z, a[p]? = some z := element_there a p (by omega)
    have last : le z y := above z y there second
    by_cases iPrev : i = p
    · subst iPrev
      rw [first] at there
      cases there
      exact last
    have far : le x z := inserting.others i p x z iLow (by omega) (by omega) iSame (by omega) first there
    exact trans x z y far last
  · exact inserting.others i j x y iLow before jHigh iSame jSame first second

theorem inserting_moved {low high : Nat} (inserting : Inserting le a low high (p + 1))
    (inside : p + 1 < a.size) (pLow : low ≤ p) (below : ∀ x y, a[p]? = some x → a[p + 1]? = some y → le y x) :
    Inserting le (a.swapIfInBounds (p + 1) p) low high p where
  others := by
    intro i j x y iLow before jHigh iApart jApart first second
    rw [swap_origin inside (by omega)] at first second
    rcases origin_cases (p + 1) p i with ⟨iIs, iFrom⟩ | ⟨iIs, _⟩ | ⟨iOff, _, iFrom⟩
    · rw [iFrom] at first
      rcases origin_cases (p + 1) p j with ⟨jIs, _⟩ | ⟨jIs, _⟩ | ⟨jOff, _, jFrom⟩
      · omega
      · omega
      rw [jFrom] at second
      exact inserting.others p j x y pLow (by omega) jHigh (by omega) jOff first second
    · omega
    rw [iFrom] at first
    rcases origin_cases (p + 1) p j with ⟨jIs, jFrom⟩ | ⟨jIs, _⟩ | ⟨jOff, _, jFrom⟩
    · rw [jFrom] at second
      exact inserting.others i p x y iLow (by omega) (by omega) iOff (by omega) first second
    · omega
    rw [jFrom] at second
    exact inserting.others i j x y iLow before jHigh iOff jOff first second
  after := by
    intro j x y before jHigh first second
    rw [swap_origin inside (by omega)] at first second
    rcases origin_cases (p + 1) p p with ⟨wrong, _⟩ | ⟨_, pFrom⟩ | ⟨_, wrong, _⟩
    · omega
    · rw [pFrom] at first
      rcases origin_cases (p + 1) p j with ⟨_, jFrom⟩ | ⟨jIs, _⟩ | ⟨jOff, _, jFrom⟩
      · rw [jFrom] at second
        exact below y x second first
      · omega
      rw [jFrom] at second
      exact inserting.after j x y (by omega) jHigh first second
    · exact absurd rfl wrong

def Inserted (cmp : CompareFn α Mind) (le : α → α → Prop) (low high : Nat) (items : Array α) (w : Work α Mind) : Prop :=
  Rearranged low high items w.items ∧ (Ranks cmp le → SortedIn le items low (high - 1) → SortedIn le w.items low high)

variable {base : Nat} {items : Array α} {mind : Mind}

variable (cmp le) in
theorem insert_swapping (j : Nat) {n : Nat} (place : j < n) (inside : base + n ≤ items.size) :
    Reaches (insertSwapping cmp base j) ⟨items, mind⟩ fun _ w =>
      Rearranged base (base + n) items w.items ∧
        (Ranks cmp le → Inserting le items base (base + n) (base + j) → SortedIn le w.items base (base + n)) := by
  induction j generalizing items mind with
  | zero =>
    apply reaches_pure
    exact ⟨rearranged_refl items, fun _ inserting => inserting_first inserting⟩
  | succ j ih =>
    rw [insertSwapping]
    apply compare_then (by omega) (by omega)
    intro r mind' answer
    split
    next above =>
      apply reaches_pure
      refine ⟨rearranged_refl items, fun ranks inserting => ?_⟩
      apply inserting_done (p := base + j) ranks.trans inserting
      intro x y first second
      exact (answer_ge ranks (answer y x second first)).mp above
    rename_i notAbove
    apply swap_then (by omega) (by omega)
    have moved : Rearranged base (base + n) items (items.swapIfInBounds (base + (j + 1)) (base + j)) :=
      rearranged_swap (by omega) (by omega) (by omega) (by omega) inside
    apply reaches_mono (ih (by omega) (by rw [Array.size_swapIfInBounds]; exact inside))
    rintro _ w ⟨rearranged, sorted⟩
    refine ⟨rearranged_trans moved rearranged, fun ranks inserting => sorted ranks ?_⟩
    apply inserting_moved (p := base + j) inserting (by omega) (by omega)
    intro x y first second
    exact (answer_le ranks (answer y x second first)).mp (by omega)

theorem round_swapping {i : Nat} (inside : base + (i + 1) ≤ items.size) :
    Reaches (insertSwapping cmp base i) ⟨items, mind⟩ fun _ w =>
      Inserted cmp le base (base + (i + 1)) items w := by
  apply reaches_mono (insert_swapping cmp le i (Nat.lt_succ_self i) inside)
  rintro _ w ⟨rearranged, sorted⟩
  exact ⟨rearranged, fun ranks before => sorted ranks (inserting_last before)⟩

theorem shift_exchanges (tmp : α) {x : α} (inside : p + 1 < items.size) (there : items[p]? = some x) :
    (items.setIfInBounds (p + 1) x).setIfInBounds p tmp = (items.setIfInBounds (p + 1) tmp).swapIfInBounds (p + 1) p := by
  have sized : (items.setIfInBounds (p + 1) tmp).size = items.size := Array.size_setIfInBounds
  apply Array.ext_getElem?
  intro k
  rw [swap_origin (by omega) (by omega)]
  simp only [Array.getElem?_setIfInBounds, Array.size_setIfInBounds]
  rcases origin_cases (p + 1) p k with ⟨rfl, same⟩ | ⟨rfl, same⟩ | ⟨notI, notJ, same⟩
  · rw [same, if_neg (by omega), if_pos rfl, if_pos inside, if_neg (by omega), there]
  · rw [same, if_pos rfl, if_pos (by omega), if_pos rfl, if_pos inside]
  · rw [same, if_neg (Ne.symm notJ), if_neg (Ne.symm notI), if_neg (Ne.symm notI)]

theorem set_same {x : α} (there : items[p]? = some x) : items.setIfInBounds p x = items := by
  apply Array.ext_getElem?
  intro k
  rw [Array.getElem?_setIfInBounds]
  split
  next same =>
    subst same
    rw [if_pos (Array.getElem?_eq_some_iff.mp there).1, there]
  · rfl

variable (cmp le) in
theorem shift_down {tmp : α} (j : Nat) {n : Nat} (items : Array α) (mind : Mind) (place : j < n)
    (inside : base + n ≤ items.size) : Reaches (shiftDown cmp base tmp j) ⟨items, mind⟩ fun k w =>
      k ≤ j ∧ w.items.size = items.size ∧
        Rearranged base (base + n) (items.setIfInBounds (base + j) tmp) (w.items.setIfInBounds (base + k) tmp) ∧
        (Ranks cmp le → Inserting le (items.setIfInBounds (base + j) tmp) base (base + n) (base + j) →
          SortedIn le (w.items.setIfInBounds (base + k) tmp) base (base + n)) := by
  induction j generalizing items mind with
  | zero =>
    apply reaches_pure
    exact ⟨le_refl 0, rfl, rearranged_refl _, fun _ inserting => inserting_first inserting⟩
  | succ j ih =>
    rw [shiftDown]
    apply elem_then (by omega)
    intro prev there
    apply ask_then
    intro r mind' answer
    have sized : (items.setIfInBounds (base + (j + 1)) tmp).size = items.size := Array.size_setIfInBounds
    have atPrev : (items.setIfInBounds (base + (j + 1)) tmp)[base + j]? = some prev := by
      rw [Array.getElem?_setIfInBounds, if_neg (by omega), there]
    have atTmp : (items.setIfInBounds (base + (j + 1)) tmp)[base + j + 1]? = some tmp := by
      rw [Array.getElem?_setIfInBounds, if_pos (by omega), if_pos (by omega)]
    split
    next above =>
      apply write_then (by omega)
      have exchanged := shift_exchanges tmp (by omega : base + j + 1 < items.size) there
      have again := ih (items.setIfInBounds (base + (j + 1)) prev) mind' (by omega)
        (by rw [Array.size_setIfInBounds]; exact inside)
      rw [show base + (j + 1) = base + j + 1 from rfl, exchanged] at again
      apply reaches_mono again
      rintro k w ⟨below, size, rearranged, sorted⟩
      refine ⟨by omega, by rw [size, Array.size_setIfInBounds], ?_, fun ranks inserting => sorted ranks ?_⟩
      · apply rearranged_trans _ rearranged
        exact rearranged_swap (by omega) (by omega) (by omega) (by omega) (by rw [Array.size_setIfInBounds]; exact inside)
      apply inserting_moved (p := base + j) inserting (by rw [Array.size_setIfInBounds]; omega) (by omega)
      intro x y first second
      rw [atPrev] at first
      rw [atTmp] at second
      cases first
      cases second
      exact (answer_ge ranks answer).mp (by omega)
    rename_i notAbove
    apply reaches_pure
    refine ⟨le_refl _, rfl, rearranged_refl _, fun ranks inserting => ?_⟩
    apply inserting_done (p := base + j) ranks.trans inserting
    intro x y first second
    rw [atPrev] at first
    rw [atTmp] at second
    cases first
    cases second
    exact (answer_le ranks answer).mp (by omega)

theorem round_shifting {i : Nat} (later : 1 ≤ i) (inside : base + (i + 1) ≤ items.size) :
    Reaches (insertShifting cmp base i) ⟨items, mind⟩ fun _ w =>
      Inserted cmp le base (base + (i + 1)) items w := by
  unfold insertShifting
  apply compare_then (by omega) (by omega)
  intro r mind' answer
  split
  next above =>
    apply reaches_pure
    refine ⟨rearranged_refl items, fun ranks before => ?_⟩
    have last : Inserting le items base (base + (i + 1)) (base + (i - 1) + 1) := by
      rw [show base + (i - 1) + 1 = base + i by omega]
      exact inserting_last before
    apply inserting_done ranks.trans last
    intro x y first second
    rw [show base + (i - 1) + 1 = base + i by omega] at second
    exact (answer_ge ranks (answer y x second first)).mp above
  apply elem_then (by omega)
  intro tmp there
  apply reaches_bind (shift_down cmp le i items mind' (Nat.lt_succ_self i) inside)
  rintro k ⟨shifted, mind''⟩ ⟨below, size, rearranged, sorted⟩
  rw [set_same there] at rearranged sorted
  rw [← bind_pure (memCopy (base + k) tmp)]
  apply write_then (by change base + k < shifted.size; change shifted.size = items.size at size; omega)
  apply reaches_pure
  exact ⟨rearranged, fun ranks before => sorted ranks (inserting_last before)⟩

variable (cmp le) in
theorem insert_each (base : Nat) {insert : Nat → Sorting α Mind Unit}
    (round : ∀ (i : Nat) (items : Array α) (mind : Mind), 1 ≤ i → base + (i + 1) ≤ items.size →
      Reaches (insert i) ⟨items, mind⟩ fun _ w => Inserted cmp le base (base + (i + 1)) items w)
    (left i : Nat) (items : Array α) (mind : Mind) (later : 1 ≤ i) (inside : base + (i + left) ≤ items.size) :
    Reaches (insertEach insert left i) ⟨items, mind⟩ fun _ w =>
      Rearranged base (base + (i + left)) items w.items ∧
        (Ranks cmp le → SortedIn le items base (base + i) → SortedIn le w.items base (base + (i + left))) := by
  induction left generalizing i items mind with
  | zero =>
    apply reaches_pure
    exact ⟨rearranged_refl items, fun _ sorted => sorted⟩
  | succ left ih =>
    rw [insertEach]
    apply reaches_bind (round i items mind later (by omega))
    rintro _ ⟨items', mind'⟩ ⟨moved, longer⟩
    have sized : items'.size = items.size := rearranged_size moved
    have again := ih (i + 1) items' mind' (by omega) (by omega)
    rw [show i + 1 + left = i + (left + 1) by omega] at again
    apply reaches_mono again
    rintro _ w ⟨rearranged, sorted⟩
    refine ⟨rearranged_trans (rearranged_widen (le_refl _) (by omega) moved) rearranged, fun ranks before => ?_⟩
    exact sorted ranks (longer ranks before)

def SortsRange (cmp : CompareFn α Mind) (le : α → α → Prop) (low high : Nat) (items : Array α) (w : Work α Mind) : Prop :=
  Rearranged low high items w.items ∧ (Ranks cmp le → SortedIn le w.items low high)

theorem insertion_sort {size align n : Nat} (inside : base + n ≤ items.size) :
    Reaches (insertionSort cmp size align base n) ⟨items, mind⟩ fun _ w =>
      SortsRange cmp le base (base + n) items w := by
  unfold insertionSort
  by_cases short : n < 2
  · rw [if_pos short]
    apply reaches_pure
    exact ⟨rearranged_refl items, fun _ => sorted_short (by omega)⟩
  rw [if_neg short]
  have whole : 1 + (n - 1) = n := by omega
  have single : Ranks cmp le → SortedIn le items base (base + 1) := fun _ => sorted_short (le_refl _)
  split
  · have all := insert_each cmp le base (fun i items mind later inside => round_shifting later inside)
      (n - 1) 1 items mind (le_refl 1) (by omega)
    rw [whole] at all
    apply reaches_mono all
    rintro _ w ⟨rearranged, sorted⟩
    exact ⟨rearranged, fun ranks => sorted ranks (single ranks)⟩
  have all := insert_each cmp le base (fun i items mind _ inside => round_swapping inside)
    (n - 1) 1 items mind (le_refl 1) (by omega)
  rw [whole] at all
  apply reaches_mono all
  rintro _ w ⟨rearranged, sorted⟩
  exact ⟨rearranged, fun ranks => sorted ranks (single ranks)⟩

end ProvenC.Sort.Insertion
