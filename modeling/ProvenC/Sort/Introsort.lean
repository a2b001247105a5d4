import ProvenC.Sort.Partition

/-!
# The sort

The sweeps bring the entries equal to the pivot to the middle, where they stay.
-/

namespace ProvenC.Sort.Introsort

open Bytes Sort.Algorithm Sort.Rules Sort.Insertion Sort.Heap
open Sort.Partition Lib.Outcome Lib.Arrange

variable {α Mind : Type} {cmp : CompareFn α Mind} {le : α → α → Prop}

/-- Where the entry at `k` comes from when the runs at `first` and `second` change places. -/
def crossed (first second count k : Nat) : Nat :=
  if first ≤ k ∧ k < first + count then k - first + second
  else if second ≤ k ∧ k < second + count then k - second + first
  else k

theorem crossed_cases (first second count k : Nat) :
    (first ≤ k ∧ k < first + count ∧ crossed first second count k = k - first + second) ∨
      (second ≤ k ∧ k < second + count ∧ crossed first second count k = k - second + first) ∨
      ((k < first ∨ first + count ≤ k) ∧ (k < second ∨ second + count ≤ k) ∧ crossed first second count k = k) := by
  unfold crossed
  split_ifs with inFirst inSecond
  · exact .inl ⟨inFirst.1, inFirst.2, rfl⟩
  · exact .inr (.inl ⟨inSecond.1, inSecond.2, rfl⟩)
  · exact .inr (.inr ⟨by omega, by omega, rfl⟩)

theorem vec_swap (low high count first second : Nat) (items : Array α) (mind : Mind)
    (firstLow : low ≤ first) (firstHigh : first + count ≤ high) (secondLow : low ≤ second)
    (secondHigh : second + count ≤ high) (inside : high ≤ items.size) :
    Reaches (vecSwap first second count) ⟨items, mind⟩ fun _ w =>
      Rearranged low high items w.items ∧
        (first + count ≤ second → ∀ k, w.items[k]? = items[crossed first second count k]?) := by
  induction count generalizing first second items mind with
  | zero =>
    apply reaches_pure
    refine ⟨rearranged_refl items, fun _ k => ?_⟩
    rcases crossed_cases first second 0 k with ⟨_, _, _⟩ | ⟨_, _, _⟩ | ⟨_, _, same⟩
    · omega
    · omega
    · rw [same]
  | succ count ih =>
    rw [vecSwap]
    apply swap_then (by omega) (by omega)
    have swapped : Rearranged low high items (items.swapIfInBounds first second) :=
      rearranged_swap (by omega) (by omega) (by omega) (by omega) inside
    have sized : (items.swapIfInBounds first second).size = items.size := Array.size_swapIfInBounds
    apply reaches_mono (ih (first + 1) (second + 1) (items.swapIfInBounds first second) mind
      (by omega) (by omega) (by omega) (by omega) (by omega))
    rintro _ w ⟨rearranged, source⟩
    refine ⟨rearranged_trans swapped rearranged, fun apart k => ?_⟩
    rw [source (by omega), swap_origin (by omega) (by omega)]
    congr 1
    unfold crossed origin
    split_ifs <;> omega

/-- What a pass leaves: fewer entries left and right of the pivot's equals than were in the
range, and, for an honest comparator, where they are. -/
structure Divided (cmp : CompareFn α Mind) (le : α → α → Prop) (base n : Nat) (items : Array α) (sides : Nat × Nat)
    (w : Work α Mind) : Prop where
  fits : sides.1 + sides.2 ≤ n
  rearranged : Rearranged base (base + n) items w.items
  parted : Ranks cmp le → ∃ p, AllIn (fun x => ¬ le p x) w.items base (base + sides.1) ∧
    AllIn (Same le p) w.items (base + sides.1) (base + (n - sides.2)) ∧
    AllIn (fun x => ¬ le x p) w.items (base + (n - sides.2)) (base + n)

variable {items : Array α}

theorem median3_inside (base n : Nat) {a b c : Nat} {mind : Mind} (aIn : a < n) (bIn : b < n) (cIn : c < n)
    (inside : base + n ≤ items.size) :
    Reaches (median3 cmp base a b c) ⟨items, mind⟩ fun m w => m < n ∧ w.items = items := by
  unfold median3
  apply compare_then (by omega) (by omega)
  intro ab _ _
  apply compare_then (by omega) (by omega)
  intro bc _ _
  apply compare_then (by omega) (by omega)
  intro ac mind' _
  split_ifs <;> exact reaches_pure ⟨by assumption, rfl⟩

variable {base n : Nat}

theorem swept_front {a b : Array α} {p : α} {pa pb pc pd s : Nat} (front : pa ≤ pb)
    (run : s = if pa < pb - pa then pa else pb - pa) (parted : Parted le a base n p pa pb pc pd)
    (source : ∀ k, b[k]? = a[crossed base (base + (pb - s)) s k]?) :
    AllIn (fun x => ¬ le p x) b base (base + (pb - pa)) ∧ AllIn (Same le p) b (base + (pb - pa)) (base + pb) := by
  have short : s ≤ pa ∧ s ≤ pb - pa ∧ (s = pa ∨ s = pb - pa) := by
    rw [run]
    split_ifs <;> omega
  constructor
  · intro k x kLow kHigh there
    rw [source] at there
    rcases crossed_cases base (base + (pb - s)) s k with ⟨_, _, from_⟩ | ⟨_, _, from_⟩ | ⟨_, _, from_⟩
    · rw [from_] at there
      exact parted.less _ x (by omega) (by omega) there
    · omega
    rw [from_] at there
    exact parted.less _ x (by omega) (by omega) there
  intro k x kLow kHigh there
  rw [source] at there
  rcases crossed_cases base (base + (pb - s)) s k with ⟨_, _, from_⟩ | ⟨_, _, from_⟩ | ⟨_, _, from_⟩
  · rw [from_] at there
    exact parted.front _ x (by omega) (by omega) there
  · rw [from_] at there
    exact parted.front _ x (by omega) (by omega) there
  rw [from_] at there
  exact parted.front _ x (by omega) (by omega) there

theorem swept_back {a b : Array α} {p : α} {pb pc pd s : Nat} (back : pc ≤ pd) (last : pd < n) (met : pb = pc + 1)
    (run : s = if n - 1 - pd < pd - pc then n - 1 - pd else pd - pc)
    (more : AllIn (fun x => ¬ le x p) a (base + pc + 1) (base + pd + 1))
    (same : AllIn (Same le p) a (base + pd + 1) (base + n))
    (source : ∀ k, b[k]? = a[crossed (base + pb) (base + (n - s)) s k]?) :
    AllIn (Same le p) b (base + pb) (base + (n - (pd - pc))) ∧
      AllIn (fun x => ¬ le x p) b (base + (n - (pd - pc))) (base + n) := by
  have short : s ≤ n - 1 - pd ∧ s ≤ pd - pc ∧ (s = n - 1 - pd ∨ s = pd - pc) := by
    rw [run]
    split_ifs <;> omega
  constructor
  · intro k x kLow kHigh there
    rw [source] at there
    rcases crossed_cases (base + pb) (base + (n - s)) s k with ⟨_, _, from_⟩ | ⟨_, _, from_⟩ | ⟨_, _, from_⟩
    · rw [from_] at there
      exact same _ x (by omega) (by omega) there
    · omega
    rw [from_] at there
    exact same _ x (by omega) (by omega) there
  intro k x kLow kHigh there
  rw [source] at there
  rcases crossed_cases (base + pb) (base + (n - s)) s k with ⟨_, _, from_⟩ | ⟨_, _, from_⟩ | ⟨_, _, from_⟩
  · rw [from_] at there
    exact more _ x (by omega) (by omega) there
  · rw [from_] at there
    exact more _ x (by omega) (by omega) there
  rw [from_] at there
  exact more _ x (by omega) (by omega) there

variable (cmp le) in
theorem partition_divides {mind : Mind} (several : 2 ≤ n) (inside : base + n ≤ items.size) :
    Reaches (partition cmp base n) ⟨items, mind⟩ (Divided cmp le base n items) := by
  unfold partition
  apply reaches_bind (median3_inside base n (by omega) (by omega) (by omega) inside)
  rintro m ⟨kept, mind'⟩ ⟨mIn, same⟩
  change kept = items at same
  subst same
  apply swap_then (by omega) (by omega)
  have pivoted : Rearranged base (base + n) kept (kept.swapIfInBounds base (base + m)) :=
    rearranged_swap (le_refl _) (by omega) (by omega) (by omega) inside
  have begun : Within n 1 1 (n - 1) (n - 1) :=
    ⟨le_refl 1, le_refl 1, by omega, by omega, le_refl _, by omega⟩
  have room : base + n ≤ (kept.swapIfInBounds base (base + m)).size := by
    rw [Array.size_swapIfInBounds]
    exact inside
  apply reaches_bind ((scans_meet cmp le base n n).1 ⟨1, 1, n - 1, n - 1, le_refl 1⟩ _ mind'
    (by change n - 1 + 1 - 1 ≤ n; omega) begun room)
  rintro ⟨pa, pb, pc, pd, behind⟩ ⟨scanned, mind''⟩ ⟨⟨first, front, met, top, back, last⟩, passed, moved, parted⟩
  dsimp only at first front met top back last passed moved parted ⊢
  have sized : scanned.size = kept.size := by
    rw [rearranged_size moved, Array.size_swapIfInBounds]
  generalize frontRun : (if pa < pb - pa then pa else pb - pa) = s
  generalize backRun : (if n - 1 - pd < pd - pc then n - 1 - pd else pd - pc) = t
  have sShort : s ≤ pa ∧ s ≤ pb - pa := by
    rw [← frontRun]
    split_ifs <;> omega
  have tShort : t ≤ n - 1 - pd ∧ t ≤ pd - pc := by
    rw [← backRun]
    split_ifs <;> omega
  apply reaches_bind (vec_swap base (base + n) s _ _ _ _ (by omega) (by omega) (by omega) (by omega)
    (by omega))
  rintro _ ⟨sweptFront, mind₃⟩ ⟨rearrangedFront, sourceFront⟩
  have sizedFront : sweptFront.size = scanned.size := rearranged_size rearrangedFront
  apply reaches_bind (vec_swap base (base + n) t _ _ _ _ (by omega) (by omega) (by omega) (by omega)
    (by omega))
  rintro _ ⟨sweptBack, mind₄⟩ ⟨rearrangedBack, sourceBack⟩
  apply reaches_pure
  refine ⟨by change pb - pa + (pd - pc) ≤ n; omega, ?_, fun ranks => ?_⟩
  · exact rearranged_trans pivoted (rearranged_trans moved (rearranged_trans rearrangedFront rearrangedBack))
  obtain ⟨p, there⟩ := element_there (kept.swapIfInBounds base (base + m)) base (by omega)
  have whole : Parted le scanned base n p pa pb pc pd := by
    apply parted p ranks trivial
    refine ⟨by omega, there, ?_, ?_, ?_, ?_⟩
    · intro k x kLow kHigh atK
      change k < base + 1 at kHigh
      rw [show k = base by omega] at atK
      cases there.symm.trans atK
      exact ⟨ranks_refl ranks p, ranks_refl ranks p⟩
    · intro k x kLow kHigh
      change base + 1 ≤ k at kLow
      change k < base + 1 at kHigh
      omega
    · intro k x kLow kHigh
      omega
    intro k x kLow kHigh
    change base + (n - 1) + 1 ≤ k at kLow
    omega
  have metOnce : pb = pc + 1 := by
    have tight := whole.tight
    omega
  obtain ⟨less, same⟩ := swept_front front frontRun.symm whole (sourceFront (by omega))
  have moreKept : AllIn (fun x => ¬ le x p) sweptFront (base + pc + 1) (base + pd + 1) := by
    intro k x kLow kHigh atK
    rw [sourceFront (by omega)] at atK
    rcases crossed_cases base (base + (pb - s)) s k with ⟨_, _, _⟩ | ⟨_, _, _⟩ | ⟨_, _, from_⟩
    · omega
    · omega
    rw [from_] at atK
    exact whole.more k x kLow kHigh atK
  have backKept : AllIn (Same le p) sweptFront (base + pd + 1) (base + n) := by
    intro k x kLow kHigh atK
    rw [sourceFront (by omega)] at atK
    rcases crossed_cases base (base + (pb - s)) s k with ⟨_, _, _⟩ | ⟨_, _, _⟩ | ⟨_, _, from_⟩
    · omega
    · omega
    rw [from_] at atK
    exact whole.back k x kLow kHigh atK
  obtain ⟨sameBack, more⟩ := swept_back back last metOnce backRun.symm moreKept backKept (sourceBack (by omega))
  have untouched (k : Nat) (kHigh : k < base + pb) : sweptBack[k]? = sweptFront[k]? := by
    rw [sourceBack (by omega)]
    rcases crossed_cases (base + pb) (base + (n - t)) t k with ⟨_, _, _⟩ | ⟨_, _, _⟩ | ⟨_, _, from_⟩
    · omega
    · omega
    · rw [from_]
  refine ⟨p, ?_, ?_, more⟩
  all_goals intro k x kLow kHigh atK
  · change k < base + (pb - pa) at kHigh
    change sweptBack[k]? = some x at atK
    rw [untouched k (by omega)] at atK
    exact less k x kLow kHigh atK
  by_cases inFront : k < base + pb
  · change sweptBack[k]? = some x at atK
    rw [untouched k inFront] at atK
    exact same k x kLow inFront atK
  · exact sameBack k x (by omega) kHigh atK

theorem divided_sorted {a : Array α} {p : α} {low left right high : Nat} (ranks : Ranks cmp le)
    (sortedLeft : SortedIn le a low left) (sortedRight : SortedIn le a right high)
    (less : AllIn (fun x => ¬ le p x) a low left) (same : AllIn (Same le p) a left right)
    (more : AllIn (fun x => ¬ le x p) a right high) : SortedIn le a low high := by
  have under (x : α) (notAbove : ¬ le p x) : le x p := (ranks.total x p).resolve_right notAbove
  have above (x : α) (notBelow : ¬ le x p) : le p x := (ranks.total x p).resolve_left notBelow
  have sortedSame : SortedIn le a left right := by
    intro i j x y iLow before jHigh first second
    exact ranks.trans x p y (same i x iLow (by omega) first).1 (same j y (by omega) jHigh second).2
  have sortedTail : SortedIn le a left high := by
    apply sorted_join sortedSame sortedRight
    intro i j x y iLow iHigh jLow jHigh first second
    exact ranks.trans x p y (same i x iLow iHigh first).1 (above y (more j y jLow jHigh second))
  apply sorted_join sortedLeft sortedTail
  intro i j x y iLow iHigh jLow jHigh first second
  apply ranks.trans x p y (under x (less i x iLow iHigh first))
  by_cases inSame : j < right
  · exact (same j y jLow inSame second).2
  · exact above y (more j y (by omega) jHigh second)

theorem sides_sorted {size align depthBudget l r : Nat} {w : Work α Mind}
    (ih : ∀ (base n : Nat) (items : Array α) (mind : Mind), base + n ≤ items.size →
      Reaches (introsort cmp size align depthBudget base n) ⟨items, mind⟩ fun _ w =>
        SortsRange cmp le base (base + n) items w)
    (inside : base + n ≤ items.size) (divided : Divided cmp le base n items (l, r) w) :
    Reaches (if l < r then do
        introsort cmp size align depthBudget base l
        introsort cmp size align depthBudget (base + (n - r)) r
      else do
        introsort cmp size align depthBudget (base + (n - r)) r
        introsort cmp size align depthBudget base l) w fun _ w => SortsRange cmp le base (base + n) items w := by
  obtain ⟨fits, moved, parted⟩ := divided
  obtain ⟨divided, mind⟩ := w
  change l + r ≤ n at fits
  change Rearranged base (base + n) items divided at moved
  have sized : divided.size = items.size := rearranged_size moved
  have whole : base + (n - r) + r = base + n := by omega
  split
  · apply reaches_bind (ih base l divided mind (by omega))
    rintro _ ⟨halfway, mind'⟩ ⟨movedLeft, sortedLeft⟩
    have sizedLeft : halfway.size = divided.size := rearranged_size movedLeft
    apply reaches_mono (ih (base + (n - r)) r halfway mind' (by omega))
    rintro _ w ⟨movedRight, sortedRight⟩
    rw [whole] at movedRight sortedRight
    have widenedLeft : Rearranged base (base + n) divided halfway :=
      rearranged_widen (le_refl _) (by omega) movedLeft
    have widenedRight : Rearranged base (base + n) halfway w.items :=
      rearranged_widen (by omega) (le_refl _) movedRight
    refine ⟨rearranged_trans moved (rearranged_trans widenedLeft widenedRight), fun ranks => ?_⟩
    obtain ⟨p, less, same, more⟩ := parted ranks
    apply divided_sorted ranks (rearranged_sorted_apart movedRight (.inl (by omega)) (sortedLeft ranks))
      (sortedRight ranks)
    · exact rearranged_all_apart movedRight (.inl (by omega)) (rearranged_all movedLeft (le_refl _) (le_refl _) less)
    · exact rearranged_all_apart movedRight (.inl (by omega)) (rearranged_all_apart movedLeft (.inr (le_refl _)) same)
    exact rearranged_all movedRight (le_refl _) (le_refl _)
      (rearranged_all_apart movedLeft (.inr (by omega)) more)
  apply reaches_bind (ih (base + (n - r)) r divided mind (by omega))
  rintro _ ⟨halfway, mind'⟩ ⟨movedRight, sortedRight⟩
  have sizedRight : halfway.size = divided.size := rearranged_size movedRight
  rw [whole] at movedRight sortedRight
  apply reaches_mono (ih base l halfway mind' (by omega))
  rintro _ w ⟨movedLeft, sortedLeft⟩
  have widenedRight : Rearranged base (base + n) divided halfway :=
    rearranged_widen (by omega) (le_refl _) movedRight
  have widenedLeft : Rearranged base (base + n) halfway w.items :=
    rearranged_widen (le_refl _) (by omega) movedLeft
  refine ⟨rearranged_trans moved (rearranged_trans widenedRight widenedLeft), fun ranks => ?_⟩
  obtain ⟨p, less, same, more⟩ := parted ranks
  apply divided_sorted ranks (sortedLeft ranks)
    (rearranged_sorted_apart movedLeft (.inr (by omega)) (sortedRight ranks))
  · exact rearranged_all movedLeft (le_refl _) (le_refl _)
      (rearranged_all_apart movedRight (.inl (by omega)) less)
  · exact rearranged_all_apart movedLeft (.inr (le_refl _)) (rearranged_all_apart movedRight (.inl (le_refl _)) same)
  · exact rearranged_all_apart movedLeft (.inr (by omega)) (rearranged_all movedRight (le_refl _) (le_refl _) more)

variable (cmp le) in
theorem introsort_sorts (size align depthBudget base n : Nat) (items : Array α) (mind : Mind)
    (inside : base + n ≤ items.size) : Reaches (introsort cmp size align depthBudget base n) ⟨items, mind⟩ fun _ w =>
      SortsRange cmp le base (base + n) items w := by
  induction depthBudget generalizing base n items mind with
  | zero =>
    rw [introsort]
    split
    · exact heapsort_range inside
    · exact insertion_sort inside
  | succ depthBudget ih =>
    rw [introsort]
    split
    next long =>
      unfold sortInsertionCutoff at long
      apply reaches_bind (partition_divides cmp le (by omega) inside)
      rintro ⟨l, r⟩ w divided
      exact sides_sorted ih inside divided
    · exact insertion_sort inside

theorem no_bytes_equal {elemSize : Nat} (empty : elemSize = 0) (x y : Vector Byte elemSize) : x = y := by
  apply Vector.ext
  intro i inside
  omega

theorem trivially_sorted {elemSize : Nat} {cmp : CompareFn (Vector Byte elemSize) Mind}
    {le : Vector Byte elemSize → Vector Byte elemSize → Prop} (items : Array (Vector Byte elemSize))
    (nothing : items.size < 2 ∨ elemSize = 0) (ranks : Ranks cmp le) : items.toList.Pairwise le := by
  apply sorted_pairwise
  intro i j x y _ before jHigh
  rcases nothing with few | empty
  · omega
  rw [no_bytes_equal empty x y]
  intro _ _
  exact ranks_refl ranks y

/-- The sort ends with a permutation of what it began with, without an access outside the array,
whatever the comparator answers; and with a comparator that ranks the elements, in order. -/
theorem array_sort_sorts {elemSize : Nat} (cmp : CompareFn (Vector Byte elemSize) Mind) (arr : ProvenArray elemSize)
    (mind : Mind) : ∃ sorted mind', provenArraySort cmp arr mind = some (sorted, mind') ∧ sorted.items.Perm arr.items ∧
      sorted.align = arr.align ∧
      ∀ le : Vector Byte elemSize → Vector Byte elemSize → Prop, Ranks cmp le → sorted.items.toList.Pairwise le := by
  unfold provenArraySort
  by_cases nothing : arr.items.size < 2 ∨ elemSize = 0
  · rw [if_pos nothing]
    exact ⟨arr, mind, rfl, Array.Perm.refl _, rfl, fun le ranks => trivially_sorted arr.items nothing ranks⟩
  rw [if_neg nothing]
  have sorts (le : Vector Byte elemSize → Vector Byte elemSize → Prop) :=
    introsort_sorts cmp le elemSize (if arr.align = 0 then 1 else arr.align)
      (depthLimit arr.items.size) 0 arr.items.size arr.items mind (by omega)
  obtain ⟨_, w, ran, rearranged, _⟩ := sorts fun _ _ => True
  refine ⟨{ arr with items := w.items }, w.mind, by dsimp only; rw [ran, Option.map_some], rearranged_perm rearranged, rfl,
    fun le ranks => ?_⟩
  obtain ⟨_, w', ran', _, sorted⟩ := sorts le
  cases ran.symm.trans ran'
  apply sorted_pairwise
  have all := sorted ranks
  rw [← rearranged_size rearranged, zero_add] at all
  exact all

def byteCompare : CompareFn (Vector Byte 1) Unit := fun x y mind => ((x[0].val : Int) - y[0].val, mind)

theorem byte_compare_ranks : Ranks byteCompare fun x y => x[0] ≤ y[0] where
  total x y := Nat.le_total x[0].val y[0].val
  trans x y z first second := le_trans first second
  atMost x y mind := by
    change (x[0].val : Int) - y[0].val ≤ 0 ↔ x[0].val ≤ y[0].val
    omega
  atLeast x y mind := by
    change 0 ≤ (x[0].val : Int) - y[0].val ↔ y[0].val ≤ x[0].val
    omega

theorem array_sort_sorts_bytes :
    ∃ sorted, provenArraySort byteCompare ⟨#[#v[3], #v[1], #v[2], #v[1]], 1⟩ () = some (sorted, ()) ∧
      sorted.items.toList.Pairwise fun x y => x[0] ≤ y[0] := by
  obtain ⟨sorted, _, ran, _, _, ordered⟩ := array_sort_sorts byteCompare ⟨#[#v[3], #v[1], #v[2], #v[1]], 1⟩ ()
  exact ⟨sorted, ran, ordered _ byte_compare_ranks⟩

end ProvenC.Sort.Introsort
