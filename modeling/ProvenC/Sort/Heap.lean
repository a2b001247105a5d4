import ProvenC.Sort.Insertion

/-!
# Heapsort

Positions are counted from the start of the range; `Child i j` places `j` under `i`.
-/

namespace ProvenC.Sort.Heap

open Sort.Algorithm Sort.Rules Sort.Insertion Lib.Outcome Lib.Arrange

variable {α Mind Next : Type} {cmp : CompareFn α Mind} {le : α → α → Prop}

def Child (i j : Nat) : Prop := j = 2 * i + 1 ∨ j = 2 * i + 2

/-- No entry from `start` on is below one of its children. -/
def Heaped (le : α → α → Prop) (a : Array α) (base start n : Nat) : Prop :=
  ∀ i j x y, start ≤ i → Child i j → j < n → a[base + i]? = some x → a[base + j]? = some y → le y x

/-- A heap but for the edges out of `root`. -/
structure Sinking (le : α → α → Prop) (a : Array α) (base start root n : Nat) : Prop where
  edges : ∀ i j x y, start ≤ i → i ≠ root → Child i j → j < n → a[base + i]? = some x → a[base + j]? = some y → le y x
  grand : ∀ i j x y, start ≤ i → Child i root → Child root j → j < n → a[base + i]? = some x →
    a[base + j]? = some y → le y x

/-- `c` is a child of `root`, and no child of `root` is above it. -/
structure Larger (cmp : CompareFn α Mind) (le : α → α → Prop) (a : Array α) (base root n c : Nat) : Prop where
  child : Child root c
  inside : c < n
  above : Ranks cmp le → ∀ j x y, Child root j → j < n → a[base + c]? = some x → a[base + j]? = some y → le y x

variable (cmp le) in
theorem larger_child {base root n : Nat} {items : Array α} {mind : Mind} {rest : Bool → Sorting α Mind Next}
    {after : Next → Work α Mind → Prop} (parent : 2 * root + 1 < n) (inside : base + n ≤ items.size)
    (further : ∀ right mind', Larger cmp le items base root n (childOf root right) →
      Reaches (rest right) ⟨items, mind'⟩ after) : Reaches (rightAbove cmp base root n >>= rest) ⟨items, mind⟩ after := by
  unfold rightAbove
  split
  next both =>
    simp only [bind_assoc]
    apply compare_then (by omega) (by omega)
    intro r mind' answer
    apply further (decide (r < 0)) mind'
    by_cases below : r < 0
    · rw [decide_eq_true below]
      refine ⟨.inr rfl, both, fun ranks j x y child jIn first second => ?_⟩
      rcases child with rfl | rfl
      · exact (answer_le ranks (answer y x second first)).mp (by omega)
      · cases first.symm.trans second
        exact ranks_refl ranks x
    rw [decide_eq_false below]
    refine ⟨.inl rfl, parent, fun ranks j x y child jIn first second => ?_⟩
    rcases child with rfl | rfl
    · cases first.symm.trans second
      exact ranks_refl ranks x
    · exact (answer_ge ranks (answer x y first second)).mp (by omega)
  rename_i single
  apply further false mind
  refine ⟨.inl rfl, parent, fun ranks j x y child jIn first second => ?_⟩
  rcases child with rfl | rfl
  · cases first.symm.trans second
    exact ranks_refl ranks x
  · omega

theorem heap_of_sinking {a : Array α} {base start root n : Nat} (sinking : Sinking le a base start root n)
    (own : ∀ j x y, Child root j → j < n → a[base + root]? = some x → a[base + j]? = some y → le y x) :
    Heaped le a base start n := by
  intro i j x y iLow child jIn first second
  by_cases same : i = root
  · subst same
    exact own j x y child jIn first second
  · exact sinking.edges i j x y iLow same child jIn first second

theorem sinking_swapped {a : Array α} {base start root n c : Nat} (ranks : Ranks cmp le) (low : start ≤ root)
    (larger : Larger cmp le a base root n c) (inside : base + n ≤ a.size)
    (below : ∀ x y, a[base + root]? = some x → a[base + c]? = some y → le x y)
    (sinking : Sinking le a base start root n) :
    Sinking le (a.swapIfInBounds (base + root) (base + c)) base start c n := by
  have cIn := larger.inside
  have deeper : root < c := by
    rcases larger.child with same | same <;> omega
  have moved (k : Nat) : (a.swapIfInBounds (base + root) (base + c))[base + k]? = a[base + origin root c k]? := by
    rw [swap_origin (by omega) (by omega)]
    congr 1
    unfold origin
    split_ifs <;> omega
  constructor
  · intro i j x y iLow iApart child jIn first second
    rw [moved] at first second
    rcases origin_cases root c i with ⟨rfl, iFrom⟩ | ⟨iSame, _⟩ | ⟨iOff, _, iFrom⟩
    · rw [iFrom] at first
      rcases origin_cases i c j with ⟨rfl, _⟩ | ⟨rfl, jFrom⟩ | ⟨_, _, jFrom⟩
      · rcases child with same | same <;> omega
      · rw [jFrom] at second
        exact below y x second first
      rw [jFrom] at second
      exact larger.above ranks j x y child jIn first second
    · exact absurd iSame iApart
    rw [iFrom] at first
    rcases origin_cases root c j with ⟨rfl, jFrom⟩ | ⟨rfl, _⟩ | ⟨_, _, jFrom⟩
    · rw [jFrom] at second
      exact sinking.grand i c x y iLow child larger.child cIn first second
    · have parent := larger.child
      unfold Child at parent child
      omega
    rw [jFrom] at second
    exact sinking.edges i j x y iLow iOff child jIn first second
  intro i j x y iLow above child jIn first second
  have parent := larger.child
  have isRoot : i = root := by
    unfold Child at parent above
    omega
  subst isRoot
  rw [moved] at first second
  rcases origin_cases i c i with ⟨_, iFrom⟩ | ⟨same, _⟩ | ⟨wrong, _, _⟩
  · rw [iFrom] at first
    have off : j ≠ i ∧ j ≠ c := by
      unfold Child at child
      omega
    rcases origin_cases i c j with ⟨same, _⟩ | ⟨same, _⟩ | ⟨_, _, jFrom⟩
    · exact absurd same off.1
    · exact absurd same off.2
    rw [jFrom] at second
    exact sinking.edges c j x y (by omega) (by omega) child jIn first second
  · omega
  · exact absurd rfl wrong

variable (cmp le) in
theorem sift_down (room root : Nat) {base n : Nat} (items : Array α) (mind : Mind) (fits : n - root ≤ room)
    (inside : base + n ≤ items.size) : Reaches (siftDown cmp base root n) ⟨items, mind⟩ fun _ w =>
      Rearranged base (base + n) items w.items ∧
        ∀ start, start ≤ root → Ranks cmp le → Sinking le items base start root n → Heaped le w.items base start n := by
  induction room generalizing root items mind with
  | zero =>
    rw [siftDown, if_pos (by omega)]
    apply reaches_pure
    refine ⟨rearranged_refl items, fun start _ _ sinking => heap_of_sinking sinking ?_⟩
    intro j x y child jIn
    unfold Child at child
    omega
  | succ room ih =>
    rw [siftDown]
    by_cases leaf : 2 * root + 1 ≥ n
    · rw [if_pos leaf]
      apply reaches_pure
      refine ⟨rearranged_refl items, fun start _ _ sinking => heap_of_sinking sinking ?_⟩
      intro j x y child jIn
      unfold Child at child
      omega
    rw [if_neg leaf]
    apply larger_child cmp le (by omega) inside
    intro right mind' larger
    have cIn := larger.inside
    have deeper := child_of_later root right
    apply compare_then (by omega) (by omega)
    intro r mind'' answer
    split
    next above =>
      apply reaches_pure
      refine ⟨rearranged_refl items, fun start _ ranks sinking => heap_of_sinking sinking ?_⟩
      intro j x y child jIn first second
      obtain ⟨z, there⟩ := element_there items (base + childOf root right) (by omega)
      have upper : le z x := (answer_ge ranks (answer x z first there)).mp above
      exact ranks.trans y z x (larger.above ranks j z y child jIn there second) upper
    rename_i notAbove
    apply swap_then (by omega) (by omega)
    have again := ih (childOf root right) (items.swapIfInBounds (base + root) (base + childOf root right))
      mind'' (by omega) (by rw [Array.size_swapIfInBounds]; exact inside)
    apply reaches_mono again
    rintro _ w ⟨rearranged, heap⟩
    constructor
    · apply rearranged_trans _ rearranged
      exact rearranged_swap (by omega) (by omega) (by omega) (by omega) inside
    intro start low ranks sinking
    apply heap start (by omega) ranks
    apply sinking_swapped ranks low larger inside _ sinking
    intro x y first second
    exact (answer_le ranks (answer x y first second)).mp (by omega)

variable (cmp le) in
theorem heapify_heap {base n : Nat} (i : Nat) (items : Array α) (mind : Mind) (inside : base + n ≤ items.size) :
    Reaches (heapify cmp base n i) ⟨items, mind⟩ fun _ w =>
      Rearranged base (base + n) items w.items ∧
        (Ranks cmp le → Heaped le items base i n → Heaped le w.items base 0 n) := by
  induction i generalizing items mind with
  | zero =>
    apply reaches_pure
    exact ⟨rearranged_refl items, fun _ heap => heap⟩
  | succ i ih =>
    rw [heapify]
    apply reaches_bind (sift_down cmp le (n - i) i items mind (le_refl _) inside)
    rintro _ ⟨items', mind'⟩ ⟨moved, longer⟩
    have sized : items'.size = items.size := rearranged_size moved
    apply reaches_mono (ih items' mind' (by omega))
    rintro _ w ⟨rearranged, heap⟩
    refine ⟨rearranged_trans moved rearranged, fun ranks before => heap ranks (longer i (le_refl i) ranks ?_)⟩
    constructor
    · intro k j x y kLow kApart child jIn first second
      exact before k j x y (by omega) child jIn first second
    intro k j x y kLow above
    unfold Child at above
    omega

theorem heap_front {a : Array α} {base n : Nat} (ranks : Ranks cmp le) (heap : Heaped le a base 0 n)
    (inside : base + n ≤ a.size) (j : Nat) {x y : α} (jIn : j < n) (first : a[base]? = some x)
    (second : a[base + j]? = some y) : le y x := by
  induction j using Nat.strongRecOn generalizing y with
  | ind j ih =>
    by_cases front : j = 0
    · subst front
      cases first.symm.trans second
      exact ranks_refl ranks x
    obtain ⟨z, there⟩ := element_there a (base + (j - 1) / 2) (by omega)
    have child : Child ((j - 1) / 2) j := by
      unfold Child
      omega
    have lower : le y z := heap _ j z y (Nat.zero_le _) child jIn there second
    exact ranks.trans y z x lower (ih ((j - 1) / 2) (by omega) (by omega) there)

/-- What is left of the heap after some extractions: a heap in front of a sorted range, and
nothing of the one above anything of the other. -/
structure Extracting (le : α → α → Prop) (a : Array α) (base last n : Nat) : Prop where
  heap : Heaped le a base 0 last
  sorted : SortedIn le a (base + last) (base + n)
  below : Below le a base (base + last) (base + n)

variable {a : Array α} {base last n : Nat}

theorem front_sinks (lastIn : base + last < a.size) (heap : Heaped le a base 0 (last + 1)) :
    Sinking le (a.swapIfInBounds base (base + last)) base 0 0 last := by
  have moved (k : Nat) (notFront : k ≠ 0) (notLast : k ≠ last) :
      (a.swapIfInBounds base (base + last))[base + k]? = a[base + k]? := by
    rw [swap_origin (by omega) lastIn]
    rcases origin_cases base (base + last) (base + k) with ⟨same, _⟩ | ⟨same, _⟩ | ⟨_, _, same⟩
    · omega
    · omega
    · rw [same]
  constructor
  · intro i j x y iLow iApart child jIn first second
    have order : i < j := by
      unfold Child at child
      omega
    rw [moved i iApart (by omega)] at first
    rw [moved j (by omega) (by omega)] at second
    exact heap i j x y iLow child (by omega) first second
  intro i j x y _ above
  unfold Child at above
  omega

theorem front_extracted (ranks : Ranks cmp le) (lastIn : last < n) (inside : base + n ≤ a.size)
    (extracting : Extracting le a base (last + 1) n) :
    SortedIn le (a.swapIfInBounds base (base + last)) (base + last) (base + n) ∧
      Below le (a.swapIfInBounds base (base + last)) base (base + last) (base + n) := by
  have moved (k : Nat) : (a.swapIfInBounds base (base + last))[k]? = a[origin base (base + last) k]? :=
    swap_origin (by omega) (by omega) k
  have fromFront : (a.swapIfInBounds base (base + last))[base + last]? = a[base]? := by
    rw [moved]
    rcases origin_cases base (base + last) (base + last) with ⟨same, from_⟩ | ⟨_, from_⟩ | ⟨_, wrong, _⟩
    · rw [from_, same]
    · rw [from_]
    · exact absurd rfl wrong
  have kept (k : Nat) (later : base + last < k) : (a.swapIfInBounds base (base + last))[k]? = a[k]? := by
    rw [moved]
    rcases origin_cases base (base + last) k with ⟨same, _⟩ | ⟨same, _⟩ | ⟨_, _, from_⟩
    · omega
    · omega
    · rw [from_]
  constructor
  · intro i j x y iLow before jHigh first second
    rw [kept j (by omega)] at second
    by_cases isLast : i = base + last
    · subst isLast
      rw [fromFront] at first
      exact extracting.below base j x y (le_refl _) (by omega) (by omega) jHigh first second
    rw [kept i (by omega)] at first
    exact extracting.sorted i j x y (by omega) before jHigh first second
  intro i j x y iLow iHigh jLow jHigh first second
  have inHeap : ∃ k, k < last + 1 ∧ a[base + k]? = some x := by
    rw [moved] at first
    rcases origin_cases base (base + last) i with ⟨_, from_⟩ | ⟨same, _⟩ | ⟨_, _, from_⟩
    · rw [from_] at first
      exact ⟨last, by omega, first⟩
    · omega
    rw [from_] at first
    exact ⟨i - base, by omega, by rw [show base + (i - base) = i by omega]; exact first⟩
  obtain ⟨k, kIn, there⟩ := inHeap
  by_cases isLast : j = base + last
  · subst isLast
    rw [fromFront] at second
    exact heap_front ranks extracting.heap (by omega) k kIn second there
  rw [kept j (by omega)] at second
  exact extracting.below (base + k) j x y (by omega) (by omega) (by omega) jHigh there second

variable (cmp le) in
theorem extract_sorts (last : Nat) (items : Array α) (mind : Mind) (lastIn : last < n) (inside : base + n ≤ items.size) :
    Reaches (extract cmp base last) ⟨items, mind⟩ fun _ w =>
      Rearranged base (base + n) items w.items ∧
        (Ranks cmp le → Extracting le items base (last + 1) n → SortedIn le w.items base (base + n)) := by
  induction last generalizing items mind with
  | zero =>
    apply reaches_pure
    refine ⟨rearranged_refl items, fun _ extracting => ?_⟩
    have single : SortedIn le items base (base + 1) := sorted_short (le_refl _)
    exact sorted_join single extracting.sorted extracting.below
  | succ last ih =>
    rw [extract]
    apply swap_then (by omega) (by omega)
    have swapped : Rearranged base (base + n) items (items.swapIfInBounds base (base + (last + 1))) :=
      rearranged_swap (le_refl _) (by omega) (by omega) (by omega) inside
    have room : base + (last + 1) ≤ (items.swapIfInBounds base (base + (last + 1))).size := by
      rw [Array.size_swapIfInBounds]
      omega
    apply reaches_bind (sift_down cmp le (last + 1) 0 _ mind (by omega) room)
    rintro _ ⟨sifted, mind'⟩ ⟨moved, heap⟩
    have sized : sifted.size = items.size := by
      rw [rearranged_size moved, Array.size_swapIfInBounds]
    apply reaches_mono (ih sifted mind' (by omega) (by omega))
    rintro _ w ⟨rearranged, sorted⟩
    have widened : Rearranged base (base + n) (items.swapIfInBounds base (base + (last + 1))) sifted :=
      rearranged_widen (le_refl _) (by omega) moved
    refine ⟨rearranged_trans swapped (rearranged_trans widened rearranged), fun ranks extracting => ?_⟩
    obtain ⟨ordered, below⟩ := front_extracted ranks lastIn inside extracting
    apply sorted ranks
    constructor
    · exact heap 0 (le_refl 0) ranks (front_sinks (by omega) extracting.heap)
    · exact rearranged_sorted_apart moved (.inr (le_refl _)) ordered
    · exact rearranged_below_left moved (le_refl _) (le_refl _) below

theorem heapsort_range {items : Array α} {mind : Mind} (inside : base + n ≤ items.size) :
    Reaches (heapsortRange cmp base n) ⟨items, mind⟩ fun _ w => SortsRange cmp le base (base + n) items w := by
  unfold heapsortRange
  by_cases short : n < 2
  · rw [if_pos short]
    apply reaches_pure
    exact ⟨rearranged_refl items, fun _ => sorted_short (by omega)⟩
  rw [if_neg short]
  apply reaches_bind (heapify_heap cmp le (n / 2) items mind inside)
  rintro _ ⟨heaped, mind'⟩ ⟨moved, heap⟩
  have sized : heaped.size = items.size := rearranged_size moved
  apply reaches_mono (extract_sorts cmp le (n - 1) heaped mind' (n := n) (by omega) (by omega))
  rintro _ w ⟨rearranged, sorted⟩
  refine ⟨rearranged_trans moved rearranged, fun ranks => sorted ranks ?_⟩
  have leaves : Heaped le items base (n / 2) n := by
    intro i j x y iLow child jIn
    unfold Child at child
    omega
  rw [show n - 1 + 1 = n by omega]
  refine ⟨heap ranks leaves, sorted_short (by omega), ?_⟩
  intro i j x y iLow iHigh jLow jHigh
  omega

end ProvenC.Sort.Heap
