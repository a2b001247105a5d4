import ProvenC.Sort.Heap

/-!
# The three-way partition

The pivot stands at the start of the range.
-/

namespace ProvenC.Sort.Partition

open Sort.Algorithm Sort.Rules Sort.Insertion Lib.Outcome Lib.Arrange

variable {α Mind Next : Type} {cmp : CompareFn α Mind} {le : α → α → Prop}

structure Within (n pa pb pc pd : Nat) : Prop where
  first : 1 ≤ pa
  front : pa ≤ pb
  met : pb ≤ pc + 2
  up : pb ≤ n
  back : pc ≤ pd
  last : pd < n

def Same (le : α → α → Prop) (p x : α) : Prop := le x p ∧ le p x

/-- `[ == | < | unexamined | > | == ]` around the pivot `p`. -/
structure Parted (le : α → α → Prop) (a : Array α) (base n : Nat) (p : α) (pa pb pc pd : Nat) : Prop where
  tight : pb ≤ pc + 1
  pivot : a[base]? = some p
  front : AllIn (Same le p) a base (base + pa)
  less : AllIn (fun x => ¬ le p x) a (base + pa) (base + pb)
  more : AllIn (fun x => ¬ le x p) a (base + pc + 1) (base + pd + 1)
  back : AllIn (Same le p) a (base + pd + 1) (base + n)

def Stopped (le : α → α → Prop) (a : Array α) (base : Nat) (p : α) (pb pc : Nat) : Prop :=
  pb ≤ pc → ∀ x, a[base + pb]? = some x → ¬ le x p

theorem all_swapped {P : α → Prop} {a : Array α} {i j low high : Nat} (iIn : i < a.size) (jIn : j < a.size)
    (source : ∀ k x, low ≤ k → k < high → a[origin i j k]? = some x → P x) : AllIn P (a.swapIfInBounds i j) low high := by
  intro k x kLow kHigh there
  rw [swap_origin iIn jIn] at there
  exact source k x kLow kHigh there

theorem all_swapped_apart {P : α → Prop} {a : Array α} {i j low high : Nat} (iIn : i < a.size) (jIn : j < a.size)
    (iOut : i < low ∨ high ≤ i) (jOut : j < low ∨ high ≤ j) (all : AllIn P a low high) :
    AllIn P (a.swapIfInBounds i j) low high := by
  refine all_swapped iIn jIn fun k x kLow kHigh there => ?_
  rcases origin_cases i j k with ⟨same, _⟩ | ⟨same, _⟩ | ⟨_, _, source⟩
  · omega
  · omega
  rw [source] at there
  exact all k x kLow kHigh there

theorem pivot_kept {a : Array α} {i j base : Nat} (iIn : i < a.size) (jIn : j < a.size) (iPast : base < i)
    (jPast : base < j) : (a.swapIfInBounds i j)[base]? = a[base]? := by
  rw [swap_origin iIn jIn]
  rcases origin_cases i j base with ⟨same, _⟩ | ⟨same, _⟩ | ⟨_, _, source⟩
  · omega
  · omega
  · rw [source]

section Steps

variable {a : Array α} {base n : Nat} {p : α} {pa pb pc pd : Nat}

theorem parted_less (parted : Parted le a base n p pa pb pc pd) (more : pb ≤ pc)
    (less : ∀ x, a[base + pb]? = some x → ¬ le p x) : Parted le a base n p pa (pb + 1) pc pd := by
  refine ⟨Nat.succ_le_succ more, parted.pivot, parted.front, ?_, parted.more, parted.back⟩
  intro k x kLow kHigh there
  by_cases own : k = base + pb
  · subst own
    exact less x there
  · exact parted.less k x kLow (by omega) there

theorem parted_front (within : Within n pa pb pc pd) (inside : base + n ≤ a.size) (parted : Parted le a base n p pa pb pc pd)
    (more : pb ≤ pc) (same : ∀ x, a[base + pb]? = some x → Same le p x) :
    Parted le (a.swapIfInBounds (base + pa) (base + pb)) base n p (pa + 1) (pb + 1) pc pd := by
  obtain ⟨first, front, met, up, back, last⟩ := within
  have paIn : base + pa < a.size := by omega
  have pbIn : base + pb < a.size := by omega
  constructor
  · exact Nat.succ_le_succ more
  · rw [pivot_kept paIn pbIn (by omega) (by omega)]
    exact parted.pivot
  · refine all_swapped paIn pbIn fun k x kLow kHigh there => ?_
    rcases origin_cases (base + pa) (base + pb) k with ⟨_, source⟩ | ⟨own, source⟩ | ⟨_, _, source⟩
    all_goals rw [source] at there
    · exact same x there
    · rw [show base + pa = base + pb by omega] at there
      exact same x there
    · exact parted.front k x kLow (by omega) there
  · refine all_swapped paIn pbIn fun k x kLow kHigh there => ?_
    rcases origin_cases (base + pa) (base + pb) k with ⟨own, _⟩ | ⟨own, source⟩ | ⟨_, _, source⟩
    · omega
    · rw [source] at there
      exact parted.less _ x (le_refl _) (by omega) there
    rw [source] at there
    exact parted.less k x (by omega) (by omega) there
  · exact all_swapped_apart paIn pbIn (.inl (by omega)) (.inl (by omega)) parted.more
  · exact all_swapped_apart paIn pbIn (.inl (by omega)) (.inl (by omega)) parted.back

theorem parted_more (parted : Parted le a base n p pa pb pc pd) (more : pb ≤ pc)
    (above : ∀ x, a[base + pc]? = some x → ¬ le x p) : Parted le a base n p pa pb (pc - 1) pd := by
  refine ⟨by omega, parted.pivot, parted.front, parted.less, ?_, parted.back⟩
  intro k x kLow kHigh there
  by_cases own : k = base + pc
  · subst own
    exact above x there
  · exact parted.more k x (by omega) kHigh there

theorem parted_back (within : Within n pa pb pc pd) (inside : base + n ≤ a.size) (parted : Parted le a base n p pa pb pc pd)
    (more : pb ≤ pc) (same : ∀ x, a[base + pc]? = some x → Same le p x) :
    Parted le (a.swapIfInBounds (base + pc) (base + pd)) base n p pa pb (pc - 1) (pd - 1) := by
  obtain ⟨first, front, met, up, back, last⟩ := within
  have pcIn : base + pc < a.size := by omega
  have pdIn : base + pd < a.size := by omega
  constructor
  · omega
  · rw [pivot_kept pcIn pdIn (by omega) (by omega)]
    exact parted.pivot
  · exact all_swapped_apart pcIn pdIn (.inr (by omega))
      (.inr (by omega)) parted.front
  · exact all_swapped_apart pcIn pdIn (.inr (by omega))
      (.inr (by omega)) parted.less
  · refine all_swapped pcIn pdIn fun k x kLow kHigh there => ?_
    rcases origin_cases (base + pc) (base + pd) k with ⟨own, source⟩ | ⟨own, _⟩ | ⟨_, _, source⟩
    · rw [source] at there
      exact parted.more _ x (by omega) (by omega) there
    · omega
    rw [source] at there
    exact parted.more k x (by omega) (by omega) there
  refine all_swapped pcIn pdIn fun k x kLow kHigh there => ?_
  rcases origin_cases (base + pc) (base + pd) k with ⟨own, source⟩ | ⟨_, source⟩ | ⟨_, _, source⟩
  all_goals rw [source] at there
  · rw [show base + pd = base + pc by omega] at there
    exact same x there
  · exact same x there
  · exact parted.back k x (by omega) kHigh there

theorem parted_crossed (within : Within n pa pb pc pd) (inside : base + n ≤ a.size) (parted : Parted le a base n p pa pb pc pd)
    (apart : pb < pc) (above : ∀ x, a[base + pb]? = some x → ¬ le x p) (less : ∀ x, a[base + pc]? = some x → ¬ le p x) :
    Parted le (a.swapIfInBounds (base + pb) (base + pc)) base n p pa (pb + 1) (pc - 1) pd := by
  obtain ⟨first, front, met, up, back, last⟩ := within
  have pbIn : base + pb < a.size := by omega
  have pcIn : base + pc < a.size := by omega
  constructor
  · omega
  · rw [pivot_kept pbIn pcIn (by omega) (by omega)]
    exact parted.pivot
  · exact all_swapped_apart pbIn pcIn (.inr (by omega))
      (.inr (by omega)) parted.front
  · refine all_swapped pbIn pcIn fun k x kLow kHigh there => ?_
    rcases origin_cases (base + pb) (base + pc) k with ⟨_, source⟩ | ⟨own, _⟩ | ⟨_, _, source⟩
    · rw [source] at there
      exact less x there
    · omega
    rw [source] at there
    exact parted.less k x kLow (by omega) there
  · refine all_swapped pbIn pcIn fun k x kLow kHigh there => ?_
    rcases origin_cases (base + pb) (base + pc) k with ⟨own, _⟩ | ⟨_, source⟩ | ⟨_, _, source⟩
    · omega
    · rw [source] at there
      exact above x there
    rw [source] at there
    exact parted.more k x (by omega) kHigh there
  · exact all_swapped_apart pbIn pcIn (.inl (by omega)) (.inl (by omega)) parted.back

end Steps

structure Scanned (cmp : CompareFn α Mind) (le : α → α → Prop) (base n : Nat) (start : α → Prop) (items : Array α)
    (cursor final : Cursor) (w : Work α Mind) : Prop where
  within : Within n final.pa final.pb final.pc final.pd
  passed : final.pc < final.pb
  rearranged : Rearranged base (base + n) items w.items
  parted : ∀ p, Ranks cmp le → start p → Parted le items base n p cursor.pa cursor.pb cursor.pc cursor.pd →
    Parted le w.items base n p final.pa final.pb final.pc final.pd

/-- The first scan goes right from every cursor with at most `room` entries between its ends. -/
def UpMeets (cmp : CompareFn α Mind) (le : α → α → Prop) (base n room : Nat) : Prop :=
  ∀ (cursor : Cursor) (items : Array α) (mind : Mind), cursor.pc + 1 - cursor.pb ≤ room →
    Within n cursor.pa cursor.pb cursor.pc cursor.pd → base + n ≤ items.size →
    Reaches (scanUp cmp base cursor) ⟨items, mind⟩ (Scanned cmp le base n (fun _ => True) items cursor)

def DownMeets (cmp : CompareFn α Mind) (le : α → α → Prop) (base n room : Nat) : Prop :=
  ∀ (cursor : Cursor) (items : Array α) (mind : Mind), cursor.pc + 1 - cursor.pb ≤ room →
    Within n cursor.pa cursor.pb cursor.pc cursor.pd → base + n ≤ items.size →
    Reaches (scanDown cmp base cursor) ⟨items, mind⟩
      (Scanned cmp le base n (fun p => Stopped le items base p cursor.pb cursor.pc) items cursor)

variable {base n room : Nat}

theorem answer_same {x p : α} (ranks : Ranks cmp le) (answer : Answer cmp x p 0) : Same le p x :=
  ⟨(answer_le ranks answer).mp (Int.le_refl 0), (answer_ge ranks answer).mp (Int.le_refl 0)⟩

theorem down_meets (up : ∀ less, less < room → UpMeets cmp le base n less)
    (down : ∀ less, less < room → DownMeets cmp le base n less) : DownMeets cmp le base n room := by
  intro cursor items mind fits within inside
  have behind := cursor.behind
  obtain ⟨first, front, met, top, back, last⟩ := within
  rw [scanDown]
  by_cases more : cursor.pb ≤ cursor.pc
  · rw [if_pos more]
    apply compare_then (by omega) (by omega)
    intro r mind' answer
    by_cases above : r ≥ 0
    · rw [if_pos above]
      by_cases same : r = 0
      · subst same
        rw [if_pos rfl]
        apply swap_then (by omega) (by omega)
        have swapped : Rearranged base (base + n) items (items.swapIfInBounds (base + cursor.pc) (base + cursor.pd)) :=
          rearranged_swap (by omega) (by omega) (by omega) (by omega) inside
        have further := down (room - 1) (by omega) { cursor with pc := cursor.pc - 1, pd := cursor.pd - 1 }
          (items.swapIfInBounds (base + cursor.pc) (base + cursor.pd)) mind' (by change cursor.pc - 1 + 1 - cursor.pb ≤ _; omega)
          ⟨first, front, by change cursor.pb ≤ cursor.pc - 1 + 2; omega, top, Nat.sub_le_sub_right back 1, by change cursor.pd - 1 < n; omega⟩
          (by rw [Array.size_swapIfInBounds]; exact inside)
        apply reaches_mono further
        intro final w scanned
        refine ⟨scanned.within, scanned.passed, rearranged_trans swapped scanned.rearranged, fun p ranks stopped parted => ?_⟩
        apply scanned.parted p ranks
        · intro still x there
          change cursor.pb ≤ cursor.pc - 1 at still
          change (items.swapIfInBounds (base + cursor.pc) (base + cursor.pd))[base + cursor.pb]? = some x at there
          rw [swap_origin (by omega) (by omega)] at there
          rcases origin_cases (base + cursor.pc) (base + cursor.pd) (base + cursor.pb) with ⟨own, _⟩ | ⟨own, _⟩ | ⟨_, _, source⟩
          · omega
          · omega
          rw [source] at there
          exact stopped more x there
        apply parted_back ⟨first, front, met, top, back, last⟩ inside parted more
        intro x there
        exact answer_same ranks (answer x p there parted.pivot)
      rw [if_neg same]
      have further := down (room - 1) (by omega) { cursor with pc := cursor.pc - 1 } items mind'
        (by change cursor.pc - 1 + 1 - cursor.pb ≤ _; omega)
        ⟨first, front, by change cursor.pb ≤ cursor.pc - 1 + 2; omega, top, by change cursor.pc - 1 ≤ cursor.pd; omega, last⟩
        inside
      apply reaches_mono further
      intro final w scanned
      refine ⟨scanned.within, scanned.passed, scanned.rearranged, fun p ranks stopped parted => ?_⟩
      apply scanned.parted p ranks
      · intro still
        exact stopped more
      apply parted_more parted more
      intro x there below
      have upper := (answer_le ranks (answer x p there parted.pivot)).mpr below
      omega
    rw [if_neg above]
    apply swap_then (by omega) (by omega)
    have swapped : Rearranged base (base + n) items (items.swapIfInBounds (base + cursor.pb) (base + cursor.pc)) :=
      rearranged_swap (by omega) (by omega) (by omega) (by omega) inside
    have further := up (room - 1) (by omega)
      { cursor with pb := cursor.pb + 1, pc := cursor.pc - 1, behind := Nat.le_add_left 1 _ }
      (items.swapIfInBounds (base + cursor.pb) (base + cursor.pc)) mind' (by change cursor.pc - 1 + 1 - (cursor.pb + 1) ≤ _; omega)
      ⟨first, by change cursor.pa ≤ cursor.pb + 1; omega, by change cursor.pb + 1 ≤ cursor.pc - 1 + 2; omega,
        by change cursor.pb + 1 ≤ n; omega, by change cursor.pc - 1 ≤ cursor.pd; omega, last⟩
      (by rw [Array.size_swapIfInBounds]; exact inside)
    apply reaches_mono further
    intro final w scanned
    refine ⟨scanned.within, scanned.passed, rearranged_trans swapped scanned.rearranged, fun p ranks stopped parted => ?_⟩
    apply scanned.parted p ranks trivial
    have less : ∀ x, items[base + cursor.pc]? = some x → ¬ le p x := by
      intro x there upper
      have lower := (answer_ge ranks (answer x p there parted.pivot)).mpr upper
      omega
    have apart : cursor.pb ≠ cursor.pc := by
      intro met
      obtain ⟨x, there⟩ := element_there items (base + cursor.pc) (by omega)
      have notBelow : ¬ le x p := stopped more x (by rw [met]; exact there)
      rcases ranks.total x p with below | above
      · exact notBelow below
      · exact less x there above
    exact parted_crossed ⟨first, front, met, top, back, last⟩ inside parted (by omega) (stopped more) less
  rw [if_neg more]
  apply reaches_pure
  exact ⟨⟨first, front, met, top, back, last⟩, by omega, rearranged_refl items, fun _ _ _ parted => parted⟩

theorem up_meets (up : ∀ less, less < room → UpMeets cmp le base n less) (down : DownMeets cmp le base n room) :
    UpMeets cmp le base n room := by
  intro cursor items mind fits within inside
  have behind := cursor.behind
  have ⟨first, front, met, top, back, last⟩ := within
  rw [scanUp]
  by_cases more : cursor.pb ≤ cursor.pc
  · rw [if_pos more]
    apply compare_then (by omega) (by omega)
    intro r mind' answer
    by_cases below : r ≤ 0
    · rw [if_pos below]
      by_cases same : r = 0
      · subst same
        rw [if_pos rfl]
        apply swap_then (by omega) (by omega)
        have swapped : Rearranged base (base + n) items (items.swapIfInBounds (base + cursor.pa) (base + cursor.pb)) :=
          rearranged_swap (by omega) (by omega) (by omega) (by omega) inside
        have further := up (room - 1) (by omega)
          { cursor with pa := cursor.pa + 1, pb := cursor.pb + 1, behind := Nat.le_add_left 1 _ }
          (items.swapIfInBounds (base + cursor.pa) (base + cursor.pb)) mind' (by change cursor.pc + 1 - (cursor.pb + 1) ≤ _; omega)
          ⟨Nat.le_add_left 1 _, Nat.succ_le_succ front, by change cursor.pb + 1 ≤ cursor.pc + 2; omega,
            by change cursor.pb + 1 ≤ n; omega, back, last⟩
          (by rw [Array.size_swapIfInBounds]; exact inside)
        apply reaches_mono further
        intro final w scanned
        refine ⟨scanned.within, scanned.passed, rearranged_trans swapped scanned.rearranged, fun p ranks _ parted => ?_⟩
        apply scanned.parted p ranks trivial
        apply parted_front within inside parted more
        intro x there
        exact answer_same ranks (answer x p there parted.pivot)
      rw [if_neg same]
      have further := up (room - 1) (by omega) { cursor with pb := cursor.pb + 1, behind := Nat.le_add_left 1 _ } items
        mind' (by change cursor.pc + 1 - (cursor.pb + 1) ≤ _; omega)
        ⟨first, by change cursor.pa ≤ cursor.pb + 1; omega, by change cursor.pb + 1 ≤ cursor.pc + 2; omega,
          by change cursor.pb + 1 ≤ n; omega, back, last⟩ inside
      apply reaches_mono further
      intro final w scanned
      refine ⟨scanned.within, scanned.passed, scanned.rearranged, fun p ranks _ parted => ?_⟩
      apply scanned.parted p ranks trivial
      apply parted_less parted more
      intro x there above
      have lower := (answer_ge ranks (answer x p there parted.pivot)).mpr above
      omega
    rw [if_neg below]
    apply reaches_mono (down cursor items mind' fits within inside)
    intro final w scanned
    refine ⟨scanned.within, scanned.passed, scanned.rearranged, fun p ranks _ parted => ?_⟩
    apply scanned.parted p ranks _ parted
    intro _ x there lower
    have upper := (answer_le ranks (answer x p there parted.pivot)).mpr lower
    exact below upper
  rw [if_neg more]
  apply reaches_mono (down cursor items mind fits within inside)
  intro final w scanned
  refine ⟨scanned.within, scanned.passed, scanned.rearranged, fun p ranks _ parted => ?_⟩
  exact scanned.parted p ranks (fun still => absurd still more) parted

variable (cmp le base n) in
theorem scans_meet (room : Nat) : UpMeets cmp le base n room ∧ DownMeets cmp le base n room := by
  induction room using Nat.strongRecOn with
  | ind room ih =>
    have down : DownMeets cmp le base n room :=
      down_meets (fun less fewer => (ih less fewer).1) (fun less fewer => (ih less fewer).2)
    exact ⟨up_meets (fun less fewer => (ih less fewer).1) down, down⟩

end ProvenC.Sort.Partition
