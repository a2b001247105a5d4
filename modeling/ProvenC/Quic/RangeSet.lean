import ProvenC.Bytes

/-!
# Sets of ranges

What a byte stream has received, lost or had acknowledged is kept as ranges `[lo, hi)`, ascending and
apart.
-/

namespace ProvenC.Quic.RangeSet

open List

/-- `proven_qrange_t`: `[lo, hi)`. -/
structure QRange where
  lo : Nat
  hi : Nat
  deriving DecidableEq, Repr

/-- Take in the ranges `[lo, hi)` touches; it grows over each of them. -/
def rsetAbsorb : List QRange → Nat → Nat → List QRange
  | [], lo, hi => [⟨lo, hi⟩]
  | r :: rest, lo, hi =>
    if r.lo ≤ hi then rsetAbsorb rest (min lo r.lo) (max hi r.hi) else ⟨lo, hi⟩ :: r :: rest

/-- Past the ranges that end before `lo`, then what is touched. -/
def rsetInsert : List QRange → Nat → Nat → List QRange
  | [], lo, hi => [⟨lo, hi⟩]
  | r :: rest, lo, hi =>
    if r.hi < lo then r :: rsetInsert rest lo hi else rsetAbsorb (r :: rest) lo hi

/-- `rset_add`: add `[lo, hi)`, merging what it touches. -/
def rsetAdd (s : List QRange) (lo hi : Nat) : List QRange :=
  if hi ≤ lo then s else rsetInsert s lo hi

def rsetCut : List QRange → Nat → Nat → List QRange
  | [], _, _ => []
  | r :: rest, lo, hi =>
    if r.hi ≤ lo then r :: rsetCut rest lo hi
    else if hi ≤ r.lo then r :: rest
    else if r.lo < lo ∧ hi < r.hi then ⟨r.lo, lo⟩ :: ⟨hi, r.hi⟩ :: rest
    else if r.lo < lo then ⟨r.lo, lo⟩ :: rsetCut rest lo hi
    else if hi < r.hi then ⟨hi, r.hi⟩ :: rest
    else rsetCut rest lo hi

/-- `rset_remove`: remove `[lo, hi)`. -/
def rsetRemove (s : List QRange) (lo hi : Nat) : List QRange :=
  if lo < hi then rsetCut s lo hi else s

/-- `rset_first_gap`: the first part of `[lo, hi)` not in the set, none when all of it is. -/
def rsetFirstGap : List QRange → Nat → Nat → Option (Nat × Nat)
  | [], lo, hi => if hi ≤ lo then none else some (lo, hi)
  | r :: rest, lo, hi =>
    if hi ≤ lo then none
    else if r.hi ≤ lo then rsetFirstGap rest lo hi
    else if lo < r.lo then some (lo, min hi r.lo)
    else rsetFirstGap rest r.hi hi

/-- Every range ends at `bound` or before it. -/
def EndsBy (s : List QRange) (bound : Nat) : Prop := ∀ r ∈ s, r.hi ≤ bound

variable {s : List QRange} {bound : Nat}

variable (ends : EndsBy s bound)
include ends

theorem ends_by_mono {larger : Nat} (le : bound ≤ larger) : EndsBy s larger :=
  fun r member => (ends r member).trans le

variable {r : QRange}

omit ends in
theorem ends_by_cons : EndsBy (r :: s) bound ↔ r.hi ≤ bound ∧ EndsBy s bound := by
  simp [EndsBy]

theorem absorb_ends (lo hi : Nat) (within : hi ≤ bound) : EndsBy (rsetAbsorb s lo hi) bound := by
  induction s generalizing lo hi with
  | nil => simpa [rsetAbsorb, EndsBy] using within
  | cons r rest ih =>
    rw [ends_by_cons] at ends
    rw [rsetAbsorb]
    split
    · exact ih ends.2 _ _ (max_le within ends.1)
    rw [ends_by_cons, ends_by_cons]
    exact ⟨within, ends.1, ends.2⟩

variable {lo hi : Nat}

theorem add_ends (within : hi ≤ bound) : EndsBy (rsetAdd s lo hi) bound := by
  have inserted : ∀ s, EndsBy s bound → EndsBy (rsetInsert s lo hi) bound := by
    intro s
    induction s with
    | nil => intro _; simpa [rsetInsert, EndsBy] using within
    | cons r rest ih =>
      intro ends
      rw [rsetInsert]
      split
      · rw [ends_by_cons] at ends ⊢
        exact ⟨ends.1, ih ends.2⟩
      · exact absorb_ends ends lo hi within
  rw [rsetAdd]
  split
  · exact ends
  · exact inserted s ends

theorem remove_ends (lo hi : Nat) : EndsBy (rsetRemove s lo hi) bound := by
  have cut : ∀ s, EndsBy s bound → EndsBy (rsetCut s lo hi) bound := by
    intro s
    induction s with
    | nil => intro ends; exact ends
    | cons r rest ih =>
      intro ends
      have both := ends_by_cons.mp ends
      rw [rsetCut]
      split
      · exact ends_by_cons.mpr ⟨both.1, ih both.2⟩
      split
      · exact ends
      split
      · refine ends_by_cons.mpr ⟨?_, ends_by_cons.mpr both⟩
        exact (show lo ≤ r.hi by omega).trans both.1
      split
      · refine ends_by_cons.mpr ⟨?_, ih both.2⟩
        exact (show lo ≤ r.hi by omega).trans both.1
      split
      · exact ends_by_cons.mpr both
      · exact ih both.2
  rw [rsetRemove]
  split
  · exact cut s ends
  · exact ends

omit ends

/-- `value` lies in one of the ranges. -/
def InSet (value : Nat) (s : List QRange) : Prop := ∃ r ∈ s, r.lo ≤ value ∧ value < r.hi

instance (value : Nat) (s : List QRange) : Decidable (InSet value s) :=
  inferInstanceAs (Decidable (∃ r ∈ s, r.lo ≤ value ∧ value < r.hi))

@[simp] theorem not_in_nil (value : Nat) : ¬ InSet value [] := by
  rintro ⟨_, member, _⟩
  cases member

theorem in_cons {value : Nat} : InSet value (r :: s) ↔ (r.lo ≤ value ∧ value < r.hi) ∨ InSet value s := by
  simp [InSet]

def Apart : List QRange → Prop
  | [] => True
  | r :: rest => r.lo < r.hi ∧ (∀ q ∈ rest, r.hi < q.lo) ∧ Apart rest

theorem apart_tail (apart : Apart (r :: s)) : Apart s := apart.2.2

theorem apart_full (apart : Apart s) : ∀ r ∈ s, r.lo < r.hi := by
  induction s with
  | nil => exact nofun
  | cons q rest ih =>
    intro r member
    rcases mem_cons.mp member with same | inside
    · rw [same]
      exact apart.1
    · exact ih (apart_tail apart) r inside

theorem in_above {s : List QRange} {bound value : Nat} (above : ∀ r ∈ s, bound ≤ r.lo) (member : InSet value s) :
    bound ≤ value := by
  obtain ⟨r, inside, low, _⟩ := member
  exact (above r inside).trans low

theorem absorb_above (above : ∀ r ∈ s, bound ≤ r.lo) (low : bound ≤ lo) : ∀ r ∈ rsetAbsorb s lo hi, bound ≤ r.lo := by
  induction s generalizing lo hi with
  | nil =>
    intro r member
    cases mem_singleton.mp member
    exact low
  | cons q rest ih =>
    have first := above q mem_cons_self
    have later : ∀ r ∈ rest, bound ≤ r.lo := fun r member => above r (mem_cons_of_mem _ member)
    rw [rsetAbsorb]
    split
    · exact ih later (le_min low first)
    intro r member
    rcases mem_cons.mp member with same | inside
    · rw [same]
      exact low
    · exact above r inside

theorem insert_above (above : ∀ r ∈ s, bound ≤ r.lo) (low : bound ≤ lo) : ∀ r ∈ rsetInsert s lo hi, bound ≤ r.lo := by
  induction s with
  | nil =>
    intro r member
    cases mem_singleton.mp member
    exact low
  | cons q rest ih =>
    rw [rsetInsert]
    split
    · intro r member
      rcases mem_cons.mp member with same | inside
      · rw [same]
        exact above q mem_cons_self
      · exact ih (fun r member => above r (mem_cons_of_mem _ member)) r inside
    · exact absorb_above above low

variable (apart : Apart s)
include apart

theorem absorb_spec (some_ : lo < hi) (reaches : ∀ r ∈ s, lo ≤ r.hi) : Apart (rsetAbsorb s lo hi) ∧
      ∀ value, InSet value (rsetAbsorb s lo hi) ↔ InSet value s ∨ (lo ≤ value ∧ value < hi) := by
  induction s generalizing lo hi with
  | nil =>
    refine ⟨⟨some_, nofun, True.intro⟩, fun value => ?_⟩
    rw [rsetAbsorb, in_cons, or_comm]
  | cons r rest ih =>
    obtain ⟨full, gap, tail⟩ := apart
    have reach := reaches r mem_cons_self
    rw [rsetAbsorb]
    split
    next touches =>
      have later : ∀ q ∈ rest, min lo r.lo ≤ q.hi := fun q member =>
        (min_le_left _ _).trans (reaches q (mem_cons_of_mem _ member))
      obtain ⟨apart, members⟩ := @ih (min lo r.lo) (max hi r.hi) tail (by omega) later
      refine ⟨apart, fun value => ?_⟩
      rw [members, in_cons]
      -- What lies between the two ranges' ends lies in one of them, since they touch.
      have both : (min lo r.lo ≤ value ∧ value < max hi r.hi) ↔
          (r.lo ≤ value ∧ value < r.hi) ∨ (lo ≤ value ∧ value < hi) := by omega
      rw [both]
      tauto
    rename_i apart_
    have before : ∀ q ∈ r :: rest, hi < q.lo := by
      intro q member
      rcases mem_cons.mp member with same | inside
      · rw [same]
        omega
      have further := gap q inside
      omega
    refine ⟨⟨some_, before, full, gap, tail⟩, fun value => ?_⟩
    rw [in_cons, or_comm]

theorem insert_spec (some_ : lo < hi) : Apart (rsetInsert s lo hi) ∧
      ∀ value, InSet value (rsetInsert s lo hi) ↔ InSet value s ∨ (lo ≤ value ∧ value < hi) := by
  induction s with
  | nil =>
    refine ⟨⟨some_, nofun, True.intro⟩, fun value => ?_⟩
    rw [rsetInsert, in_cons, or_comm]
  | cons r rest ih =>
    rw [rsetInsert]
    split
    next before =>
      obtain ⟨full, gap, tail⟩ := apart
      obtain ⟨apart, members⟩ := ih tail
      have above : ∀ q ∈ rsetInsert rest lo hi, r.hi + 1 ≤ q.lo := insert_above gap before
      refine ⟨⟨full, above, apart⟩, fun value => ?_⟩
      rw [in_cons, in_cons, members, or_assoc]
    rename_i reach
    refine absorb_spec apart some_ fun q member => ?_
    rcases mem_cons.mp member with same | inside
    · rw [same]
      omega
    have further := apart.2.1 q inside
    have full := apart_full apart q member
    omega

theorem add_apart (lo hi : Nat) : Apart (rsetAdd s lo hi) := by
  unfold rsetAdd
  split
  · exact apart
  rename_i some_
  exact (insert_spec apart (Nat.lt_of_not_le some_)).1

omit apart in
theorem add_above (above : ∀ r ∈ s, bound ≤ r.lo) (low : bound ≤ lo) : ∀ r ∈ rsetAdd s lo hi, bound ≤ r.lo := by
  unfold rsetAdd
  split
  · exact above
  · exact insert_above above low

theorem in_add (lo hi value : Nat) : InSet value (rsetAdd s lo hi) ↔ InSet value s ∨ (lo ≤ value ∧ value < hi) := by
  unfold rsetAdd
  split
  next none_ =>
    constructor
    · exact .inl
    rintro (member | inside)
    · exact member
    · omega
  rename_i some_
  exact (insert_spec apart (Nat.lt_of_not_le some_)).2 value

omit apart in
theorem cut_above (above : ∀ r ∈ s, bound ≤ r.lo) : ∀ r ∈ rsetCut s lo hi, bound ≤ r.lo := by
  induction s with
  | nil => exact nofun
  | cons q rest ih =>
    have first := above q mem_cons_self
    have later := ih fun r member => above r (mem_cons_of_mem _ member)
    intro r member
    rw [rsetCut] at member
    split at member
    · rcases mem_cons.mp member with rfl | inside
      · exact first
      · exact later r inside
    split at member
    · exact above r member
    split at member
    · rcases mem_cons.mp member with rfl | inside
      · exact first
      rcases mem_cons.mp inside with rfl | further
      · dsimp only
        omega
      · exact above r (mem_cons_of_mem _ further)
    split at member
    · rcases mem_cons.mp member with rfl | inside
      · exact first
      · exact later r inside
    split at member
    · rcases mem_cons.mp member with rfl | inside
      · dsimp only
        omega
      · exact above r (mem_cons_of_mem _ inside)
    · exact later r member

theorem cut_spec (some_ : lo < hi) :
    Apart (rsetCut s lo hi) ∧ ∀ value, InSet value (rsetCut s lo hi) ↔ InSet value s ∧ (value < lo ∨ hi ≤ value) := by
  induction s with
  | nil => exact ⟨True.intro, fun value => by simp [rsetCut]⟩
  | cons r rest ih =>
    obtain ⟨full, gap, tail⟩ := apart
    obtain ⟨cutApart, members⟩ := ih tail
    have cutGap : ∀ q ∈ rsetCut rest lo hi, r.hi + 1 ≤ q.lo := cut_above gap
    -- What lies in a later range lies past this one.
    have past : ∀ value, InSet value rest → r.hi < value := fun value member =>
      @in_above rest (r.hi + 1) value gap member
    rw [rsetCut]
    split
    · refine ⟨⟨full, cutGap, cutApart⟩, fun value => ?_⟩
      rw [in_cons, in_cons, members]
      constructor
      · rintro (here | later)
        · exact ⟨.inl here, by omega⟩
        · exact ⟨.inr later.1, later.2⟩
      rintro ⟨here | later, outside⟩
      · exact .inl here
      · exact .inr ⟨later, outside⟩
    split
    · refine ⟨⟨full, gap, tail⟩, fun value => ?_⟩
      rw [in_cons]
      constructor
      · rintro (here | later)
        · exact ⟨.inl here, by omega⟩
        have further := past value later
        exact ⟨.inr later, by omega⟩
      · exact fun both => both.1
    split
    next both =>
      refine ⟨⟨both.1, ?_, both.2, gap, tail⟩, fun value => ?_⟩
      · intro q member
        rcases mem_cons.mp member with rfl | inside
        · exact some_
        have further := gap q inside
        dsimp only
        omega
      rw [in_cons, in_cons, in_cons]
      dsimp only
      constructor
      · rintro (here | here | later)
        · exact ⟨.inl (by omega), by omega⟩
        · exact ⟨.inl (by omega), by omega⟩
        have further := past value later
        exact ⟨.inr later, by omega⟩
      rintro ⟨here | later, outside⟩
      · rcases outside with before | after
        · exact .inl (by omega)
        · exact .inr (.inl (by omega))
      · exact .inr (.inr later)
    split
    next before =>
      refine ⟨⟨before, fun q member => ?_, cutApart⟩, fun value => ?_⟩
      · have further := cutGap q member
        dsimp only
        omega
      rw [in_cons, in_cons, members]
      dsimp only
      constructor
      · rintro (here | later)
        · exact ⟨.inl (by omega), by omega⟩
        · exact ⟨.inr later.1, later.2⟩
      rintro ⟨here | later, outside⟩
      · exact .inl (by omega)
      · exact .inr ⟨later, outside⟩
    split
    next after =>
      refine ⟨⟨after, gap, tail⟩, fun value => ?_⟩
      rw [in_cons, in_cons]
      dsimp only
      constructor
      · rintro (here | later)
        · exact ⟨.inl (by omega), by omega⟩
        have further := past value later
        exact ⟨.inr later, by omega⟩
      rintro ⟨here | later, outside⟩
      · exact .inl (by omega)
      · exact .inr later
    refine ⟨cutApart, fun value => ?_⟩
    rw [in_cons, members]
    constructor
    · exact fun both => ⟨.inr both.1, both.2⟩
    rintro ⟨here | later, outside⟩
    · omega
    · exact ⟨later, outside⟩

theorem remove_apart (lo hi : Nat) : Apart (rsetRemove s lo hi) := by
  unfold rsetRemove
  split
  next some_ =>
    exact (cut_spec apart some_).1
  · exact apart

theorem in_remove (lo hi value : Nat) : InSet value (rsetRemove s lo hi) ↔ InSet value s ∧ (value < lo ∨ hi ≤ value) := by
  unfold rsetRemove
  split
  next some_ =>
    exact (cut_spec apart some_).2 value
  · exact ⟨fun member => ⟨member, by omega⟩, fun both => both.1⟩

omit apart in
theorem first_run {rest : List QRange} (apart : Apart (r :: rest)) :
    (∀ value, r.lo ≤ value → value < r.hi → InSet value (r :: rest)) ∧ ¬ InSet r.hi (r :: rest) := by
  refine ⟨fun value low high => in_cons.mpr (.inl ⟨low, high⟩), fun member => ?_⟩
  rcases in_cons.mp member with here | later
  · omega
  have further := @in_above rest (r.hi + 1) r.hi apart.2.1 later
  omega

theorem first_gap_spec (lo hi : Nat) : match rsetFirstGap s lo hi with
    | none => ∀ value, lo ≤ value → value < hi → InSet value s
    | some (a, b) => lo ≤ a ∧ a < b ∧ b ≤ hi ∧ ∀ value, a ≤ value → value < b → ¬ InSet value s := by
  induction s generalizing lo with
  | nil =>
    rw [rsetFirstGap]
    split
    next none_ =>
      split at none_
      · exact fun value _ _ => by omega
      · cases none_
    rename_i a b given
    split at given
    · cases given
    · cases given
      exact ⟨le_rfl, by omega, le_rfl, fun value _ _ => not_in_nil value⟩
  | cons r rest ih =>
    obtain ⟨full, gap, tail⟩ := apart
    have past : ∀ value, InSet value rest → r.hi < value := fun value member =>
      @in_above rest (r.hi + 1) value gap member
    rw [rsetFirstGap]
    by_cases empty : hi ≤ lo
    · rw [if_pos empty]
      exact fun value _ _ => by omega
    rw [if_neg empty]
    by_cases behind : r.hi ≤ lo
    · rw [if_pos behind]
      have rest_ := ih tail lo
      split at rest_
      next none_ =>
        exact fun value low high => in_cons.mpr (.inr (rest_ value low high))
      rename_i a b given
      refine ⟨rest_.1, rest_.2.1, rest_.2.2.1, fun value low high member => ?_⟩
      rcases in_cons.mp member with here | later
      · omega
      · exact rest_.2.2.2 value low high later
    rw [if_neg behind]
    by_cases before : lo < r.lo
    · rw [if_pos before]
      refine ⟨le_rfl, by omega, min_le_left _ _, fun value low high member => ?_⟩
      rcases in_cons.mp member with here | later
      · omega
      have further := past value later
      omega
    rw [if_neg before]
    have rest_ := ih tail r.hi
    split at rest_
    next none_ =>
      intro value low high
      rcases Nat.lt_or_ge value r.hi with inside | further
      · exact in_cons.mpr (.inl ⟨by omega, inside⟩)
      · exact in_cons.mpr (.inr (rest_ value further high))
    rename_i a b given
    refine ⟨by omega, rest_.2.1, rest_.2.2.1, fun value low high member => ?_⟩
    rcases in_cons.mp member with here | later
    · omega
    · exact rest_.2.2.2 value low high later

omit apart

end ProvenC.Quic.RangeSet
