import ProvenC.Lib.Cells

/-!
# Intervals put in order and joined

Cells are put in the order of a key by insertion: each value goes down past the larger ones before it.
-/

namespace ProvenC.Lib.Intervals

open Lib.Cells

section Insertion

variable {Value : Type} (key : Value → Nat)

/-- The value goes down from `place`, past the larger ones. -/
def sift (value : Value) (cells : Nat → Value) : Nat → Nat → Value
  | 0 => stored cells 0 value
  | place + 1 =>
    if key value < key (cells place) then sift value (stored cells (place + 1) (cells place)) place
    else stored cells (place + 1) value

/-- The cells after those from 1 to `rounds` have gone down one after another. -/
def arrange (cells : Nat → Value) : Nat → Nat → Value
  | 0 => cells
  | rounds + 1 => sift key (arrange cells rounds (rounds + 1)) (arrange cells rounds) (rounds + 1)

variable {key}

def InOrder (key : Value → Nat) (values : List Value) : Prop := values.Pairwise fun a b => key a ≤ key b

theorem range_snoc (cells : Nat → Value) (n : Nat) : range cells 0 (n + 1) = range cells 0 n ++ [cells n] := by
  rw [range_append, range_one, Nat.zero_add]

theorem sift_outside (value : Value) (cells : Nat → Value) (place j : Nat) (above : place < j) :
    sift key value cells place j = cells j := by
  induction place generalizing cells with
  | zero => exact Function.update_of_ne (by omega) _ _
  | succ place ih =>
    rw [sift]
    split_ifs
    · rw [ih _ (by omega)]
      exact Function.update_of_ne (by omega) _ _
    · exact Function.update_of_ne (by omega) _ _

theorem sift_perm (value : Value) (cells : Nat → Value) (place : Nat) :
    (range (sift key value cells place) 0 (place + 1)).Perm (value :: range cells 0 place) := by
  induction place generalizing cells with
  | zero =>
    have there : sift key value cells 0 0 = value := by
      rw [sift]
      exact Function.update_self ..
    rw [range_one, there]
    exact List.Perm.refl _
  | succ place ih =>
    rw [sift]
    split_ifs
    · have below := ih (stored cells (place + 1) (cells place))
      have same : range (stored cells (place + 1) (cells place)) 0 place = range cells 0 place :=
        range_eq fun i inside => Function.update_of_ne (by omega) _ _
      have top : sift key value (stored cells (place + 1) (cells place)) place (place + 1) = cells place :=
        (sift_outside _ _ _ _ (by omega)).trans (Function.update_self ..)
      rw [range_snoc, top, range_snoc cells place]
      rw [same] at below
      exact below.append_right [cells place]
    rw [range_stored]
    exact List.perm_append_singleton _ _

theorem sift_in_order {value : Value} {cells : Nat → Value} {place : Nat} (ordered : InOrder key (range cells 0 place)) :
    InOrder key (range (sift key value cells place) 0 (place + 1)) := by
  induction place generalizing cells with
  | zero =>
    rw [range_one]
    exact List.pairwise_singleton _ _
  | succ place ih =>
    rw [range_snoc] at ordered
    obtain ⟨front, _, below⟩ := List.pairwise_append.mp ordered
    rw [sift]
    split_ifs with smaller
    · have same : range (stored cells (place + 1) (cells place)) 0 place = range cells 0 place :=
        range_eq fun i inside => Function.update_of_ne (by omega) _ _
      have top : sift key value (stored cells (place + 1) (cells place)) place (place + 1) = cells place :=
        (sift_outside _ _ _ _ (by omega)).trans (Function.update_self ..)
      rw [range_snoc, top]
      refine List.pairwise_append.mpr ⟨ih (by rw [same]; exact front), List.pairwise_singleton _ _, fun a among b isTop => ?_⟩
      rw [List.mem_singleton.mp isTop]
      have members := (sift_perm value (stored cells (place + 1) (cells place)) place).mem_iff.mp among
      rw [same] at members
      rcases List.mem_cons.mp members with rfl | earlier
      · exact Nat.le_of_lt smaller
      · exact below a earlier _ (List.mem_singleton_self _)
    rw [range_stored, range_snoc]
    refine List.pairwise_append.mpr ⟨ordered, List.pairwise_singleton _ _, fun a among b isLast => ?_⟩
    rw [List.mem_singleton.mp isLast]
    rcases List.mem_append.mp among with earlier | isTop
    · exact (below a earlier _ (List.mem_singleton_self _)).trans (Nat.le_of_not_lt smaller)
    rw [List.mem_singleton.mp isTop]
    exact Nat.le_of_not_lt smaller

theorem arrange_outside (cells : Nat → Value) (rounds j : Nat) (above : rounds < j) : arrange key cells rounds j = cells j := by
  induction rounds with
  | zero => rfl
  | succ rounds ih =>
    rw [arrange, sift_outside _ _ _ _ above]
    exact ih (by omega)

theorem arrange_sorts (cells : Nat → Value) (rounds : Nat) :
    InOrder key (range (arrange key cells rounds) 0 (rounds + 1)) ∧
      (range (arrange key cells rounds) 0 (rounds + 1)).Perm (range cells 0 (rounds + 1)) := by
  induction rounds with
  | zero =>
    rw [arrange, range_one]
    exact ⟨List.pairwise_singleton _ _, List.Perm.refl _⟩
  | succ rounds ih =>
    obtain ⟨ordered, same⟩ := ih
    rw [arrange]
    refine ⟨sift_in_order ordered, (sift_perm _ _ _).trans ?_⟩
    rw [arrange_outside cells rounds (rounds + 1) (by omega), range_snoc cells (rounds + 1)]
    exact (same.cons _).trans (List.perm_append_singleton _ _).symm

end Insertion

structure Stretch where
  first : Nat
  last : Nat
  deriving DecidableEq, Repr

def Stretch.Covers (i : Stretch) (x : Nat) : Prop := i.first ≤ x ∧ x ≤ i.last

def Covered (intervals : List Stretch) (x : Nat) : Prop := ∃ i ∈ intervals, i.Covers x

def Gapped (a b : Stretch) : Prop := a.last + 1 < b.first

/-- The interval of cell `k` meets the topmost, at `top`. -/
def joinRound (top : Nat) (cells : Nat → Stretch) (k : Nat) : Nat × (Nat → Stretch) :=
  if (cells k).first ≤ (cells top).last + 1 then
    if (cells top).last < (cells k).last then (top, stored cells top { cells top with last := (cells k).last }) else (top, cells)
  else (top + 1, stored cells (top + 1) (cells k))

def joinAll (cells : Nat → Stretch) : Nat → Nat × (Nat → Stretch)
  | 0 => (0, cells)
  | rounds + 1 => joinRound (joinAll cells rounds).1 (joinAll cells rounds).2 (rounds + 1)

/-- What the pass has made of the cells up to `rounds`. -/
structure Coalesced (cells : Nat → Stretch) (rounds top : Nat) (made : Nat → Stretch) : Prop where
  below : top ≤ rounds
  further : ∀ j, rounds < j → made j = cells j
  proper : ∀ i ∈ range made 0 (top + 1), i.first ≤ i.last
  apart : (range made 0 (top + 1)).Pairwise Gapped
  order : ∀ i ∈ range made 0 (top + 1), i.first ≤ (cells rounds).first
  bound : ∀ i ∈ range made 0 (top + 1), ∃ j ≤ rounds, i.last = (cells j).last
  covers : ∀ x, Covered (range made 0 (top + 1)) x ↔ Covered (range cells 0 (rounds + 1)) x

theorem covered_append (front back : List Stretch) (x : Nat) : Covered (front ++ back) x ↔ Covered front x ∨ Covered back x := by
  unfold Covered
  simp only [List.mem_append, or_and_right, exists_or]

theorem covered_singleton (i : Stretch) (x : Nat) : Covered [i] x ↔ i.Covers x := by
  unfold Covered
  simp only [List.mem_singleton, exists_eq_left]

variable {cells made : Nat → Stretch} {rounds top : Nat}

theorem joined_round (joined : Coalesced cells rounds top made) (proper : (cells (rounds + 1)).first ≤ (cells (rounds + 1)).last)
    (ordered : (cells rounds).first ≤ (cells (rounds + 1)).first) :
    Coalesced cells (rounds + 1) (joinRound top made (rounds + 1)).1 (joinRound top made (rounds + 1)).2 := by
  have next : made (rounds + 1) = cells (rounds + 1) := joined.further _ (by omega)
  have below := joined.below
  have apart := joined.apart
  have allProper := joined.proper
  have order := joined.order
  have covers := joined.covers
  have bound := joined.bound
  rw [range_snoc] at apart allProper order covers bound
  obtain ⟨frontApart, _, frontBelow⟩ := List.pairwise_append.mp apart
  have topProper := allProper (made top) (List.mem_append_right _ (List.mem_singleton_self _))
  have topOrder := order (made top) (List.mem_append_right _ (List.mem_singleton_self _))
  unfold joinRound
  rw [next]
  split_ifs with meets larger
  · dsimp only
    have frontSame (v : Stretch) : range (stored made top v) 0 top = range made 0 top :=
      range_eq fun i inside => Function.update_of_ne (by omega) _ _
    have topSame (v : Stretch) : stored made top v top = v := Function.update_self ..
    refine ⟨by omega, fun j above => ?_, ?_, ?_, ?_, ?_, fun x => ?_⟩
    · exact (Function.update_of_ne (by omega) _ _).trans (joined.further j (by omega))
    · rw [range_snoc, frontSame, topSame]
      intro i among
      rcases List.mem_append.mp among with earlier | isTop
      · exact allProper i (List.mem_append_left _ earlier)
      rw [List.mem_singleton.mp isTop]
      exact topProper.trans (Nat.le_of_lt larger)
    · rw [range_snoc, frontSame, topSame]
      refine List.pairwise_append.mpr ⟨frontApart, List.pairwise_singleton _ _, fun a among b isTop => ?_⟩
      rw [List.mem_singleton.mp isTop]
      have far : a.last + 1 < (made top).first := frontBelow a among _ (List.mem_singleton_self _)
      exact far
    · rw [range_snoc, frontSame, topSame]
      intro i among
      rcases List.mem_append.mp among with earlier | isTop
      · exact (order i (List.mem_append_left _ earlier)).trans ordered
      rw [List.mem_singleton.mp isTop]
      exact topOrder.trans ordered
    · rw [range_snoc, frontSame, topSame]
      intro i among
      rcases List.mem_append.mp among with earlier | isTop
      · obtain ⟨j, inside, same⟩ := bound i (List.mem_append_left _ earlier)
        exact ⟨j, by omega, same⟩
      rw [List.mem_singleton.mp isTop]
      exact ⟨rounds + 1, Nat.le_refl _, rfl⟩
    have before := covers x
    rw [covered_append, covered_singleton] at before
    rw [range_snoc, frontSame, topSame, range_snoc cells, covered_append, covered_append, covered_singleton, covered_singleton,
      ← before, or_assoc]
    refine or_congr Iff.rfl ?_
    unfold Stretch.Covers
    dsimp only
    omega
  · refine ⟨by omega, fun j above => joined.further j (by omega), joined.proper, joined.apart, fun i among => ?_, fun i among => ?_,
      fun x => ?_⟩
    · exact (joined.order i among).trans ordered
    · obtain ⟨j, inside, same⟩ := joined.bound i among
      exact ⟨j, by omega, same⟩
    have before := covers x
    rw [covered_append, covered_singleton] at before
    rw [range_snoc made, range_snoc cells, covered_append, covered_append, covered_singleton, covered_singleton, ← before, or_assoc]
    refine or_congr Iff.rfl ?_
    unfold Stretch.Covers
    dsimp only
    omega
  dsimp only
  have frontSame : range (stored made (top + 1) (cells (rounds + 1))) 0 (top + 1) = range made 0 (top + 1) :=
    range_eq fun i inside => Function.update_of_ne (by omega) _ _
  have topSame : stored made (top + 1) (cells (rounds + 1)) (top + 1) = cells (rounds + 1) := Function.update_self ..
  refine ⟨by omega, fun j above => ?_, ?_, ?_, ?_, ?_, fun x => ?_⟩
  · exact (Function.update_of_ne (by omega) _ _).trans (joined.further j (by omega))
  · rw [range_snoc, frontSame, topSame]
    intro i among
    rcases List.mem_append.mp among with earlier | isNew
    · exact joined.proper i earlier
    rw [List.mem_singleton.mp isNew]
    exact proper
  · rw [range_snoc, frontSame, topSame]
    refine List.pairwise_append.mpr ⟨joined.apart, List.pairwise_singleton _ _, fun a among b isNew => ?_⟩
    rw [List.mem_singleton.mp isNew]
    rw [range_snoc] at among
    unfold Gapped
    rcases List.mem_append.mp among with earlier | isTop
    · have far : (a.last + 1 < (made top).first) := frontBelow a earlier _ (List.mem_singleton_self _)
      omega
    rw [List.mem_singleton.mp isTop]
    omega
  · rw [range_snoc, frontSame, topSame]
    intro i among
    rcases List.mem_append.mp among with earlier | isNew
    · exact (joined.order i earlier).trans ordered
    · rw [List.mem_singleton.mp isNew]
  · rw [range_snoc, frontSame, topSame]
    intro i among
    rcases List.mem_append.mp among with earlier | isNew
    · obtain ⟨j, inside, same⟩ := joined.bound i earlier
      exact ⟨j, by omega, same⟩
    rw [List.mem_singleton.mp isNew]
    exact ⟨rounds + 1, Nat.le_refl _, rfl⟩
  · rw [range_snoc, frontSame, topSame, range_snoc cells, covered_append, covered_append, joined.covers]

theorem range_get {Value : Type} (cells : Nat → Value) {n k : Nat} (inside : k < n) : cells k ∈ range cells 0 n := by
  unfold range
  exact List.mem_ofFn.mpr ⟨⟨k, inside⟩, by rw [Nat.zero_add]⟩

theorem range_mem {Value : Type} {cells : Nat → Value} {n : Nat} {value : Value} (among : value ∈ range cells 0 n) :
    ∃ k < n, cells k = value := by
  unfold range at among
  obtain ⟨k, same⟩ := List.mem_ofFn.mp among
  exact ⟨k.val, k.isLt, by rw [← same, Nat.zero_add]⟩

theorem join_all (cells : Nat → Stretch) (rounds : Nat) (proper : ∀ i ∈ range cells 0 (rounds + 1), i.first ≤ i.last)
    (ordered : InOrder Stretch.first (range cells 0 (rounds + 1))) :
    Coalesced cells rounds (joinAll cells rounds).1 (joinAll cells rounds).2 := by
  induction rounds with
  | zero =>
    refine ⟨Nat.le_refl 0, fun _ _ => rfl, proper, ?_, fun i among => ?_, fun i among => ?_, fun _ => Iff.rfl⟩
    · rw [joinAll, range_one]
      exact List.pairwise_singleton _ _
    · obtain ⟨k, small, rfl⟩ := range_mem among
      rw [show k = 0 by have : (joinAll cells 0).1 = 0 := rfl; omega]
      exact Nat.le_refl _
    obtain ⟨k, small, rfl⟩ := range_mem among
    exact ⟨k, by have : (joinAll cells 0).1 = 0 := rfl; omega, rfl⟩
  | succ rounds ih =>
    rw [range_snoc] at proper ordered
    obtain ⟨front, _, below⟩ := List.pairwise_append.mp ordered
    rw [joinAll]
    refine joined_round (ih (fun i among => proper i (List.mem_append_left _ among)) front) ?_ ?_
    · exact proper _ (List.mem_append_right _ (List.mem_singleton_self _))
    · exact below _ (range_get cells (by omega)) _ (List.mem_singleton_self _)

end ProvenC.Lib.Intervals
