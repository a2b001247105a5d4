import ProvenC.Sort.Algorithm
import ProvenC.Lib.Outcome
import ProvenC.Lib.Arrange

/-!
# Rules for the steps of a sort

One rule for each thing the sort does to the array: compare two elements of it, compare one with
a copy, exchange two, write one. Every position has to be in the array.
-/

namespace ProvenC.Sort.Rules

open Sort.Algorithm Lib.Outcome Lib.Arrange

variable {α Mind Next : Type} {cmp : CompareFn α Mind} {le : α → α → Prop}

structure Ranks (cmp : CompareFn α Mind) (le : α → α → Prop) : Prop where
  total : ∀ x y, le x y ∨ le y x
  trans : ∀ x y z, le x y → le y z → le x z
  atMost : ∀ x y mind, (cmp x y mind).1 ≤ 0 ↔ le x y
  atLeast : ∀ x y mind, 0 ≤ (cmp x y mind).1 ↔ le y x

/-- `r` is something the comparator says of `x` and `y`. -/
def Answer (cmp : CompareFn α Mind) (x y : α) (r : Int) : Prop := ∃ mind, (cmp x y mind).1 = r

theorem answer_le {x y : α} {r : Int} (ranks : Ranks cmp le) (answer : Answer cmp x y r) : r ≤ 0 ↔ le x y := by
  obtain ⟨mind, rfl⟩ := answer
  exact ranks.atMost x y mind

theorem answer_ge {x y : α} {r : Int} (ranks : Ranks cmp le) (answer : Answer cmp x y r) : 0 ≤ r ↔ le y x := by
  obtain ⟨mind, rfl⟩ := answer
  exact ranks.atLeast x y mind

theorem ranks_refl (ranks : Ranks cmp le) (x : α) : le x x := by
  rcases ranks.total x x with holds | holds <;> exact holds

/-- What the comparator says of the entries at `i` and `j`. -/
def AnswerAt (cmp : CompareFn α Mind) (items : Array α) (i j : Nat) (r : Int) : Prop :=
  ∀ x y, items[i]? = some x → items[j]? = some y → Answer cmp x y r

variable {items : Array α} {mind : Mind} {after : Next → Work α Mind → Prop}

theorem element_there (items : Array α) (i : Nat) (inside : i < items.size) : ∃ x, items[i]? = some x :=
  ⟨items[i], Array.getElem?_eq_getElem inside⟩

variable {i : Nat}

theorem elem_then {rest : α → Sorting α Mind Next} (inside : i < items.size)
    (further : ∀ x, items[i]? = some x → Reaches (rest x) ⟨items, mind⟩ after) :
    Reaches (elemAt i >>= rest) ⟨items, mind⟩ after := by
  obtain ⟨x, there⟩ := element_there items i inside
  have read : Reaches (elemAt i) ⟨items, mind⟩ fun value state => value = x ∧ state = ⟨items, mind⟩ :=
    ⟨x, ⟨items, mind⟩, by simp only [elemAt, there, Option.map_some], rfl, rfl⟩
  apply reaches_bind read
  rintro value state ⟨rfl, rfl⟩
  exact further value there

variable {rest : Int → Sorting α Mind Next}

theorem ask_then {x y : α} (further : ∀ r mind', Answer cmp x y r → Reaches (rest r) ⟨items, mind'⟩ after) :
    Reaches (ask cmp x y >>= rest) ⟨items, mind⟩ after := by
  have asked : Reaches (ask cmp x y) (⟨items, mind⟩ : Work α Mind) fun r state =>
      Answer cmp x y r ∧ state.items = items := ⟨_, _, rfl, ⟨mind, rfl⟩, rfl⟩
  apply reaches_bind asked
  rintro r ⟨_, mind'⟩ ⟨answer, rfl⟩
  exact further r mind' answer

theorem write_then {x : α} {rest : Unit → Sorting α Mind Next} (inside : i < items.size)
    (further : Reaches (rest ()) ⟨items.setIfInBounds i x, mind⟩ after) :
    Reaches (memCopy i x >>= rest) ⟨items, mind⟩ after := by
  have written : Reaches (memCopy i x) (⟨items, mind⟩ : Work α Mind) fun _ state =>
      state = ⟨items.setIfInBounds i x, mind⟩ := ⟨(), _, by simp only [memCopy, if_pos inside], rfl⟩
  apply reaches_bind written
  rintro _ _ rfl
  exact further

theorem compare_then {j : Nat} (iIn : i < items.size) (jIn : j < items.size)
    (further : ∀ r mind', AnswerAt cmp items i j r → Reaches (rest r) ⟨items, mind'⟩ after) :
    Reaches (compareAt cmp i j >>= rest) ⟨items, mind⟩ after := by
  unfold compareAt
  simp only [bind_assoc]
  apply elem_then iIn
  intro x atI
  apply elem_then jIn
  intro y atJ
  apply ask_then
  intro r mind' answer
  apply further r mind'
  intro x' y' atI' atJ'
  rw [atI] at atI'
  rw [atJ] at atJ'
  cases atI'
  cases atJ'
  exact answer

theorem write_crosswise {j : Nat} {x y : α} (apart : i ≠ j) (iIn : i < items.size) (jIn : j < items.size)
    (atI : items[i]? = some x) (atJ : items[j]? = some y) :
    (items.setIfInBounds i y).setIfInBounds j x = items.swapIfInBounds i j := by
  apply Array.ext_getElem?
  intro k
  rw [swap_origin iIn jIn]
  simp only [Array.getElem?_setIfInBounds, Array.size_setIfInBounds]
  rcases origin_cases i j k with ⟨rfl, same⟩ | ⟨rfl, same⟩ | ⟨notI, notJ, same⟩
  · rw [same, if_neg (Ne.symm apart), if_pos rfl, if_pos iIn, atJ]
  · rw [same, if_pos rfl, if_pos jIn, atI]
  · rw [same, if_neg (Ne.symm notJ), if_neg (Ne.symm notI)]

theorem swap_same_place (inside : i < items.size) : items.swapIfInBounds i i = items := by
  apply Array.ext_getElem?
  intro k
  rw [swap_origin inside inside]
  unfold origin
  split
  next same =>
    rw [same]
  · rfl

theorem swap_then {j : Nat} {rest : Unit → Sorting α Mind Next} (iIn : i < items.size) (jIn : j < items.size)
    (further : Reaches (rest ()) ⟨items.swapIfInBounds i j, mind⟩ after) :
    Reaches (swapElements i j >>= rest) ⟨items, mind⟩ after := by
  unfold swapElements
  split
  next same =>
    subst same
    rw [swap_same_place iIn] at further
    exact further
  rename_i apart
  simp only [bind_assoc]
  apply elem_then iIn
  intro x atI
  apply elem_then jIn
  intro y atJ
  apply write_then iIn
  apply write_then (by rw [Array.size_setIfInBounds]; exact jIn)
  rw [write_crosswise apart iIn jIn atI atJ]
  exact further

end ProvenC.Sort.Rules
