import Mathlib

/-!
# Taking the first, again and again

A list in no order, read through once for each item that is taken: each time the first, in a
strict order, of those after the last one taken. What is taken is the list in that order.
-/

namespace ProvenC.Lib.Selecting

open List

variable {Item : Type*} (before : Item → Item → Bool)

def firstOf (eligible : Item → Bool) : Option Item → List Item → Option Item
  | found, [] => found
  | found, item :: rest =>
    firstOf eligible
      (if eligible item && found.all (before item) then some item else found) rest

def after (last : Option Item) (item : Item) : Bool := last.all fun taken => before taken item

def takeAll (wanted : Item → Bool) (items : List Item) : Nat → Option Item → List Item
  | 0, _ => []
  | rounds + 1, last =>
    match firstOf before (fun item => wanted item && after before last item) none items with
    | none => []
    | some item => item :: takeAll wanted items rounds (some item)

variable {before}

structure Orders (before : Item → Item → Bool) (items : List Item) : Prop where
  irrefl : ∀ item, before item item = false
  trans : ∀ first second third, before first second = true → before second third = true → before first third = true
  apart : ∀ first ∈ items, ∀ second ∈ items, first ≠ second → before first second = true ∨ before second first = true

theorem first_of_spec {eligible : Item → Bool} {items all : List Item} (orders : Orders before all)
    (inside : ∀ item ∈ items, item ∈ all) {found : Option Item}
    (good : ∀ item ∈ found, item ∈ all ∧ eligible item = true) : match firstOf before eligible found items with
    | none => found = none ∧ ∀ item ∈ items, eligible item = false
    | some first =>
      first ∈ all ∧ eligible first = true ∧
        ∀ item, (item ∈ items ∧ eligible item = true) ∨ found = some item → item = first ∨ before first item = true := by
  induction items generalizing found with
  | nil =>
    cases found with
    | none => exact ⟨rfl, fun _ member => absurd member not_mem_nil⟩
    | some held =>
      obtain ⟨member, ok⟩ := good held rfl
      refine ⟨member, ok, fun item known => .inl ?_⟩
      rcases known with ⟨none_, _⟩ | same
      · exact absurd none_ not_mem_nil
      · exact (Option.some.inj same).symm
  | cons item rest ih =>
    have here := inside item mem_cons_self
    have rest_ : ∀ other ∈ rest, other ∈ all := fun other member => inside other (mem_cons_of_mem _ member)
    rw [firstOf]
    by_cases takes : (eligible item && found.all (before item)) = true
    · rw [if_pos takes]
      rw [Bool.and_eq_true] at takes
      have spec := @ih rest_ (some item) fun other same => by
        cases same
        exact ⟨here, takes.1⟩
      cases result : firstOf before eligible (some item) rest with
      | none =>
        rw [result] at spec
        exact absurd spec.1 (Option.some_ne_none item)
      | some first =>
        rw [result] at spec
        obtain ⟨member, ok, least⟩ := spec
        refine ⟨member, ok, fun other known => ?_⟩
        have reached := least item (.inr rfl)
        rcases known with ⟨place, eligible_⟩ | same
        · rcases mem_cons.mp place with rfl | later
          · exact reached
          · exact least other (.inl ⟨later, eligible_⟩)
        subst same
        have sooner : before item other = true := by simpa using takes.2
        rcases reached with rfl | sooner_
        · exact .inr sooner
        · exact .inr (orders.trans _ _ _ sooner_ sooner)
    rw [if_neg takes]
    have spec := @ih rest_ found good
    cases result : firstOf before eligible found rest with
    | none =>
      rw [result] at spec
      obtain ⟨none_, others⟩ := spec
      refine ⟨none_, fun other place => ?_⟩
      rcases mem_cons.mp place with rfl | later
      · rw [none_] at takes
        simpa using takes
      · exact others other later
    | some first =>
      rw [result] at spec
      obtain ⟨member, ok, least⟩ := spec
      refine ⟨member, ok, fun other known => ?_⟩
      rcases known with ⟨place, eligible_⟩ | same
      · rcases mem_cons.mp place with rfl | later
        · -- It is eligible and was passed over: what was found comes before it.
          rw [eligible_, Bool.true_and] at takes
          cases found with
          | none => exact absurd rfl takes
          | some held =>
            have held_ := good held rfl
            have passed : before other held = false := by simpa using takes
            have reached := least held (.inr rfl)
            by_cases same : other = held
            · rw [same]
              exact reached
            rcases orders.apart other here held held_.1 same with sooner | later_
            · rw [passed] at sooner
              cases sooner
            rcases reached with rfl | first_
            · exact .inr later_
            · exact .inr (orders.trans _ _ _ first_ later_)
        · exact least other (.inl ⟨later, eligible_⟩)
      · exact least other (.inr same)

theorem take_all_sorted {wanted : Item → Bool} {items sorted : List Item} (orders : Orders before items)
    (ordered : sorted.Pairwise fun first second => before first second = true)
    (same : sorted.Perm (items.filter wanted)) {rounds : Nat} (enough : sorted.length < rounds) :
    takeAll before wanted items rounds none = sorted := by
  have wanted_ {item : Item} : item ∈ sorted ↔ item ∈ items ∧ wanted item = true := by
    rw [same.mem_iff, mem_filter]
  have suffix : ∀ (rest done : List Item), done ++ rest = sorted → ∀ (last : Option Item) (rounds : Nat),
      rest.length < rounds → (∀ item, item ∈ rest ↔ item ∈ sorted ∧ after before last item = true) →
      takeAll before wanted items rounds last = rest := by
    intro rest
    induction rest with
    | nil =>
      intro done split last rounds enough remaining
      obtain ⟨rounds, rfl⟩ := Nat.exists_eq_succ_of_ne_zero (Nat.pos_iff_ne_zero.mp enough)
      have spec := @first_of_spec _ before (fun item => wanted item && after before last item) items items orders
        (fun _ member => member) none nofun
      rw [takeAll]
      cases result : firstOf before (fun item => wanted item && after before last item) none items with
      | none => rfl
      | some first =>
        rw [result] at spec
        obtain ⟨member, ok, _⟩ := spec
        rw [Bool.and_eq_true] at ok
        exact absurd ((remaining first).mpr ⟨wanted_.mpr ⟨member, ok.1⟩, ok.2⟩) not_mem_nil
    | cons next rest ih =>
      intro done split last rounds enough remaining
      obtain ⟨rounds, rfl⟩ := Nat.exists_eq_succ_of_ne_zero (Nat.ne_zero_of_lt enough)
      have spec := @first_of_spec _ before (fun item => wanted item && after before last item) items items orders
        (fun _ member => member) none nofun
      have parts := ordered
      rw [← split, pairwise_append, pairwise_cons] at parts
      obtain ⟨_, ⟨later, _⟩, earlier⟩ := parts
      obtain ⟨inSorted, fresh⟩ := (remaining next).mp mem_cons_self
      have nextWanted := wanted_.mp inSorted
      rw [takeAll]
      cases result : firstOf before (fun item => wanted item && after before last item) none items with
      | none =>
        rw [result] at spec
        have passed := spec.2 next nextWanted.1
        rw [nextWanted.2, fresh] at passed
        cases passed
      | some first =>
        rw [result] at spec
        obtain ⟨member, ok, least⟩ := spec
        rw [Bool.and_eq_true] at ok
        have place : first ∈ next :: rest := (remaining first).mpr ⟨wanted_.mpr ⟨member, ok.1⟩, ok.2⟩
        have isNext : first = next := by
          rcases mem_cons.mp place with rfl | inRest
          · rfl
          have sooner := later first inRest
          rcases least next (.inl ⟨nextWanted.1, by rw [nextWanted.2, fresh]; rfl⟩) with rfl | first_
          · rfl
          have round := orders.trans _ _ _ sooner first_
          rw [orders.irrefl] at round
          cases round
        subst isNext
        dsimp only
        rw [ih (done ++ [first]) (by rw [append_assoc]; exact split) (some first) rounds
          (Nat.lt_of_succ_lt_succ enough) fun item => ?_]
        constructor
        · intro inRest
          exact ⟨((remaining item).mp (mem_cons_of_mem _ inRest)).1, later item inRest⟩
        rintro ⟨inSorted_, sooner⟩
        have sooner_ : before first item = true := sooner
        rw [← split] at inSorted_
        rcases mem_append.mp inSorted_ with inDone | inNext
        · have round := orders.trans _ _ _ sooner_ (earlier item inDone first mem_cons_self)
          rw [orders.irrefl] at round
          cases round
        rcases mem_cons.mp inNext with rfl | inRest
        · rw [orders.irrefl] at sooner_
          cases sooner_
        · exact inRest
  exact suffix sorted [] rfl none rounds enough fun item => ⟨fun member => ⟨member, rfl⟩, fun known => known.1⟩

section Ranked

variable (rank : Item → Nat) (earlier : Item → Item → Prop)

def Ranked (first second : Item) : Prop := rank second < rank first ∨ rank first = rank second ∧ earlier first second

variable {rank earlier}

theorem ordered_insert_ranked {item : Item} {items : List Item} (old : ∀ other ∈ items, earlier item other)
    (ordered : items.Pairwise (Ranked rank earlier)) :
    (items.orderedInsert (fun a b => rank b ≤ rank a) item).Pairwise (Ranked rank earlier) := by
  induction items with
  | nil => exact pairwise_singleton _ _
  | cons head items ih =>
    have parts := pairwise_cons.mp ordered
    rw [List.orderedInsert]
    split
    next high =>
      refine pairwise_cons.mpr ⟨fun other member => ?_, ordered⟩
      have lower : rank other ≤ rank item := by
        rcases mem_cons.mp member with rfl | later
        · exact high
        rcases parts.1 other later with less | ⟨same, _⟩
        · exact less.le.trans high
        · exact same ▸ high
      rcases lower.lt_or_eq with less | same
      · exact .inl less
      · exact .inr ⟨same.symm, old other member⟩
    rename_i low
    refine pairwise_cons.mpr ⟨fun other member => ?_, ih (fun other later => old other (mem_cons_of_mem _ later)) parts.2⟩
    rcases mem_orderedInsert (r := fun a b => rank b ≤ rank a) |>.mp member with rfl | later
    · exact .inl (Nat.lt_of_not_le low)
    · exact parts.1 other later

theorem insertion_sort_ranked {items : List Item} (aged : items.Pairwise earlier) :
    (items.insertionSort fun a b => rank b ≤ rank a).Pairwise (Ranked rank earlier) := by
  induction items with
  | nil => exact List.Pairwise.nil
  | cons item items ih =>
    have parts := pairwise_cons.mp aged
    rw [insertionSort_cons]
    apply ordered_insert_ranked _ (ih parts.2)
    intro other member
    exact parts.1 other ((mem_insertionSort _).mp member)

end Ranked

end ProvenC.Lib.Selecting
