import Mathlib

/-!
# A ring of positions

A bounded queue of many producers and many consumers. Positions are handed out without end and each lies
in the cell at its remainder by the capacity.
-/

namespace ProvenC.Lib.Ring

open Function

inductive Phase where
  | aimed
  | ready
  | writing
  | written
  | sent
  | sought
  | able
  | reading
  | holding
  | spending
deriving DecidableEq

inductive Side where
  | putting
  | getting
deriving DecidableEq

def Phase.side : Phase → Option Side
  | .writing | .written | .sent => some .putting
  | .reading | .holding | .spending => some .getting
  | _ => none

def Phase.filling : Phase → Bool
  | .writing | .written => true
  | _ => false

structure Queue (Thread Item : Type*) where
  enqueued : ℕ
  dequeued : ℕ
  sequence : ℕ → ℕ
  content : ℕ → Option (ℕ × Item)
  given : ℕ → Option Item
  stake : Thread → Option (Phase × ℕ)

variable {Thread Item : Type*}

def Queue.seq (queue : Queue Thread Item) (capacity p : ℕ) : ℕ := queue.sequence (p % capacity)

def Fits (capacity : ℕ) (queue : Queue Thread Item) : Phase → ℕ → Prop
  | .aimed, p => p ≤ queue.enqueued
  | .ready, p => p ≤ queue.enqueued ∧ p ≤ queue.seq capacity p
  | .writing, p => p < queue.enqueued ∧ queue.seq capacity p = p
  | .written, p => p < queue.enqueued ∧ queue.seq capacity p = p ∧
      ∃ item, queue.given p = some item ∧ queue.content (p % capacity) = some (p, item)
  | .sent, p => p < queue.enqueued
  | .sought, p => p ≤ queue.dequeued
  | .able, p => p ≤ queue.dequeued ∧ p < queue.seq capacity p
  | .reading, p => p < queue.dequeued ∧ queue.seq capacity p = p + 1
  | .holding, p => p < queue.dequeued ∧ queue.seq capacity p = p + 1
  | .spending, p => p < queue.dequeued

structure Sound (capacity : ℕ) (queue : Queue Thread Item) : Prop where
  order : queue.dequeued ≤ queue.enqueued
  laps : ∀ p, queue.seq capacity p ≤ p ∨ queue.seq capacity p = p + 1 ∨ p + capacity ≤ queue.seq capacity p
  opening : ∀ p < capacity, p ≤ queue.seq capacity p
  reached : ∀ p < queue.enqueued, p ≤ queue.seq capacity p
  claimed : ∀ p, p < queue.seq capacity p → p < queue.enqueued
  published : ∀ p < queue.dequeued, p < queue.seq capacity p
  left : ∀ p, p + capacity ≤ queue.seq capacity p → p < queue.dequeued
  held : ∀ p, queue.seq capacity p = p + 1 →
    ∃ item, queue.given p = some item ∧ queue.content (p % capacity) = some (p, item)
  owned : ∀ p < queue.enqueued, queue.seq capacity p = p →
    ∃ thread phase, queue.stake thread = some (phase, p) ∧ phase.filling = true
  fits : ∀ thread phase p, queue.stake thread = some (phase, p) → Fits capacity queue phase p
  apart : ∀ first second one other p side, queue.stake first = some (one, p) → queue.stake second = some (other, p) →
    one.side = some side → other.side = some side → first = second

theorem lap_apart {capacity p q : ℕ} (same : p % capacity = q % capacity) (less : p < q) : p + capacity ≤ q := by
  have divides : capacity ∣ q - p := (Nat.modEq_iff_dvd' (le_of_lt less)).mp same
  have atLeast := Nat.le_of_dvd (Nat.sub_pos_of_lt less) divides
  omega

theorem lap_cases {capacity p q : ℕ} (same : q % capacity = p % capacity) : q + capacity ≤ p ∨ q = p ∨ p + capacity ≤ q := by
  rcases Nat.lt_trichotomy q p with before | equal | after
  · exact .inl (lap_apart same before)
  · exact .inr (.inl equal)
  exact .inr (.inr (lap_apart same.symm after))

theorem not_next {capacity p q : ℕ} (two : 2 ≤ capacity) (same : p % capacity = q % capacity) : p ≠ q + 1 := by
  intro next
  have far := lap_apart same.symm (by omega)
  omega

theorem Queue.seq_eq (queue : Queue Thread Item) {capacity p q : ℕ} (same : p % capacity = q % capacity) :
    queue.seq capacity p = queue.seq capacity q := by
  rw [Queue.seq, Queue.seq, same]

namespace Sound

variable {capacity : ℕ} {queue : Queue Thread Item}

variable (sound : Sound capacity queue)
include sound

theorem within_lap (some : 0 < capacity) {p : ℕ} (next : p ≤ queue.enqueued) : p ≤ queue.seq capacity p + capacity := by
  by_cases first : p < capacity
  · omega
  have same : (p - capacity) % capacity = p % capacity := by
    have whole := Nat.add_mod_right (p - capacity) capacity
    rwa [Nat.sub_add_cancel (Nat.le_of_not_lt first), eq_comm] at whole
  have reached := sound.reached (p - capacity) (by omega)
  rw [queue.seq_eq same] at reached
  omega

theorem enqueued_le : queue.enqueued ≤ queue.dequeued + capacity := by
  by_contra far
  have last : queue.dequeued + capacity < queue.enqueued := by omega
  have reached := sound.reached _ last
  rw [queue.seq_eq (Nat.add_mod_right queue.dequeued capacity)] at reached
  exact lt_irrefl _ (sound.left queue.dequeued reached)

theorem last_position (some : 0 < capacity) {p : ℕ} (come : p ≤ queue.seq capacity p) :
    ∃ last, last % capacity = p % capacity ∧ p ≤ last ∧
      (queue.seq capacity p = last ∨ queue.seq capacity p = last + 1) := by
  let rest := (queue.seq capacity p - p) % capacity
  have small : rest < capacity := Nat.mod_lt _ some
  have within : rest ≤ queue.seq capacity p - p := Nat.mod_le _ _
  have whole := Nat.div_add_mod (queue.seq capacity p - p) capacity
  have place : queue.seq capacity p - rest = p + capacity * ((queue.seq capacity p - p) / capacity) := by omega
  have same : (queue.seq capacity p - rest) % capacity = p % capacity := by
    rw [place, Nat.add_mul_mod_self_left]
  refine ⟨queue.seq capacity p - rest, same, by omega, ?_⟩
  have laps := sound.laps (queue.seq capacity p - rest)
  rw [queue.seq_eq same] at laps
  omega

theorem seq_le (some : 0 < capacity) {p : ℕ} (come : p + 1 < queue.seq capacity p) :
    queue.seq capacity p ≤ queue.enqueued ∨ queue.seq capacity p < queue.dequeued + capacity := by
  obtain ⟨last, same, after, open_ | full⟩ := @last_position _ _ _ _ sound some p (by omega)
  · -- the lap before has left, so it was taken
    have far : p + capacity ≤ last := lap_apart same.symm (by omega)
    have before : (last - capacity) % capacity = p % capacity := by
      have whole := Nat.add_mod_right (last - capacity) capacity
      rw [Nat.sub_add_cancel (by omega)] at whole
      exact whole.symm.trans same
    have left := sound.left (last - capacity) (by rw [queue.seq_eq before]; omega)
    exact Or.inr (by omega)
  have claimed := sound.claimed last (by rw [queue.seq_eq same]; omega)
  exact Or.inl (by omega)

omit sound

end Sound

def Queue.position (queue : Queue Thread Item) (thread : Thread) : ℕ := ((queue.stake thread).map Prod.snd).getD 0

theorem Queue.position_of {queue : Queue Thread Item} {thread : Thread} {phase : Phase} {p : ℕ}
    (staked : queue.stake thread = some (phase, p)) : queue.position thread = p := by
  rw [Queue.position, staked]
  rfl

section Steps

variable [DecidableEq Thread]

def Queue.move (queue : Queue Thread Item) (thread : Thread) (stake : Option (Phase × ℕ)) : Queue Thread Item :=
  { queue with stake := Function.update queue.stake thread stake }

def Queue.advance (queue : Queue Thread Item) (thread : Thread) (phase : Phase) : Queue Thread Item :=
  queue.move thread ((queue.stake thread).map fun stake => (phase, stake.2))

def Queue.claim (queue : Queue Thread Item) (thread : Thread) (item : Item) : Queue Thread Item :=
  { queue with
    enqueued := queue.enqueued + 1
    given := Function.update queue.given queue.enqueued (some item)
    stake := Function.update queue.stake thread (some (.writing, queue.enqueued)) }

def Queue.take (queue : Queue Thread Item) (thread : Thread) : Queue Thread Item :=
  { queue with
    dequeued := queue.dequeued + 1
    stake := Function.update queue.stake thread (some (.reading, queue.dequeued)) }

def Queue.fill (capacity : ℕ) (queue : Queue Thread Item) (p : ℕ) (item : Item) : Queue Thread Item :=
  { queue with content := Function.update queue.content (p % capacity) (some (p, item)) }

def Queue.write (capacity : ℕ) (queue : Queue Thread Item) (thread : Thread) (item : Item) : Queue Thread Item :=
  (queue.fill capacity (queue.position thread) item).advance thread .written

def Queue.publish (capacity : ℕ) (queue : Queue Thread Item) (thread : Thread) : Queue Thread Item :=
  { queue with
    sequence := Function.update queue.sequence (queue.position thread % capacity) (queue.position thread + 1)
    stake := Function.update queue.stake thread (some (.sent, queue.position thread)) }

def Queue.release (capacity : ℕ) (queue : Queue Thread Item) (thread : Thread) : Queue Thread Item :=
  { queue with
    sequence := Function.update queue.sequence (queue.position thread % capacity) (queue.position thread + capacity)
    stake := Function.update queue.stake thread (some (.spending, queue.position thread)) }

@[simp] theorem Queue.move_self (queue : Queue Thread Item) (thread : Thread) (stake : Option (Phase × ℕ)) :
    (queue.move thread stake).stake thread = stake := by
  simp only [Queue.move, update_self]

theorem Queue.move_other (queue : Queue Thread Item) {thread other : Thread} (away : other ≠ thread)
    (stake : Option (Phase × ℕ)) : (queue.move thread stake).stake other = queue.stake other := by
  simp only [Queue.move, update_of_ne away]

@[simp] theorem fits_move {capacity : ℕ} {queue : Queue Thread Item} {thread : Thread}
    {stake : Option (Phase × ℕ)} {phase : Phase} {p : ℕ} :
    Fits capacity (queue.move thread stake) phase p ↔ Fits capacity queue phase p := by
  cases phase <;> exact Iff.rfl

theorem update_stake {stakes : Thread → Option (Phase × ℕ)} {thread other : Thread} {stake : Option (Phase × ℕ)}
    {found : Phase × ℕ} (staked : Function.update stakes thread stake other = some found) :
    other = thread ∧ stake = some found ∨ other ≠ thread ∧ stakes other = some found := by
  by_cases same : other = thread
  · subst same
    rw [update_self] at staked
    exact Or.inl ⟨rfl, staked⟩
  rw [update_of_ne same] at staked
  exact Or.inr ⟨same, staked⟩

namespace Sound

variable {capacity : ℕ} {queue : Queue Thread Item} {thread : Thread}

variable (sound : Sound capacity queue)
include sound

theorem apart_update {stake : Option (Phase × ℕ)}
    (keeps : ∀ phase p side, stake = some (phase, p) → phase.side = some side →
      ∀ other old, queue.stake other = some (old, p) → old.side = some side → other = thread) :
    ∀ first second one other p side, Function.update queue.stake thread stake first = some (one, p) →
      Function.update queue.stake thread stake second = some (other, p) →
      one.side = some side → other.side = some side → first = second := by
  intro first second one other p side staked staked' sided sided'
  obtain ⟨rfl, new⟩ | ⟨away, old⟩ := update_stake staked <;>
    obtain ⟨rfl, new'⟩ | ⟨away', old'⟩ := update_stake staked'
  · rfl
  · exact (keeps one p side new sided second other old' sided').symm
  · exact keeps other p side new' sided' first one old sided
  · exact sound.apart first second one other p side old old' sided sided'

theorem move {stake : Option (Phase × ℕ)} (fits : ∀ phase p, stake = some (phase, p) → Fits capacity queue phase p)
    (keeps : ∀ phase p side, stake = some (phase, p) → phase.side = some side →
      ∃ old, queue.stake thread = some (old, p) ∧ old.side = some side)
    (fills : ∀ old p, queue.stake thread = some (old, p) → old.filling = true → queue.seq capacity p = p →
      ∃ phase, stake = some (phase, p) ∧ phase.filling = true) : Sound capacity (queue.move thread stake) where
  order := sound.order
  laps := sound.laps
  opening := sound.opening
  reached := sound.reached
  claimed := sound.claimed
  published := sound.published
  left := sound.left
  held := sound.held
  owned := by
    intro p less here
    obtain ⟨owner, phase, staked, filling⟩ := sound.owned p less here
    by_cases same : owner = thread
    · subst same
      obtain ⟨phase', staked', filling'⟩ := fills phase p staked filling here
      exact ⟨owner, phase', (queue.move_self owner stake).trans staked', filling'⟩
    · exact ⟨owner, phase, (queue.move_other same stake).trans staked, filling⟩
  fits := by
    intro other phase p staked
    rw [fits_move]
    obtain ⟨-, new⟩ | ⟨-, old⟩ := update_stake staked
    · exact fits phase p new
    · exact sound.fits other phase p old
  apart := by
    apply sound.apart_update
    intro phase p side staked sided other old staked' sided'
    obtain ⟨before, had, sidedBefore⟩ := keeps phase p side staked sided
    exact sound.apart other thread old before p side staked' had sided' sidedBefore

theorem advance {old new : Phase} {p : ℕ} (staked : queue.stake thread = some (old, p))
    (fits : Fits capacity queue new p) (side : ∀ side, new.side = some side → old.side = some side)
    (fills : old.filling = true → queue.seq capacity p = p → new.filling = true) :
    Sound capacity (queue.advance thread new) := by
  rw [Queue.advance, staked]
  apply sound.move
  · intro phase q found
    cases found
    exact fits
  · intro phase q found isNew sided
    cases isNew
    exact ⟨old, staked, side found sided⟩
  intro before q was filling here
  rw [staked] at was
  cases was
  exact ⟨new, rfl, fills filling here⟩

theorem turn {stake : Option (Phase × ℕ)}
    (fits : ∀ phase p, stake = some (phase, p) → Fits capacity queue phase p ∧ phase.side = none)
    (free : ∀ old p, queue.stake thread = some (old, p) → old.filling = true → queue.seq capacity p ≠ p) :
    Sound capacity (queue.move thread stake) := by
  apply sound.move
  · exact fun phase p found => (fits phase p found).1
  · intro phase p side found sided
    rw [(fits phase p found).2] at sided
    cases sided
  intro old p staked filling here
  exact absurd here (free old p staked filling)

theorem claim {item : Item}
    (staked : queue.stake thread = some (.ready, queue.enqueued)) : Sound capacity (queue.claim thread item) := by
  have here : queue.seq capacity queue.enqueued = queue.enqueued := by
    have come := (sound.fits thread _ _ staked).2
    by_contra other
    exact lt_irrefl _ (sound.claimed queue.enqueued (by omega))
  exact
    { order := Nat.le_succ_of_le sound.order
      laps := sound.laps
      opening := sound.opening
      reached := by
        intro p less
        obtain before | last := Nat.lt_succ_iff_lt_or_eq.mp less
        · exact sound.reached p before
        rw [last]
        exact le_of_eq here.symm
      claimed := fun p less => Nat.lt_succ_of_lt (sound.claimed p less)
      published := sound.published
      left := sound.left
      held := by
        intro p full
        have before := sound.claimed p (by
          have same : queue.seq capacity p = p + 1 := full
          omega)
        obtain ⟨found, given, content⟩ := sound.held p full
        exact ⟨found, (update_of_ne (ne_of_lt before) _ _).trans given, content⟩
      owned := by
        intro p less empty
        obtain before | last := Nat.lt_succ_iff_lt_or_eq.mp less
        · obtain ⟨owner, phase, staked', filling⟩ := sound.owned p before empty
          have other : owner ≠ thread := by
            rintro rfl
            rw [staked] at staked'
            cases staked'
            cases filling
          exact ⟨owner, phase, (update_of_ne other _ _).trans staked', filling⟩
        subst last
        exact ⟨thread, .writing, update_self _ _ _, rfl⟩
      fits := by
        intro other phase p staked'
        obtain ⟨-, new⟩ | ⟨-, old⟩ := update_stake staked'
        · cases new
          exact ⟨Nat.lt_succ_self _, here⟩
        have fits := sound.fits other phase p old
        cases phase with
        | aimed => exact Nat.le_succ_of_le fits
        | ready => exact ⟨Nat.le_succ_of_le fits.1, fits.2⟩
        | writing => exact ⟨Nat.lt_succ_of_lt fits.1, fits.2⟩
        | written =>
          obtain ⟨found, given, content⟩ := fits.2.2
          exact ⟨Nat.lt_succ_of_lt fits.1, fits.2.1, found, (update_of_ne (ne_of_lt fits.1) _ _).trans given, content⟩
        | sent => exact Nat.lt_succ_of_lt fits
        | sought | able | reading | holding | spending => exact fits
      apart := by
        apply sound.apart_update
        intro phase p side new sided other old staked' sided'
        cases new
        cases sided
        have fits := sound.fits other old _ staked'
        cases old with
        | writing | written => exact absurd fits.1 (lt_irrefl _)
        | sent => exact absurd fits (lt_irrefl _)
        | aimed | ready | sought | able | reading | holding | spending => cases sided' }

theorem take (staked : queue.stake thread = some (.able, queue.dequeued)) : Sound capacity (queue.take thread) := by
  have come : queue.dequeued < queue.seq capacity queue.dequeued := (sound.fits thread _ _ staked).2
  have full : queue.seq capacity queue.dequeued = queue.dequeued + 1 := by
    have laps := sound.laps queue.dequeued
    have left := sound.left queue.dequeued
    omega
  exact
    { order := sound.claimed _ come
      laps := sound.laps
      opening := sound.opening
      reached := sound.reached
      claimed := sound.claimed
      published := by
        intro p less
        obtain before | last := Nat.lt_succ_iff_lt_or_eq.mp less
        · exact sound.published p before
        rw [last]
        exact come
      left := fun p gone => Nat.lt_succ_of_lt (sound.left p gone)
      held := sound.held
      owned := by
        intro p less empty
        obtain ⟨owner, phase, staked', filling⟩ := sound.owned p less empty
        have other : owner ≠ thread := by
          rintro rfl
          rw [staked] at staked'
          cases staked'
          cases filling
        exact ⟨owner, phase, (update_of_ne other _ _).trans staked', filling⟩
      fits := by
        intro other phase p staked'
        obtain ⟨-, new⟩ | ⟨-, old⟩ := update_stake staked'
        · cases new
          exact ⟨Nat.lt_succ_self _, full⟩
        have fits := sound.fits other phase p old
        cases phase with
        | sought => exact Nat.le_succ_of_le fits
        | able => exact ⟨Nat.le_succ_of_le fits.1, fits.2⟩
        | reading | holding => exact ⟨Nat.lt_succ_of_lt fits.1, fits.2⟩
        | spending => exact Nat.lt_succ_of_lt fits
        | aimed | ready | writing | written | sent => exact fits
      apart := by
        apply sound.apart_update
        intro phase p side new sided other old staked' sided'
        cases new
        cases sided
        have fits := sound.fits other old _ staked'
        cases old with
        | reading | holding => exact absurd fits.1 (lt_irrefl _)
        | spending => exact absurd fits (lt_irrefl _)
        | aimed | ready | writing | written | sent | sought | able => cases sided' }

theorem write {p : ℕ} {item : Item} (two : 2 ≤ capacity)
    (staked : queue.stake thread = some (.writing, p)) (given : queue.given p = some item) :
    Sound capacity (queue.write capacity thread item) := by
  have here := sound.fits thread _ _ staked
  have filled : Sound capacity (queue.fill capacity p item) :=
    { order := sound.order
      laps := sound.laps
      opening := sound.opening
      reached := sound.reached
      claimed := sound.claimed
      published := sound.published
      left := sound.left
      held := by
        intro q full
        have other : q % capacity ≠ p % capacity := by
          intro same
          have both : p = q + 1 := here.2.symm.trans ((queue.seq_eq same.symm).trans full)
          exact not_next two same.symm both
        obtain ⟨found, given', content⟩ := sound.held q full
        exact ⟨found, given', (update_of_ne other _ _).trans content⟩
      owned := sound.owned
      fits := by
        intro other phase q staked'
        have fits := sound.fits other phase q staked'
        cases phase with
        | written =>
          obtain ⟨less, empty, found, given', content⟩ := fits
          refine ⟨less, empty, found, given', ?_⟩
          by_cases same : q % capacity = p % capacity
          · have both : q = p := empty.symm.trans ((queue.seq_eq same).trans here.2)
            subst both
            have one := sound.apart other thread _ _ q .putting staked' staked rfl rfl
            subst one
            have clash := staked.symm.trans staked'
            cases clash
          · exact (update_of_ne same _ _).trans content
        | aimed | ready | writing | sent | sought | able | reading | holding | spending => exact fits
      apart := sound.apart }
  rw [Queue.write, Queue.position_of staked]
  apply filled.advance staked
  · exact ⟨here.1, here.2, item, given, update_self _ _ _⟩
  · exact fun side sided => sided
  · exact fun _ _ => rfl

omit sound

omit [DecidableEq Thread] in
theorem seq_update {after : Queue Thread Item} {p value : ℕ}
    (stored : after.sequence = Function.update queue.sequence (p % capacity) value) (q : ℕ) :
    q % capacity = p % capacity ∧ after.seq capacity q = value ∧ queue.seq capacity q = queue.seq capacity p ∨
      q % capacity ≠ p % capacity ∧ after.seq capacity q = queue.seq capacity q := by
  unfold Queue.seq
  rw [stored]
  by_cases same : q % capacity = p % capacity
  · rw [same, update_self]
    exact Or.inl ⟨rfl, rfl, rfl⟩
  rw [update_of_ne same]
  exact Or.inr ⟨same, rfl⟩

/-- A holder of the position `p` writes `value` over the `was` in its cell and keeps its side. -/
theorem pass (sound : Sound capacity queue) {after : Queue Thread Item} {old new : Phase} {side : Side} {p was value : ℕ}
    (staked : queue.stake thread = some (old, p)) (oldSide : old.side = some side) (newSide : new.side = some side)
    (stored : after = { queue with
      sequence := Function.update queue.sequence (p % capacity) value
      stake := Function.update queue.stake thread (some (new, p)) })
    (here : queue.seq capacity p = was) (onward : was ≤ value)
    (laps : ∀ q, q % capacity = p % capacity → value ≤ q ∨ value = q + 1 ∨ q + capacity ≤ value)
    (claimed : ∀ q, q % capacity = p % capacity → q < value → q < queue.enqueued)
    (left : ∀ q, q % capacity = p % capacity → q + capacity ≤ value → q < queue.dequeued)
    (held : ∀ q, q % capacity = p % capacity → value = q + 1 →
      ∃ item, queue.given q = some item ∧ queue.content (q % capacity) = some (q, item))
    (unowned : ∀ q < queue.enqueued, q % capacity = p % capacity → value ≠ q)
    (fits_ : ∀ phase q, q % capacity = p % capacity → after.seq capacity q = value → queue.seq capacity q = was →
      (phase.side = some side → q ≠ p) → Fits capacity queue phase q → Fits capacity after phase q)
    (newFits : Fits capacity after new p) : Sound capacity after := by
  have cells : ∀ q, q % capacity = p % capacity ∧ after.seq capacity q = value ∧ queue.seq capacity q = was ∨
      q % capacity ≠ p % capacity ∧ after.seq capacity q = queue.seq capacity q := by
    intro q
    rw [← here]
    exact seq_update (by rw [stored]) q
  subst stored
  exact
    { order := sound.order
      laps := by
        intro q
        obtain ⟨same, now, -⟩ | ⟨-, now⟩ := cells q
        · rw [now]
          exact laps q same
        rw [now]
        exact sound.laps q
      opening := by
        intro q first
        have opening := sound.opening q first
        obtain ⟨-, now, was⟩ | ⟨-, now⟩ := cells q <;> omega
      reached := by
        intro q taken
        have reached := sound.reached q taken
        obtain ⟨-, now, was⟩ | ⟨-, now⟩ := cells q <;> omega
      claimed := by
        intro q come
        obtain ⟨same, now, -⟩ | ⟨-, now⟩ := cells q
        · exact claimed q same (by omega)
        · exact sound.claimed q (by omega)
      published := by
        intro q taken
        have published := sound.published q taken
        obtain ⟨-, now, was⟩ | ⟨-, now⟩ := cells q <;> omega
      left := by
        intro q gone
        obtain ⟨same, now, -⟩ | ⟨-, now⟩ := cells q
        · exact left q same (by omega)
        · exact sound.left q (by omega)
      held := by
        intro q full
        obtain ⟨same, now, -⟩ | ⟨-, now⟩ := cells q
        · exact held q same (now.symm.trans full)
        · exact sound.held q (by omega)
      owned := by
        intro q taken empty
        obtain ⟨same, now, -⟩ | ⟨other, now⟩ := cells q
        · exact absurd (now.symm.trans empty) (unowned q taken same)
        obtain ⟨owner, phase, staked', filling⟩ := sound.owned q taken (by omega)
        have away : owner ≠ thread := by
          rintro rfl
          have clash := staked.symm.trans staked'
          cases clash
          exact other rfl
        exact ⟨owner, phase, (update_of_ne away _ _).trans staked', filling⟩
      fits := by
        intro other phase q staked'
        obtain ⟨-, new⟩ | ⟨away, old⟩ := update_stake staked'
        · cases new
          exact newFits
        have fits := sound.fits other phase q old
        obtain ⟨same, now, was⟩ | ⟨-, now⟩ := cells q
        · refine fits_ phase q same now was ?_ fits
          rintro sided rfl
          exact away (sound.apart other thread phase _ q side old staked sided oldSide)
        cases phase with
        | aimed | sent | sought | spending => exact fits
        | ready | able | writing | reading | holding => exact ⟨fits.1, by have := fits.2; omega⟩
        | written => exact ⟨fits.1, now.trans fits.2.1, fits.2.2⟩
      apart := by
        apply sound.apart_update
        intro phase q side' new' sided other old' staked' sided'
        cases new'
        cases newSide.symm.trans sided
        exact sound.apart other thread old' _ p side staked' staked sided' oldSide }

theorem publish (sound : Sound capacity queue) {p : ℕ} (two : 2 ≤ capacity)
    (staked : queue.stake thread = some (.written, p)) : Sound capacity (queue.publish capacity thread) := by
  have at_ := Queue.position_of staked
  obtain ⟨less, here, item, given, content⟩ := sound.fits thread _ _ staked
  apply pass sound staked rfl rfl (by rw [Queue.publish, at_]) here (Nat.le_succ p)
  · intro q same
    have laps := lap_cases same
    omega
  · exact fun q _ before => lt_of_le_of_lt (Nat.le_of_lt_succ before) less
  · intro q same gone
    have next : q + capacity ≠ p + 1 := not_next two ((Nat.add_mod_right q capacity).trans same)
    exact sound.left q (by rw [queue.seq_eq same]; omega)
  · intro q _ full
    cases Nat.succ.inj full
    exact ⟨item, given, content⟩
  · exact fun q _ same => (not_next two same).symm
  · intro phase q same now was mine fits
    cases phase with
    | aimed | sent | sought | spending => exact fits
    | ready | able => exact ⟨fits.1, by have := fits.2; omega⟩
    | writing => exact absurd (fits.2.symm.trans was) (mine rfl)
    | written => exact absurd (fits.2.1.symm.trans was) (mine rfl)
    | reading | holding => exact absurd (was.symm.trans fits.2) (not_next two same.symm)
  exact less

theorem release (sound : Sound capacity queue) {p : ℕ} (two : 2 ≤ capacity)
    (staked : queue.stake thread = some (.holding, p)) : Sound capacity (queue.release capacity thread) := by
  have at_ := Queue.position_of staked
  obtain ⟨less, here⟩ := sound.fits thread _ _ staked
  apply pass sound staked rfl rfl (by rw [Queue.release, at_]) here (Nat.add_le_add_left (by omega) p)
  · intro q same
    have laps := lap_cases same
    omega
  · intro q same before
    have within : q ≤ p := by
      by_contra after
      have far := lap_apart same.symm (by omega)
      omega
    exact lt_of_le_of_lt within (lt_of_lt_of_le less sound.order)
  · exact fun q _ gone => lt_of_le_of_lt (Nat.le_of_add_le_add_right gone) less
  · exact fun q same full => absurd full (not_next two ((Nat.add_mod_right p capacity).trans same.symm))
  · intro q claimed same equal
    have reached := sound.reached q claimed
    rw [queue.seq_eq same] at reached
    omega
  · intro phase q same now was mine fits
    cases phase with
    | aimed | sent | sought | spending => exact fits
    | ready | able => exact ⟨fits.1, by have := fits.2; omega⟩
    | writing => exact absurd (fits.2.symm.trans was) (not_next two same)
    | written => exact absurd (fits.2.1.symm.trans was) (not_next two same)
    | reading | holding => exact absurd (Nat.succ.inj (fits.2.symm.trans was)) (mine rfl)
  exact less

end Sound

end Steps

def start : Queue Thread Item :=
  { enqueued := 0, dequeued := 0, sequence := id, content := fun _ => none, given := fun _ => none,
    stake := fun _ => none }

theorem sound_start {capacity : ℕ} (two : 2 ≤ capacity) : Sound capacity (start : Queue Thread Item) where
  order := le_refl 0
  laps := fun p => Or.inl (Nat.mod_le p capacity)
  opening := fun p first => le_of_eq (Nat.mod_eq_of_lt first).symm
  reached := fun p less => absurd less (Nat.not_lt_zero p)
  claimed := fun p less => absurd less (Nat.not_lt_of_le (Nat.mod_le p capacity))
  published := fun p less => absurd less (Nat.not_lt_zero p)
  left := by
    intro p gone
    have small : p % capacity ≤ p := Nat.mod_le p capacity
    have gone' : p + capacity ≤ p % capacity := gone
    omega
  held := by
    intro p full
    have small : p % capacity ≤ p := Nat.mod_le p capacity
    have full' : p % capacity = p + 1 := full
    omega
  owned := fun p less => absurd less (Nat.not_lt_zero p)
  fits := by
    intro thread phase p staked
    cases staked
  apart := by
    intro first second one other p side staked
    cases staked

def distance (range from_ word : ℕ) : ℕ := (word + range - from_) % range

theorem distance_ahead {range p q : ℕ} (ahead : p ≤ q) (near : q < p + range) :
    distance range (p % range) (q % range) = q - p := by
  have some : 0 < range := by omega
  have small := Nat.mod_lt p some
  have wholeP := Nat.div_add_mod p range
  have wholeQ := Nat.div_add_mod q range
  unfold distance
  have moved : q % range + range - p % range + range * (q / range) = q - p + range * (p / range + 1) := by
    rw [mul_add, mul_one]
    omega
  have same := congrArg (· % range) moved
  simp only [Nat.add_mul_mod_self_left] at same
  rw [same]
  exact Nat.mod_eq_of_lt (by omega)

theorem distance_behind {range p q : ℕ} (behind : q < p) (near : p ≤ q + range) :
    distance range (p % range) (q % range) = q + range - p := by
  have ahead := @distance_ahead range p (q + range) near (by omega)
  rwa [Nat.add_mod_right] at ahead

end ProvenC.Lib.Ring
