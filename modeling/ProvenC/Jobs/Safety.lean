import ProvenC.Lib.Runs
import ProvenC.Jobs.Leaving

/-!
# The job queue is safe

Over every interleaving in which no call stays open too long: a job is taken once and as it was
submitted, no cell is written while it is read, a submitter is turned away only by a job that had
not left its cell, no group's count falls short, and a worker that has left its loop left nothing
behind.
-/

namespace ProvenC.Jobs.Safety

open Lib.Runs
open Lib.Ring (Queue Phase Side Sound Fits)
open Jobs.Queue Jobs.Words Jobs.Watching Jobs.Following Jobs.Counting
open Jobs.Groups Jobs.Leaving

variable {Thread : Type*} [DecidableEq Thread] {bits capacity : ℕ}

structure Kept (bits capacity : ℕ) (watched : Watched Thread) : Prop where
  follows : Follows bits capacity watched
  admits : Admits bits watched
  balanced : Balanced watched
  leaves : Leaves bits watched

theorem kept_step (shape : Shape bits capacity) {watched : Watched Thread} (kept : Kept bits capacity watched)
    (brisk : Brisk (signBit bits + 1 - capacity) watched) (move : Thread × Act) :
    Kept bits capacity (next bits watched move) where
  follows := step_follows shape kept.follows brisk move
  admits := admits_step shape kept.admits move
  balanced := balanced_step kept.follows kept.balanced move
  leaves := leaves_step shape kept.follows kept.admits brisk kept.leaves move

/-- A run begins where `proven_job_system_init` leaves the queue. -/
def begin (sys : Sys Thread) : Watched Thread := { sys := sys, ledger := blank }

omit [DecidableEq Thread] in
theorem shape_of_capacity (two : 2 ≤ capacity) (power : capacity &&& (capacity - 1) = 0)
    (most : capacity ≤ maxCapacity bits) : Shape bits capacity := by
  obtain ⟨exponent, rfl⟩ := (Nat.and_sub_one_eq_zero_iff_isPowerOfTwo (by omega)).mp power
  have quarter : 2 * 2 ^ exponent ≤ signBit bits := by
    rw [maxCapacity] at most
    omega
  have less : exponent ≤ bits - 1 := by
    by_contra far
    have grown : signBit bits < 2 ^ exponent := Nat.pow_lt_pow_right (by decide) (Nat.lt_of_not_le far)
    omega
  exact
    { two := two
      quarter := quarter
      divides := Nat.pow_dvd_pow 2 (less.trans (Nat.sub_le bits 1))
      masked := fun pos => Nat.and_two_pow_sub_one_eq_mod pos exponent }

theorem init_made {workers : Finset Thread} {sys : Sys Thread} (made : jobSystemInit bits workers capacity = some sys) :
    Shape bits capacity ∧ sys = newSys workers capacity := by
  unfold jobSystemInit at made
  split at made
  · cases made
  rename_i fine
  rw [not_or, not_or, not_not] at fine
  split at made
  · cases made
  rename_i most
  exact ⟨shape_of_capacity (by omega) fine.2.1 (by omega), (Option.some.inj made).symm⟩

theorem new_place (workers : Finset Thread) (thread : Thread) :
    (newSys workers capacity).place thread = .parked ∨ (newSys workers capacity).place thread = .idle := by
  change (if thread ∈ workers then Place.parked else Place.idle) = _ ∨ _
  split
  · exact Or.inl rfl
  rename_i outside
  exact Or.inr (if_neg outside)

theorem kept_begin (shape : Shape bits capacity) (workers : Finset Thread) :
    Kept bits capacity (begin (newSys workers capacity)) := by
  have places := @new_place _ _ capacity workers
  have two := shape.two
  have lawful : Lawful capacity (blank : Ledger Thread) :=
    { sound := ProvenC.Lib.Ring.sound_start two
      since := fun _ => ⟨le_refl 0, le_refl 0⟩
      aims := nofun
      seeks := nofun
      taken := nofun
      takenOnce := List.nodup_nil
      unread := nofun
      accepted := nofun
      acceptedOnce := List.nodup_nil
      unaccepted := nofun
      left := nofun
      finished := nofun
      unfinished := nofun }
  have small : ∀ i < capacity, i = i % 2 ^ bits := by
    intro i less
    have within := Nat.le_of_dvd (Nat.two_pow_pos bits) shape.divides
    exact (Nat.mod_eq_of_lt (by omega)).symm
  refine ⟨⟨lawful, ?_, ?_⟩, ⟨?_, ?_, ?_⟩, ⟨?_, ?_⟩, ⟨?_, ?_, ?_⟩⟩
  · exact
      { mask := Nat.sub_add_cancel (by omega)
        enqueue := (Nat.zero_mod _).symm
        dequeue := (Nat.zero_mod _).symm
        sequence := small
        content := nofun }
  · intro thread
    obtain place | place := places thread <;> rw [begin, place] <;> rfl
  · exact Nat.two_pow_pos bits
  · exact Nat.zero_mod _
  · intro thread
    obtain place | place := places thread <;> rw [begin, place] <;> exact ⟨nofun, nofun⟩
  · intro group
    rfl
  · intro group thread
    obtain place | place := places thread <;> rw [begin, place] <;> exact ⟨nofun, nofun⟩
  · intro thread
    obtain place | place := places thread <;> rw [begin, place] <;> nofun
  · intro thread _
    rfl
  intro thread _
  exact le_refl 0

def writesAt (sys : Sys Thread) (thread : Thread) : Option ℕ :=
  match sys.place thread with
  | .submitting _ (.writing pos) | .submitting _ (.publishing pos) => some (pos &&& sys.bufferMask)
  | _ => none

def readsAt (sys : Sys Thread) (thread : Thread) : Option ℕ :=
  match sys.place thread with
  | .executing _ (.reading pos) | .executing _ (.releasing pos _) => some (pos &&& sys.bufferMask)
  | _ => none

def countsDown (sys : Sys Thread) (thread : Thread) : Option ℕ :=
  match sys.place thread with
  | .submitting _ (.uncounting group) => some group
  | .executing _ (.finishing job) => job.group
  | _ => none

structure Safe (watched : Watched Thread) : Prop where
  once : (watched.ledger.taken.map Prod.fst).Nodup
  submitted : ∀ entry ∈ watched.ledger.taken, ∃ p, entry.1 = some p ∧ watched.ledger.queue.given p = some entry.2
  acceptedOnce : (watched.ledger.accepted.map Prod.fst).Nodup
  told : ∀ p job found, (p, job) ∈ watched.ledger.accepted → (some p, found) ∈ watched.ledger.taken → found = job
  apart : ∀ writer reader cell, writesAt watched.sys writer = some cell → readsAt watched.sys reader ≠ some cell
  alone : ∀ first second cell, writesAt watched.sys first = some cell → writesAt watched.sys second = some cell →
    first = second
  pending : ∀ group, unfinished watched.ledger group ≤ watched.sys.pending group
  positive : ∀ thread group, countsDown watched.sys thread = some group → 0 < watched.sys.pending group
  drained : ∀ thread, leftAt (watched.sys.place thread) = true →
    ∀ entry ∈ watched.ledger.accepted, entry.1 < watched.ledger.queue.dequeued

/-- The step in which a submitter finds the queue full, to answer `PROVEN_ERR_AGAIN`. -/
def TurnsAway (bits : ℕ) (watched : Watched Thread) (thread : Thread) (act : Act) : Prop :=
  ∃ job pos, watched.sys.place thread = .submitting job (.comparing pos) ∧
    (step bits watched.sys thread act).1.place thread = .submitting job .refusing

/-- The job claimed `capacity` positions before the thread's has not left its cell. -/
def Full (capacity : ℕ) (watched : Watched Thread) (thread : Thread) : Prop :=
  capacity ≤ watched.ledger.queue.position thread ∧
    watched.ledger.queue.position thread - capacity < watched.ledger.queue.enqueued ∧
    watched.ledger.queue.position thread - capacity ∉ watched.ledger.left

section Laws

variable {watched : Watched Thread}

omit [DecidableEq Thread] in
theorem writes_stake (shape : Shape bits capacity) (follows : Follows bits capacity watched) {thread : Thread} {cell : ℕ}
    (writes : writesAt watched.sys thread = some cell) :
    ∃ phase p, watched.ledger.queue.stake thread = some (phase, p) ∧ phase.side = some .putting ∧
      cell = p % capacity ∧ watched.ledger.queue.seq capacity p = p := by
  have matched := follows.places thread
  unfold writesAt at writes
  split at writes <;> rename_i here
  · cases writes
    rw [here] at matched
    obtain ⟨p, staked, rfl, -⟩ := matched
    exact ⟨_, p, staked, rfl, masked shape follows p, (follows.lawful.sound.fits thread _ _ staked).2⟩
  · cases writes
    rw [here] at matched
    obtain ⟨p, staked, rfl, -⟩ := matched
    exact ⟨_, p, staked, rfl, masked shape follows p, (follows.lawful.sound.fits thread _ _ staked).2.1⟩
  · cases writes

omit [DecidableEq Thread] in
theorem reads_stake (shape : Shape bits capacity) (follows : Follows bits capacity watched) {thread : Thread} {cell : ℕ}
    (reads : readsAt watched.sys thread = some cell) :
    ∃ p, cell = p % capacity ∧ watched.ledger.queue.seq capacity p = p + 1 := by
  have matched := follows.places thread
  unfold readsAt at reads
  split at reads <;> rename_i here
  · cases reads
    rw [here] at matched
    obtain ⟨p, staked, rfl⟩ := matched
    exact ⟨p, masked shape follows p, (follows.lawful.sound.fits thread _ _ staked).2⟩
  · cases reads
    rw [here] at matched
    obtain ⟨p, staked, rfl, -⟩ := matched
    exact ⟨p, masked shape follows p, (follows.lawful.sound.fits thread _ _ staked).2⟩
  · cases reads

omit [DecidableEq Thread] in
theorem counts_down (follows : Follows bits capacity watched) (balanced : Balanced watched) {thread : Thread} {group : ℕ}
    (counts : countsDown watched.sys thread = some group) : 0 < watched.sys.pending group := by
  have matched := follows.places thread
  rw [balanced.count]
  unfold countsDown at counts
  split at counts <;> rename_i here
  · cases counts
    have owes := (balanced.owing group thread).mpr (by rw [here]; rfl)
    have some := Finset.card_pos.mpr ⟨thread, owes⟩
    omega
  · rw [here] at matched
    obtain ⟨p, staked, given⟩ := matched
    have mem : p ∈ unsettled watched.ledger group := by
      rw [mem_unsettled]
      refine ⟨claimed_of_side follows.lawful.sound staked rfl, ?_, follows.lawful.unfinished thread _ p staked rfl⟩
      rw [groupAt, given]
      exact counts
    have some := Finset.card_pos.mpr ⟨p, mem⟩
    omega
  · cases counts

omit [DecidableEq Thread] in
theorem safe_of_kept (shape : Shape bits capacity) (kept : Kept bits capacity watched) : Safe watched := by
  have lawful := kept.follows.lawful
  have sound := lawful.sound
  exact
    { once := lawful.takenOnce
      submitted := by
        intro entry mem
        obtain ⟨p, ticket, -, given⟩ := lawful.taken entry mem
        exact ⟨p, ticket, given⟩
      acceptedOnce := lawful.acceptedOnce
      told := by
        intro p job found accepted taken
        have given := (lawful.accepted _ accepted).2
        obtain ⟨q, ticket, -, given'⟩ := lawful.taken _ taken
        cases ticket
        exact Option.some.inj (given'.symm.trans given)
      apart := by
        intro writer reader cell writes reads
        obtain ⟨-, p, -, -, at_, here⟩ := writes_stake shape kept.follows writes
        obtain ⟨q, at_', there⟩ := reads_stake shape kept.follows reads
        have same : p % capacity = q % capacity := at_.symm.trans at_'
        rw [watched.ledger.queue.seq_eq same] at here
        exact ProvenC.Lib.Ring.not_next shape.two same (here.symm.trans there)
      alone := by
        intro first second cell writes writes'
        obtain ⟨one, p, staked, sided, at_, here⟩ := writes_stake shape kept.follows writes
        obtain ⟨other, q, staked', sided', at_', there⟩ := writes_stake shape kept.follows writes'
        have same : p % capacity = q % capacity := at_.symm.trans at_'
        rw [watched.ledger.queue.seq_eq same] at here
        cases here.symm.trans there
        exact sound.apart first second one other p .putting staked staked' sided sided'
      pending := by
        intro group
        have within := unfinished_le watched.ledger lawful group
        rw [kept.balanced.count]
        omega
      positive := fun thread group counts => counts_down kept.follows kept.balanced counts
      drained := by
        intro thread left entry mem
        exact (lawful.accepted entry mem).1.trans_le (kept.leaves.drained thread left) }

theorem full_of_turned (shape : Shape bits capacity) (kept : Kept bits capacity watched)
    (brisk : Brisk (signBit bits + 1 - capacity) watched) {thread : Thread} {act : Act}
    (turned : TurnsAway bits watched thread act) : Full capacity watched thread := by
  obtain ⟨job, pos, here, there⟩ := turned
  have matched := kept.follows.places thread
  have pace := brisk thread (by rw [here]; rfl)
  rw [here] at matched
  obtain ⟨p, staked, rfl⟩ := matched
  have lawful := kept.follows.lawful
  have sound := lawful.sound
  have since := lawful.aims thread _ _ staked (Or.inl rfl)
  have aim : p ≤ watched.ledger.queue.enqueued := sound.fits thread _ _ staked
  have two := shape.two
  unfold step at there
  rw [here] at there
  unfold submitStep at there
  dsimp only at there
  rw [submit_look shape kept.follows aim (by omega)] at there
  have behind : watched.ledger.queue.seq capacity p < p := by
    by_contra come
    rw [if_neg come] at there
    split at there <;> rename_i state
    · rw [moved_place] at there
      cases there
    · split at state <;> cases state
    rw [moved_place] at there
    cases there
  have lap : capacity ≤ p := by
    by_contra first
    have opening := sound.opening p (by omega)
    omega
  have same : (p - capacity) % capacity = p % capacity := by
    have whole := Nat.add_mod_right (p - capacity) capacity
    rwa [Nat.sub_add_cancel lap, eq_comm] at whole
  rw [Full, ProvenC.Lib.Ring.Queue.position_of staked]
  refine ⟨lap, by omega, ?_⟩
  intro left
  have gone := lawful.left _ left
  rw [watched.ledger.queue.seq_eq same] at gone
  omega

end Laws

/-- In every run of any number of threads in which no call stays open while a counter goes on by
more than half its range less the capacity, the queue is safe at the end, and whoever is turned
away next is turned away by a full queue. -/
theorem job_queue_safe {workers : Finset Thread} {sys : Sys Thread}
    (made : jobSystemInit bits workers capacity = some sys) (moves : List (Thread × Act))
    (brisk : Along (next bits) (fun watched _ => Brisk (signBit bits + 1 - capacity) watched) (begin sys) moves) :
    Safe (run (next bits) (begin sys) moves) ∧ (Brisk (signBit bits + 1 - capacity) (run (next bits) (begin sys) moves) →
        ∀ thread act, TurnsAway bits (run (next bits) (begin sys) moves) thread act →
          Full capacity (run (next bits) (begin sys) moves) thread) := by
  obtain ⟨shape, rfl⟩ := init_made made
  have kept : Kept bits capacity (run (next bits) (begin (newSys workers capacity)) moves) :=
    @run_keeps _ _ _ _ (Kept bits capacity) (fun _ move kept brisk => kept_step shape kept brisk move) _ _
      (kept_begin shape workers) brisk
  exact ⟨safe_of_kept shape kept, fun brisk thread act turned => full_of_turned shape kept brisk turned⟩

theorem job_queue_safe_submitting : ∃ sys : Sys (Fin 3), jobSystemInit 64 {2} 2 = some sys ∧
      Safe (run (next 64) (begin sys)
        [(0, .submit { routine := some 1, arg := 2, group := some 3 }), (1, .execute), (0, .go), (1, .go)]) := by
  have made : jobSystemInit 64 ({2} : Finset (Fin 3)) 2 = some (newSys {2} 2) := by
    rw [jobSystemInit, if_neg (by decide), if_neg (by decide)]
  refine ⟨newSys {2} 2, made, (job_queue_safe made _ ?_).1⟩
  refine ⟨?_, ?_, ?_, ?_, along_nil _⟩ <;> unfold Brisk <;> decide +kernel

end ProvenC.Jobs.Safety
