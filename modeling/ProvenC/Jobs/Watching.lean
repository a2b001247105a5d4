import ProvenC.Jobs.Words

/-!
# Watching a job queue

What someone who sees every step writes down beside the queue: the positions as numbers without end, who
is at which, what was given, taken, accepted and finished.
-/

namespace ProvenC.Jobs.Watching

open Lib.Ring (Queue Phase Side Sound Fits)
open List Jobs.Queue

structure Ledger (Thread : Type*) where
  queue : Queue Thread Job
  since : Thread → ℕ × ℕ
  taken : List (Option ℕ × Job)
  /-- The submissions that returned `PROVEN_OK`. -/
  accepted : List (ℕ × Job)
  left : List ℕ
  finished : List ℕ
  admitted : Finset Thread
  owing : ℕ → Finset Thread

variable {Thread : Type*}

namespace Ledger

def setQueue (ledger : Ledger Thread) (queue : Queue Thread Job) : Ledger Thread := { ledger with queue := queue }

def ticket (ledger : Ledger Thread) (capacity : ℕ) (thread : Thread) : Option ℕ :=
  (ledger.queue.content (ledger.queue.position thread % capacity)).map Prod.fst

def notesTaken (ledger : Ledger Thread) (ticket : Option ℕ) (job : Job) : Ledger Thread :=
  { ledger with taken := (ticket, job) :: ledger.taken }

def notesAccepted (ledger : Ledger Thread) (p : ℕ) (job : Job) : Ledger Thread :=
  { ledger with accepted := (p, job) :: ledger.accepted }

def notesLeft (ledger : Ledger Thread) (p : ℕ) : Ledger Thread := { ledger with left := p :: ledger.left }

def notesFinished (ledger : Ledger Thread) (p : ℕ) : Ledger Thread :=
  { ledger with finished := p :: ledger.finished }

variable [DecidableEq Thread]

def begins (ledger : Ledger Thread) (thread : Thread) : Ledger Thread :=
  { ledger with
    since := Function.update ledger.since thread (ledger.queue.enqueued, ledger.queue.dequeued) }

@[simp] theorem begins_self (ledger : Ledger Thread) (thread : Thread) :
    (ledger.begins thread).since thread = (ledger.queue.enqueued, ledger.queue.dequeued) := by
  simp only [begins, Function.update_self]

theorem begins_other (ledger : Ledger Thread) {thread other : Thread} (away : other ≠ thread) :
    (ledger.begins thread).since other = ledger.since other := by
  simp only [begins, Function.update_of_ne away]

def admits (ledger : Ledger Thread) (thread : Thread) : Ledger Thread :=
  { ledger with admitted := insert thread ledger.admitted }

def departs (ledger : Ledger Thread) (thread : Thread) : Ledger Thread :=
  { ledger with admitted := ledger.admitted.erase thread }

def owes (ledger : Ledger Thread) (thread : Thread) (group : ℕ) : Ledger Thread :=
  { ledger with owing := Function.update ledger.owing group (insert thread (ledger.owing group)) }

def pays (ledger : Ledger Thread) (thread : Thread) : Ledger Thread :=
  { ledger with owing := fun group => (ledger.owing group).erase thread }

def record (capacity : ℕ) (ledger : Ledger Thread) (thread : Thread) : Event → Ledger Thread
  | .quiet => ledger
  | .began => ledger.begins thread
  | .counted group => ledger.owes thread group
  | .uncounted _ => ledger.pays thread
  | .admitted => ledger.admits thread
  | .departed => ledger.departs thread
  | .aimed => ledger.setQueue (ledger.queue.move thread (some (.aimed, ledger.queue.enqueued)))
  | .sought => ledger.setQueue (ledger.queue.move thread (some (.sought, ledger.queue.dequeued)))
  | .fitted => ledger.setQueue (ledger.queue.advance thread .ready)
  | .spotted => ledger.setQueue (ledger.queue.advance thread .able)
  | .dropped => ledger.setQueue (ledger.queue.move thread none)
  | .claimed job => (ledger.setQueue (ledger.queue.claim thread job)).pays thread
  | .wrote job => ledger.setQueue (ledger.queue.write capacity thread job)
  | .published => ledger.setQueue (ledger.queue.publish capacity thread)
  | .accepted job =>
    ((ledger.setQueue (ledger.queue.move thread none)).notesAccepted (ledger.queue.position thread) job).departs thread
  | .took => ledger.setQueue (ledger.queue.take thread)
  | .read job => (ledger.setQueue (ledger.queue.advance thread .holding)).notesTaken (ledger.ticket capacity thread) job
  | .released => (ledger.setQueue (ledger.queue.release capacity thread)).notesLeft (ledger.queue.position thread)
  | .finished _ =>
    ((ledger.setQueue (ledger.queue.move thread none)).notesFinished (ledger.queue.position thread)).begins thread

end Ledger

def blank : Ledger Thread where
  queue := ProvenC.Lib.Ring.start
  since := fun _ => (0, 0)
  taken := []
  accepted := []
  left := []
  finished := []
  admitted := ∅
  owing := fun _ => ∅

structure Watched (Thread : Type*) where
  sys : Sys Thread
  ledger : Ledger Thread

def next [DecidableEq Thread] (bits : ℕ) (watched : Watched Thread) (move : Thread × Act) : Watched Thread where
  sys := (step bits watched.sys move.1 move.2).1
  ledger := watched.ledger.record (watched.sys.bufferMask + 1) move.1 (step bits watched.sys move.1 move.2).2

/-- The thread is inside a `job_submit` or a `proven_job_execute_one`. -/
def inside : Place → Bool
  | .submitting _ _ | .executing _ _ => true
  | _ => false

/-- No thread has stayed inside one call while a counter went on by `bound`. -/
def Brisk (bound : ℕ) (watched : Watched Thread) : Prop :=
  ∀ thread, inside (watched.sys.place thread) = true →
    watched.ledger.queue.enqueued < (watched.ledger.since thread).1 + bound ∧
      watched.ledger.queue.dequeued < (watched.ledger.since thread).2 + bound

structure Lawful (capacity : ℕ) (ledger : Ledger Thread) : Prop where
  sound : Sound capacity ledger.queue
  since : ∀ thread, (ledger.since thread).1 ≤ ledger.queue.enqueued ∧ (ledger.since thread).2 ≤ ledger.queue.dequeued
  aims : ∀ thread phase p, ledger.queue.stake thread = some (phase, p) →
    phase = .aimed ∨ phase = .ready → (ledger.since thread).1 ≤ p
  seeks : ∀ thread phase p, ledger.queue.stake thread = some (phase, p) →
    phase = .sought ∨ phase = .able → (ledger.since thread).2 ≤ p
  taken : ∀ entry ∈ ledger.taken, ∃ p, entry.1 = some p ∧ p < ledger.queue.dequeued ∧ ledger.queue.given p = some entry.2
  takenOnce : (ledger.taken.map Prod.fst).Nodup
  unread : ∀ thread p, ledger.queue.stake thread = some (.reading, p) → some p ∉ ledger.taken.map Prod.fst
  accepted : ∀ entry ∈ ledger.accepted, entry.1 < ledger.queue.enqueued ∧ ledger.queue.given entry.1 = some entry.2
  acceptedOnce : (ledger.accepted.map Prod.fst).Nodup
  unaccepted : ∀ thread phase p, ledger.queue.stake thread = some (phase, p) → phase.side = some .putting →
    p ∉ ledger.accepted.map Prod.fst
  left : ∀ p ∈ ledger.left, p + capacity ≤ ledger.queue.seq capacity p
  finished : ∀ p ∈ ledger.finished, p < ledger.queue.dequeued
  unfinished : ∀ thread phase p, ledger.queue.stake thread = some (phase, p) → phase.side = some .getting →
    p ∉ ledger.finished

structure Grown (capacity : ℕ) (before after : Queue Thread Job) : Prop where
  enqueued : before.enqueued ≤ after.enqueued
  dequeued : before.dequeued ≤ after.dequeued
  seq : ∀ p, before.seq capacity p ≤ after.seq capacity p
  given : ∀ p < before.enqueued, after.given p = before.given p

theorem grown_refl {capacity : ℕ} {before after : Queue Thread Job} (enqueued : after.enqueued = before.enqueued)
    (dequeued : after.dequeued = before.dequeued) (sequence : after.sequence = before.sequence)
    (given : after.given = before.given) : Grown capacity before after where
  enqueued := le_of_eq enqueued.symm
  dequeued := le_of_eq dequeued.symm
  seq := by
    intro p
    unfold ProvenC.Lib.Ring.Queue.seq
    rw [sequence]
  given := by
    intro p _
    rw [given]

namespace Lawful

variable {capacity : ℕ} {ledger : Ledger Thread} {thread : Thread}

structure Welcome (ledger : Ledger Thread) (thread : Thread) (phase : Phase) (p : ℕ) : Prop where
  aims : phase = .aimed ∨ phase = .ready → (ledger.since thread).1 ≤ p
  seeks : phase = .sought ∨ phase = .able → (ledger.since thread).2 ≤ p
  reads : phase = .reading → some p ∉ ledger.taken.map Prod.fst
  puts : phase.side = some .putting → p ∉ ledger.accepted.map Prod.fst
  gets : phase.side = some .getting → p ∉ ledger.finished

variable (lawful : Lawful capacity ledger)
include lawful

theorem setQueue [DecidableEq Thread] {queue : Queue Thread Job} {stake : Option (Phase × ℕ)}
    (sound : Sound capacity queue) (grown : Grown capacity ledger.queue queue)
    (stakes : queue.stake = Function.update ledger.queue.stake thread stake)
    (welcome : ∀ phase p, stake = some (phase, p) → Welcome ledger thread phase p) :
    Lawful capacity (ledger.setQueue queue) := by
  have staked : ∀ {other phase p}, queue.stake other = some (phase, p) →
      other = thread ∧ Welcome ledger thread phase p ∨ ledger.queue.stake other = some (phase, p) := by
    intro other phase p found
    rw [stakes] at found
    obtain ⟨same, new⟩ | ⟨-, old⟩ := ProvenC.Lib.Ring.update_stake found
    · exact Or.inl ⟨same, welcome phase p new⟩
    · exact Or.inr old
  exact
    { sound := sound
      since := fun other => ⟨(lawful.since other).1.trans grown.enqueued, (lawful.since other).2.trans grown.dequeued⟩
      aims := by
        intro other phase p found isAim
        obtain ⟨rfl, welcome⟩ | old := staked found
        · exact welcome.aims isAim
        · exact lawful.aims other phase p old isAim
      seeks := by
        intro other phase p found isSeek
        obtain ⟨rfl, welcome⟩ | old := staked found
        · exact welcome.seeks isSeek
        · exact lawful.seeks other phase p old isSeek
      taken := by
        intro entry mem
        obtain ⟨p, ticket, less, given⟩ := lawful.taken entry mem
        have given' := grown.given p (less.trans_le lawful.sound.order)
        exact ⟨p, ticket, less.trans_le grown.dequeued, given'.trans given⟩
      takenOnce := lawful.takenOnce
      unread := by
        intro other p found
        obtain ⟨rfl, welcome⟩ | old := staked found
        · exact welcome.reads rfl
        · exact lawful.unread other p old
      accepted := by
        intro entry mem
        obtain ⟨less, given⟩ := lawful.accepted entry mem
        exact ⟨less.trans_le grown.enqueued, (grown.given _ less).trans given⟩
      acceptedOnce := lawful.acceptedOnce
      unaccepted := by
        intro other phase p found sided
        obtain ⟨rfl, welcome⟩ | old := staked found
        · exact welcome.puts sided
        · exact lawful.unaccepted other phase p old sided
      left := fun p mem => (lawful.left p mem).trans (grown.seq p)
      finished := fun p mem => (lawful.finished p mem).trans_le grown.dequeued
      unfinished := by
        intro other phase p found sided
        obtain ⟨rfl, welcome⟩ | old := staked found
        · exact welcome.gets sided
        · exact lawful.unfinished other phase p old sided }

theorem notesTaken {p : ℕ} {job : Job} (less : p < ledger.queue.dequeued)
    (given : ledger.queue.given p = some job) (new : some p ∉ ledger.taken.map Prod.fst)
    (free : ∀ other, ledger.queue.stake other ≠ some (.reading, p)) : Lawful capacity (ledger.notesTaken (some p) job) :=
  { lawful with
    taken := by
      intro entry mem
      obtain rfl | old := mem_cons.mp mem
      · exact ⟨p, rfl, less, given⟩
      · exact lawful.taken entry old
    takenOnce := nodup_cons.mpr ⟨new, lawful.takenOnce⟩
    unread := by
      intro other q found mem
      obtain same | old := mem_cons.mp mem
      · cases same
        exact free other found
      · exact lawful.unread other q found old }

theorem notesAccepted {p : ℕ} {job : Job} (less : p < ledger.queue.enqueued)
    (given : ledger.queue.given p = some job) (new : p ∉ ledger.accepted.map Prod.fst)
    (free : ∀ other phase, ledger.queue.stake other = some (phase, p) → phase.side ≠ some .putting) :
    Lawful capacity (ledger.notesAccepted p job) :=
  { lawful with
    accepted := by
      intro entry mem
      obtain rfl | old := mem_cons.mp mem
      · exact ⟨less, given⟩
      · exact lawful.accepted entry old
    acceptedOnce := nodup_cons.mpr ⟨new, lawful.acceptedOnce⟩
    unaccepted := by
      intro other phase q found sided mem
      obtain same | old := mem_cons.mp mem
      · subst same
        exact free other phase found sided
      · exact lawful.unaccepted other phase q found sided old }

theorem notesLeft {p : ℕ} (gone : p + capacity ≤ ledger.queue.seq capacity p) : Lawful capacity (ledger.notesLeft p) :=
  { lawful with
    left := by
      intro q mem
      obtain rfl | old := mem_cons.mp mem
      · exact gone
      · exact lawful.left q old }

theorem notesFinished {p : ℕ} (less : p < ledger.queue.dequeued)
    (free : ∀ other phase, ledger.queue.stake other = some (phase, p) → phase.side ≠ some .getting) :
    Lawful capacity (ledger.notesFinished p) :=
  { lawful with
    finished := by
      intro q mem
      obtain rfl | old := mem_cons.mp mem
      · exact less
      · exact lawful.finished q old
    unfinished := by
      intro other phase q found sided mem
      obtain rfl | old := mem_cons.mp mem
      · exact free other phase found sided
      · exact lawful.unfinished other phase q found sided old }

theorem begins [DecidableEq Thread] (idle : ledger.queue.stake thread = none) : Lawful capacity (ledger.begins thread) :=
  { lawful with
    since := by
      intro other
      by_cases same : other = thread
      · rw [same, Ledger.begins_self]
        exact ⟨le_refl _, le_refl _⟩
      rw [Ledger.begins_other ledger same]
      exact lawful.since other
    aims := by
      intro other phase p found isAim
      have away : other ≠ thread := by
        rintro rfl
        exact Option.some_ne_none _ (found.symm.trans idle)
      rw [Ledger.begins_other ledger away]
      exact lawful.aims other phase p found isAim
    seeks := by
      intro other phase p found isSeek
      have away : other ≠ thread := by
        rintro rfl
        exact Option.some_ne_none _ (found.symm.trans idle)
      rw [Ledger.begins_other ledger away]
      exact lawful.seeks other phase p found isSeek }

omit lawful

/-! Who is admitted and who owes has no part in it. -/

section Counts

variable [DecidableEq Thread]

include lawful

theorem admits : Lawful capacity (ledger.admits thread) := { lawful with }

theorem departs : Lawful capacity (ledger.departs thread) := { lawful with }

theorem owes {group : ℕ} : Lawful capacity (ledger.owes thread group) :=
  { lawful with }

theorem pays : Lawful capacity (ledger.pays thread) := { lawful with }

omit lawful

end Counts

end Lawful

end ProvenC.Jobs.Watching
