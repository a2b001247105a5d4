import ProvenC.Jobs.Recording

/-!
# The ledger follows the queue

The words the queue holds are the remainders of the ledger's numbers, the cells hold what the ledger
says was put there, and a thread stands at the line that its phase says.
-/

namespace ProvenC.Jobs.Following

open Lib.Ring (Queue Phase Side Sound Fits lap_apart)
open Function Jobs.Queue Jobs.Words Jobs.Watching

/-- What `proven_job_system_init` checks of the capacity, and what it is checked for. -/
structure Shape (bits capacity : ℕ) : Prop where
  two : 2 ≤ capacity
  quarter : 2 * capacity ≤ signBit bits
  divides : capacity ∣ 2 ^ bits
  masked : ∀ pos, pos &&& (capacity - 1) = pos % capacity

namespace Shape

variable {bits capacity : ℕ}

theorem some_bits (shape : Shape bits capacity) : 0 < bits := by
  obtain none | some := Nat.eq_zero_or_pos bits
  · subst none
    have quarter := shape.quarter
    have two := shape.two
    rw [signBit, Nat.zero_sub, pow_zero] at quarter
    omega
  · exact some

theorem index (shape : Shape bits capacity) (p : ℕ) : p % 2 ^ bits &&& (capacity - 1) = p % capacity := by
  rw [shape.masked, Nat.mod_mod_of_dvd p shape.divides]

end Shape

variable {Thread : Type*} {bits capacity : ℕ}

structure Agrees (bits capacity : ℕ) (sys : Sys Thread) (queue : Queue Thread Job) : Prop where
  mask : sys.bufferMask + 1 = capacity
  enqueue : sys.enqueuePos = queue.enqueued % 2 ^ bits
  dequeue : sys.dequeuePos = queue.dequeued % 2 ^ bits
  sequence : ∀ i < capacity, (sys.buffer i).sequence = queue.sequence i % 2 ^ bits
  content : ∀ i < capacity, ∀ p job, queue.content i = some (p, job) → (sys.buffer i).job = job

def SubmitMatches (bits : ℕ) (queue : Queue Thread Job) (stake : Option (Phase × ℕ)) (job : Job) : Submit → Prop
  | .comparing pos => ∃ p, stake = some (.aimed, p) ∧ pos = p % 2 ^ bits
  | .claiming pos => ∃ p, stake = some (.ready, p) ∧ pos = p % 2 ^ bits
  | .writing pos => ∃ p, stake = some (.writing, p) ∧ pos = p % 2 ^ bits ∧ queue.given p = some job
  | .publishing pos => ∃ p, stake = some (.written, p) ∧ pos = p % 2 ^ bits ∧ queue.given p = some job
  | .posting | .leaving => ∃ p, stake = some (.sent, p) ∧ queue.given p = some job
  | .counting group | .uncounting group => stake = none ∧ job.group = some group
  | .entering | .admitting _ | .positioning | .refusing => stake = none

def ExecuteMatches (bits : ℕ) (queue : Queue Thread Job) (stake : Option (Phase × ℕ)) : Execute → Prop
  | .seeking => stake = none
  | .matching pos => ∃ p, stake = some (.sought, p) ∧ pos = p % 2 ^ bits
  | .taking pos => ∃ p, stake = some (.able, p) ∧ pos = p % 2 ^ bits
  | .reading pos => ∃ p, stake = some (.reading, p) ∧ pos = p % 2 ^ bits
  | .releasing pos job => ∃ p, stake = some (.holding, p) ∧ pos = p % 2 ^ bits ∧ queue.given p = some job
  | .running job | .finishing job => ∃ p, stake = some (.spending, p) ∧ queue.given p = some job

def Matches (bits : ℕ) (queue : Queue Thread Job) (stake : Option (Phase × ℕ)) : Place → Prop
  | .submitting job line => SubmitMatches bits queue stake job line
  | .executing _ line => ExecuteMatches bits queue stake line
  | _ => stake = none

structure Follows (bits capacity : ℕ) (watched : Watched Thread) : Prop where
  lawful : Lawful capacity watched.ledger
  agrees : Agrees bits capacity watched.sys watched.ledger.queue
  places : ∀ thread, Matches bits watched.ledger.queue (watched.ledger.queue.stake thread) (watched.sys.place thread)

variable {queue : Queue Thread Job}

theorem claimed_of_side (sound : Sound capacity queue) {thread : Thread} {phase : Phase}
    {p : ℕ} (staked : queue.stake thread = some (phase, p)) {side : Side} (sided : phase.side = some side) :
    p < queue.enqueued := by
  have fits := sound.fits thread phase p staked
  have order := sound.order
  cases phase with
  | writing | written => exact fits.1
  | sent => exact fits
  | reading | holding => exact fits.1.trans_le order
  | spending => exact lt_of_lt_of_le fits order
  | aimed | ready | sought | able => cases sided

variable {place : Place}

theorem matches_grown {before after : Queue Thread Job} (sound : Sound capacity before)
    (grown : Grown capacity before after) {thread : Thread} (matched : Matches bits before (before.stake thread) place) :
    Matches bits after (before.stake thread) place := by
  have kept : ∀ {phase p side} {job : Job}, before.stake thread = some (phase, p) → phase.side = some side →
      before.given p = some job → after.given p = some job := by
    intro phase p side job staked sided given
    rw [grown.given p (claimed_of_side sound staked sided), given]
  cases place with
  | submitting job line =>
    cases line with
    | writing | publishing =>
      obtain ⟨p, staked, word, given⟩ := matched
      exact ⟨p, staked, word, kept staked rfl given⟩
    | posting | leaving =>
      obtain ⟨p, staked, given⟩ := matched
      exact ⟨p, staked, kept staked rfl given⟩
    | counting | entering | admitting | positioning | comparing | claiming | refusing | uncounting => exact matched
  | executing caller line =>
    cases line with
    | releasing =>
      obtain ⟨p, staked, word, given⟩ := matched
      exact ⟨p, staked, word, kept staked rfl given⟩
    | running | finishing =>
      obtain ⟨p, staked, given⟩ := matched
      exact ⟨p, staked, kept staked rfl given⟩
    | seeking | matching | taking | reading => exact matched
  | idle | closing | awaiting | waking | parked | asking | polling | handing | gone => exact matched

theorem words_equal {range p q : ℕ} (order : p ≤ q) (near : q < p + range) (same : p % range = q % range) : p = q := by
  by_contra other
  have far := lap_apart same (by omega)
  omega

section Looking

variable {watched : Watched Thread} {thread : Thread} {p : ℕ}

theorem cell_eq (shape : Shape bits capacity) (agrees : Agrees bits capacity watched.sys watched.ledger.queue) (p : ℕ) :
    watched.sys.cell (p % 2 ^ bits) = watched.sys.buffer (p % capacity) := by
  have mask : watched.sys.bufferMask = capacity - 1 := by
    rw [← agrees.mask, Nat.add_sub_cancel]
  rw [Sys.cell, mask, shape.index]

theorem cell_sequence (shape : Shape bits capacity) (agrees : Agrees bits capacity watched.sys watched.ledger.queue)
    (p : ℕ) : (watched.sys.cell (p % 2 ^ bits)).sequence = watched.ledger.queue.seq capacity p % 2 ^ bits := by
  have two := shape.two
  rw [cell_eq shape agrees, agrees.sequence _ (Nat.mod_lt p (by omega)), ProvenC.Lib.Ring.Queue.seq]

theorem masked (shape : Shape bits capacity) (follows : Follows bits capacity watched) (p : ℕ) :
    p % 2 ^ bits &&& watched.sys.bufferMask = p % capacity := by
  have mask : watched.sys.bufferMask = capacity - 1 := by
    rw [← follows.agrees.mask, Nat.add_sub_cancel]
  rw [mask, shape.index]

theorem submit_look (shape : Shape bits capacity) (follows : Follows bits capacity watched)
    (aim : p ≤ watched.ledger.queue.enqueued)
    (brisk : watched.ledger.queue.enqueued < p + (signBit bits + 1 - capacity)) :
    cellState bits (watched.sys.cell (p % 2 ^ bits)).sequence (p % 2 ^ bits) =
      if watched.ledger.queue.seq capacity p = p then CellState.ready
      else if watched.ledger.queue.seq capacity p < p then CellState.behind else CellState.ahead := by
  have two := shape.two
  have quarter := shape.quarter
  have sound := follows.lawful.sound
  rw [cell_sequence shape follows.agrees]
  apply cellState_of shape.some_bits
  · have lap := sound.within_lap (by omega) aim
    omega
  by_contra far
  have order := sound.order
  have ahead := @Sound.seq_le _ _ _ _ sound (by omega) p (by omega)
  omega

theorem execute_look (shape : Shape bits capacity) (follows : Follows bits capacity watched)
    (aim : p ≤ watched.ledger.queue.dequeued)
    (brisk : watched.ledger.queue.dequeued < p + (signBit bits + 1 - capacity)) :
    cellState bits (watched.sys.cell (p % 2 ^ bits)).sequence (up bits (p % 2 ^ bits)) =
      if watched.ledger.queue.seq capacity p = p + 1 then CellState.ready
      else if watched.ledger.queue.seq capacity p < p + 1 then CellState.behind else CellState.ahead := by
  have two := shape.two
  have quarter := shape.quarter
  have sound := follows.lawful.sound
  rw [cell_sequence shape follows.agrees, up_mod]
  apply cellState_of shape.some_bits
  · have lap := sound.within_lap (by omega) (aim.trans sound.order)
    omega
  by_contra far
  have lead := sound.enqueued_le
  have ahead := @Sound.seq_le _ _ _ _ sound (by omega) p (by omega)
  omega

end Looking

variable [DecidableEq Thread]

theorem follow {watched after : Watched Thread} {thread : Thread} {stake : Option (Phase × ℕ)} {place : Place}
    (follows : Follows bits capacity watched) (lawful : Lawful capacity after.ledger)
    (agrees : Agrees bits capacity after.sys after.ledger.queue)
    (grown : Grown capacity watched.ledger.queue after.ledger.queue)
    (stakes : after.ledger.queue.stake = Function.update watched.ledger.queue.stake thread stake)
    (places : after.sys.place = Function.update watched.sys.place thread place)
    (matched : Matches bits after.ledger.queue stake place) : Follows bits capacity after where
  lawful := lawful
  agrees := agrees
  places := by
    intro other
    rw [stakes, places]
    by_cases same : other = thread
    · subst same
      rw [update_self, update_self]
      exact matched
    rw [update_of_ne same, update_of_ne same]
    exact matches_grown follows.lawful.sound grown (follows.places other)

def after (watched : Watched Thread) (thread : Thread) (result : Sys Thread × Event) : Watched Thread where
  sys := result.1
  ledger := watched.ledger.record (watched.sys.bufferMask + 1) thread result.2

theorem next_eq (watched) (thread : Thread) (act : Act) :
    next bits watched (thread, act) = after watched thread (step bits watched.sys thread act) := rfl

variable {watched : Watched Thread} {thread : Thread}

variable {sys : Sys Thread} (shape : Shape bits capacity) (follows : Follows bits capacity watched)

include follows

theorem quiet {ledger : Ledger Thread} (lawful : Lawful capacity ledger) (queue : ledger.queue = watched.ledger.queue)
    (mask : sys.bufferMask = watched.sys.bufferMask) (enqueue : sys.enqueuePos = watched.sys.enqueuePos)
    (dequeue : sys.dequeuePos = watched.sys.dequeuePos) (buffer : sys.buffer = watched.sys.buffer)
    (places : sys.place = Function.update watched.sys.place thread place)
    (matched : Matches bits watched.ledger.queue (watched.ledger.queue.stake thread) place) :
    Follows bits capacity { sys := sys, ledger := ledger } := by
  have agrees : Agrees bits capacity sys ledger.queue := by
    rw [queue]
    exact
      { mask := by rw [mask, follows.agrees.mask]
        enqueue := by rw [enqueue, follows.agrees.enqueue]
        dequeue := by rw [dequeue, follows.agrees.dequeue]
        sequence := by
          rw [buffer]
          exact follows.agrees.sequence
        content := by
          rw [buffer]
          exact follows.agrees.content }
  refine follow follows lawful agrees ?_ ?_ places (by rwa [queue])
  · dsimp only
    rw [queue]
    exact grown_refl rfl rfl rfl rfl
  rw [queue, update_eq_self]

theorem quiet_move (matched : Matches bits watched.ledger.queue (watched.ledger.queue.stake thread) place) :
    Follows bits capacity (after watched thread (watched.sys.moved thread place, .quiet)) :=
  quiet follows follows.lawful rfl rfl rfl rfl rfl rfl matched

theorem agrees_move (place) (stake : Option (Phase × ℕ)) :
    Agrees bits capacity (watched.sys.moved thread place) (watched.ledger.queue.move thread stake) where
  mask := follows.agrees.mask
  enqueue := follows.agrees.enqueue
  dequeue := follows.agrees.dequeue
  sequence := follows.agrees.sequence
  content := follows.agrees.content

theorem aims (unfilled : Recording.Unfilled watched.ledger thread) (job : Job) :
    Follows bits capacity (after watched thread
      (watched.sys.moved thread (.submitting job (.comparing watched.sys.enqueuePos)), .aimed)) := by
  refine follow follows (Recording.aimed follows.lawful unfilled) (agrees_move follows _ _) (grown_refl rfl rfl rfl rfl)
    rfl rfl ?_
  exact ⟨watched.ledger.queue.enqueued, rfl, follows.agrees.enqueue⟩

theorem seeks (unfilled : Recording.Unfilled watched.ledger thread) (caller : Caller) :
    Follows bits capacity (after watched thread
      (watched.sys.moved thread (.executing caller (.matching watched.sys.dequeuePos)), .sought)) := by
  refine follow follows (Recording.sought follows.lawful unfilled) (agrees_move follows _ _) (grown_refl rfl rfl rfl rfl)
    rfl rfl ?_
  exact ⟨watched.ledger.queue.dequeued, rfl, follows.agrees.dequeue⟩

theorem drops (unfilled : Recording.Unfilled watched.ledger thread) (free : Matches bits (watched.ledger.queue.move thread none) none place) :
    Follows bits capacity (after watched thread (watched.sys.moved thread place, .dropped)) :=
  follow follows (Recording.dropped follows.lawful unfilled) (agrees_move follows _ _) (grown_refl rfl rfl rfl rfl)
    rfl rfl free

theorem advances {old new : Phase} {p : ℕ} {place : Place} {event : Event}
    (staked : watched.ledger.queue.stake thread = some (old, p))
    (entry : (watched.ledger.record (watched.sys.bufferMask + 1) thread event).queue =
      watched.ledger.queue.advance thread new)
    (lawful : Lawful capacity (watched.ledger.record (watched.sys.bufferMask + 1) thread event))
    (matched : Matches bits watched.ledger.queue (some (new, p)) place) :
    Follows bits capacity (after watched thread (watched.sys.moved thread place, event)) := by
  have moved : (after watched thread (watched.sys.moved thread place, event)).ledger.queue =
      watched.ledger.queue.move thread (some (new, p)) := by
    rw [after]
    rw [entry, ProvenC.Lib.Ring.Queue.advance, staked]
    rfl
  refine @follow _ _ _ _ _ _ _ (some (new, p)) _ follows lawful ?_ ?_ ?_ rfl ?_
  all_goals rw [moved]
  · exact agrees_move follows _ _
  · exact grown_refl rfl rfl rfl rfl
  · rfl
  · exact matched
theorem claims {job : Job} (staked : watched.ledger.queue.stake thread = some (.ready, watched.ledger.queue.enqueued)) :
    Follows bits capacity (after watched thread ((watched.sys.setEnqueue (up bits watched.sys.enqueuePos)).moved thread
        (.submitting job (.writing watched.sys.enqueuePos)), .claimed job)) := by
  have lawful : Lawful capacity
      ((watched.ledger.setQueue (watched.ledger.queue.claim thread job)).pays thread) :=
    (Recording.claimed follows.lawful staked).pays
  have agrees : Agrees bits capacity ((watched.sys.setEnqueue (up bits watched.sys.enqueuePos)).moved thread
      (.submitting job (.writing watched.sys.enqueuePos))) (watched.ledger.queue.claim thread job) :=
    { mask := follows.agrees.mask
      enqueue := by
        change up bits watched.sys.enqueuePos = _
        rw [follows.agrees.enqueue, up_mod]
        rfl
      dequeue := follows.agrees.dequeue
      sequence := follows.agrees.sequence
      content := follows.agrees.content }
  have grown : Grown capacity watched.ledger.queue (watched.ledger.queue.claim thread job) :=
    { enqueued := Nat.le_succ _
      dequeued := le_refl _
      seq := fun _ => le_refl _
      given := fun p less => update_of_ne (ne_of_lt less) _ _ }
  refine follow follows lawful agrees grown rfl rfl ?_
  exact ⟨watched.ledger.queue.enqueued, rfl, follows.agrees.enqueue, update_self _ _ _⟩

variable {caller : Caller}

theorem takes (staked : watched.ledger.queue.stake thread = some (.able, watched.ledger.queue.dequeued)) :
    Follows bits capacity (after watched thread ((watched.sys.setDequeue (up bits watched.sys.dequeuePos)).moved thread
        (.executing caller (.reading watched.sys.dequeuePos)), .took)) := by
  have agrees : Agrees bits capacity ((watched.sys.setDequeue (up bits watched.sys.dequeuePos)).moved thread
      (.executing caller (.reading watched.sys.dequeuePos))) (watched.ledger.queue.take thread) :=
    { mask := follows.agrees.mask
      enqueue := follows.agrees.enqueue
      dequeue := by
        change up bits watched.sys.dequeuePos = _
        rw [follows.agrees.dequeue, up_mod]
        rfl
      sequence := follows.agrees.sequence
      content := follows.agrees.content }
  have grown : Grown capacity watched.ledger.queue (watched.ledger.queue.take thread) :=
    { enqueued := le_refl _
      dequeued := Nat.le_succ _
      seq := fun _ => le_refl _
      given := fun _ _ => rfl }
  refine follow follows (Recording.took follows.lawful staked) agrees grown rfl rfl ?_
  exact ⟨watched.ledger.queue.dequeued, rfl, follows.agrees.dequeue⟩

include shape in
theorem writes {job : Job} {p : ℕ} (staked : watched.ledger.queue.stake thread = some (.writing, p))
    (given : watched.ledger.queue.given p = some job) : Follows bits capacity (after watched thread
      ((watched.sys.storeJob (p % 2 ^ bits) job).moved thread (.submitting job (.publishing (p % 2 ^ bits))),
        .wrote job)) := by
  have place := ProvenC.Lib.Ring.Queue.position_of staked
  have entry : (after watched thread ((watched.sys.storeJob (p % 2 ^ bits) job).moved thread
      (.submitting job (.publishing (p % 2 ^ bits))), .wrote job)).ledger =
      watched.ledger.setQueue (watched.ledger.queue.write capacity thread job) := by
    rw [after, follows.agrees.mask]
    rfl
  have agrees : Agrees bits capacity ((watched.sys.storeJob (p % 2 ^ bits) job).moved thread
      (.submitting job (.publishing (p % 2 ^ bits)))) (watched.ledger.queue.write capacity thread job) :=
    { mask := follows.agrees.mask
      enqueue := follows.agrees.enqueue
      dequeue := follows.agrees.dequeue
      sequence := by
        intro i less
        change (Function.update watched.sys.buffer (p % 2 ^ bits &&& watched.sys.bufferMask) _ i).sequence = _
        by_cases same : i = p % 2 ^ bits &&& watched.sys.bufferMask
        · subst same
          rw [update_self]
          exact follows.agrees.sequence _ less
        rw [update_of_ne same]
        exact follows.agrees.sequence i less
      content := by
        intro i less q found
        change Function.update watched.ledger.queue.content (watched.ledger.queue.position thread % capacity) _ i = _ →
          (Function.update watched.sys.buffer (p % 2 ^ bits &&& watched.sys.bufferMask) _ i).job = _
        rw [masked shape follows, place]
        by_cases same : i = p % capacity
        · subst same
          rw [update_self, update_self]
          intro content
          cases content
          rfl
        rw [update_of_ne same, update_of_ne same]
        exact follows.agrees.content i less q found }
  have stakes : (watched.ledger.queue.write capacity thread job).stake =
      Function.update watched.ledger.queue.stake thread (some (.written, p)) := by
    change Function.update watched.ledger.queue.stake thread ((watched.ledger.queue.stake thread).map _) = _
    rw [staked]
    rfl
  refine @follow _ _ _ _ _ _ _ (some (.written, p)) _ follows ?_ ?_ ?_ ?_ rfl ?_
  all_goals rw [entry]
  · exact Recording.wrote follows.lawful shape.two staked given
  · exact agrees
  · exact grown_refl rfl rfl rfl rfl
  · exact stakes
  · exact ⟨p, rfl, rfl, given⟩
include shape in
theorem agrees_store (p value : ℕ) (place : Place) (enqueued : queue.enqueued = watched.ledger.queue.enqueued)
    (dequeued : queue.dequeued = watched.ledger.queue.dequeued) (content : queue.content = watched.ledger.queue.content)
    (stored : queue.sequence = Function.update watched.ledger.queue.sequence (p % capacity) value) :
    Agrees bits capacity ((watched.sys.storeSequence (p % 2 ^ bits) (value % 2 ^ bits)).moved thread place) queue where
  mask := follows.agrees.mask
  enqueue := by rw [enqueued, ← follows.agrees.enqueue]; rfl
  dequeue := by rw [dequeued, ← follows.agrees.dequeue]; rfl
  sequence := by
    intro i less
    change (Function.update watched.sys.buffer (p % 2 ^ bits &&& watched.sys.bufferMask) _ i).sequence = _
    rw [masked shape follows, stored]
    by_cases same : i = p % capacity
    · subst same
      rw [update_self, update_self]
    rw [update_of_ne same, update_of_ne same]
    exact follows.agrees.sequence i less
  content := by
    intro i less q found
    change _ → (Function.update watched.sys.buffer (p % 2 ^ bits &&& watched.sys.bufferMask) _ i).job = _
    rw [content]
    by_cases same : i = p % 2 ^ bits &&& watched.sys.bufferMask
    · subst same
      rw [update_self]
      exact follows.agrees.content _ less q found
    rw [update_of_ne same]
    exact follows.agrees.content i less q found

include shape in
theorem publishes {job : Job} {p : ℕ} (staked : watched.ledger.queue.stake thread = some (.written, p))
    (given : watched.ledger.queue.given p = some job) : Follows bits capacity (after watched thread
      ((watched.sys.storeSequence (p % 2 ^ bits) (up bits (p % 2 ^ bits))).moved thread (.submitting job .posting),
        .published)) := by
  have place := ProvenC.Lib.Ring.Queue.position_of staked
  have entry : (after watched thread ((watched.sys.storeSequence (p % 2 ^ bits) (up bits (p % 2 ^ bits))).moved thread
      (.submitting job .posting), .published)).ledger =
      watched.ledger.setQueue (watched.ledger.queue.publish capacity thread) := by
    rw [after, follows.agrees.mask]
    rfl
  have lawful := Recording.published follows.lawful shape.two staked
  have here := (follows.lawful.sound.fits thread _ _ staked).2.1
  refine @follow _ _ _ _ _ _ _ (some (.sent, p)) _ follows ?_ ?_ ?_ ?_ rfl ?_
  · rw [entry]
    exact lawful
  · rw [entry, up_mod]
    refine agrees_store shape follows p (p + 1) _ rfl rfl rfl ?_
    rw [← place]
    rfl
  · rw [entry]
    refine Recording.grown_store p (p + 1) (by omega) rfl rfl rfl ?_
    rw [← place]
    rfl
  · rw [entry, ← place]
    rfl
  rw [entry]
  exact ⟨p, rfl, given⟩

include shape in
theorem releases {job : Job} {p : ℕ} (staked : watched.ledger.queue.stake thread = some (.holding, p))
    (given : watched.ledger.queue.given p = some job) : Follows bits capacity (after watched thread
      ((watched.sys.storeSequence (p % 2 ^ bits) ((p % 2 ^ bits + watched.sys.bufferMask + 1) % 2 ^ bits)).moved thread
        (.executing caller (.running job)), .released)) := by
  have place := ProvenC.Lib.Ring.Queue.position_of staked
  have value : (p % 2 ^ bits + watched.sys.bufferMask + 1) % 2 ^ bits = (p + capacity) % 2 ^ bits := by
    rw [add_assoc, follows.agrees.mask, Nat.mod_add_mod]
  have entry : ∀ sys : Sys Thread, (after watched thread (sys, .released)).ledger =
      (watched.ledger.setQueue (watched.ledger.queue.release capacity thread)).notesLeft
        (watched.ledger.queue.position thread) := by
    intro sys
    rw [after, follows.agrees.mask]
    rfl
  have lawful := Recording.released follows.lawful shape.two staked
  have here := (follows.lawful.sound.fits thread _ _ staked).2
  refine @follow _ _ _ _ _ _ _ (some (.spending, p)) _ follows ?_ ?_ ?_ ?_ rfl ?_
  · rw [entry]
    exact lawful
  · rw [entry, value]
    refine agrees_store shape follows p (p + capacity) _ rfl rfl rfl ?_
    rw [← place]
    rfl
  · rw [entry]
    have two := shape.two
    refine Recording.grown_store p (p + capacity) (by omega) rfl rfl rfl ?_
    rw [← place]
    rfl
  · rw [entry, ← place]
    rfl
  rw [entry]
  exact ⟨p, rfl, given⟩

theorem ends {ledger : Ledger Thread}
    (lawful : Lawful capacity ledger) (queue : ledger.queue = watched.ledger.queue.move thread none)
    (mask : sys.bufferMask = watched.sys.bufferMask) (enqueue : sys.enqueuePos = watched.sys.enqueuePos)
    (dequeue : sys.dequeuePos = watched.sys.dequeuePos) (buffer : sys.buffer = watched.sys.buffer)
    (places : sys.place = Function.update watched.sys.place thread place)
    (matched : Matches bits ledger.queue none place) : Follows bits capacity { sys := sys, ledger := ledger } := by
  have agrees : Agrees bits capacity sys ledger.queue := by
    rw [queue]
    exact
      { mask := by rw [mask, follows.agrees.mask]
        enqueue := by rw [enqueue, follows.agrees.enqueue]; rfl
        dequeue := by rw [dequeue, follows.agrees.dequeue]; rfl
        sequence := by
          rw [buffer]
          exact follows.agrees.sequence
        content := by
          rw [buffer]
          exact follows.agrees.content }
  refine follow follows lawful agrees ?_ ?_ places matched
  all_goals
    rw [queue]
  · exact grown_refl rfl rfl rfl rfl
  · rfl

theorem accepts {job : Job} {p : ℕ} {state : ℕ} (staked : watched.ledger.queue.stake thread = some (.sent, p))
    (given : watched.ledger.queue.given p = some job) :
    Follows bits capacity (after watched thread ((watched.sys.setAdmission state).moved thread .idle, .accepted job)) :=
  ends follows (Recording.accepted follows.lawful staked given).departs rfl rfl rfl rfl rfl rfl rfl

theorem finishes {job : Job} {p : ℕ} (staked : watched.ledger.queue.stake thread = some (.spending, p))
    (mask : sys.bufferMask = watched.sys.bufferMask) (enqueue : sys.enqueuePos = watched.sys.enqueuePos)
    (dequeue : sys.dequeuePos = watched.sys.dequeuePos) (buffer : sys.buffer = watched.sys.buffer)
    (places : sys.place = watched.sys.place) (matched : Matches bits (watched.ledger.queue.move thread none) none place) :
    Follows bits capacity (after watched thread (sys.moved thread place, .finished job)) := by
  refine ends follows (Recording.finished follows.lawful staked) rfl mask enqueue dequeue buffer ?_ matched
  rw [Sys.moved, places]

include shape in
theorem reads {p : ℕ} (staked : watched.ledger.queue.stake thread = some (.reading, p)) :
    Follows bits capacity (after watched thread (watched.sys.moved thread
        (.executing caller (.releasing (p % 2 ^ bits) (watched.sys.cell (p % 2 ^ bits)).job)),
        .read (watched.sys.cell (p % 2 ^ bits)).job)) := by
  have two := shape.two
  obtain ⟨job, given, content⟩ := Recording.held follows.lawful staked
  have job_ : (watched.sys.cell (p % 2 ^ bits)).job = job := by
    rw [cell_eq shape follows.agrees]
    exact follows.agrees.content _ (Nat.mod_lt p (by omega)) p job content
  have lawful := Recording.read follows.lawful staked content given
  rw [job_]
  refine @advances _ _ _ _ _ _ follows _ .holding _ _ _ staked rfl ?_ ?_
  · rw [follows.agrees.mask]
    exact lawful
  · exact ⟨p, rfl, rfl, given⟩
omit [DecidableEq Thread] follows in
theorem after_refusal_free {stake : Option (Phase × ℕ)} {job : Job} (free : stake = none) :
    Matches bits queue stake (afterRefusal job) := by
  unfold afterRefusal
  split
  · exact free
  rename_i group is
  exact ⟨free, is⟩

include shape in
theorem submit_follows (brisk : Brisk (signBit bits + 1 - capacity) watched) {job : Job} {line : Submit}
    (here : watched.sys.place thread = .submitting job line) (weak : Bool) :
    Follows bits capacity (after watched thread (submitStep bits watched.sys thread weak job line)) := by
  have matched := follows.places thread
  rw [here] at matched
  have pace := brisk thread (by rw [here]; rfl)
  cases line with
  | counting group =>
    exact quiet follows follows.lawful.owes rfl rfl rfl rfl rfl rfl matched.1
  | entering => exact quiet_move follows matched
  | admitting state =>
    have refused : Follows bits capacity (after watched thread (watched.sys.moved thread (afterRefusal job), .quiet)) :=
      quiet_move follows (after_refusal_free matched)
    unfold submitStep
    dsimp only
    split
    · exact refused
    split
    · exact refused
    split
    · exact quiet follows follows.lawful.admits rfl rfl rfl rfl rfl rfl matched
    · exact quiet_move follows matched
  | positioning =>
    exact aims follows (Recording.unfilled_of matched nofun) job
  | comparing pos =>
    obtain ⟨p, staked, rfl⟩ := matched
    have since := follows.lawful.aims thread _ _ staked (.inl rfl)
    have aim : p ≤ watched.ledger.queue.enqueued := follows.lawful.sound.fits thread _ _ staked
    have unfilled := Recording.unfilled_of staked (by
      intro phase q found
      cases found
      rfl)
    unfold submitStep
    dsimp only
    rw [submit_look shape follows aim (by omega)]
    by_cases ready : watched.ledger.queue.seq capacity p = p
    · rw [if_pos ready]
      refine @advances _ _ _ _ _ _ follows _ .ready _ _ _ staked rfl ?_ ?_
      · exact Recording.fitted follows.lawful staked (le_of_eq ready.symm)
      · exact ⟨p, rfl, rfl⟩
    rw [if_neg ready]
    split <;> rename_i state is
    · split at is <;> cases is
    · exact drops follows unfilled rfl
    · exact drops follows unfilled rfl
  | claiming pos =>
    obtain ⟨p, staked, rfl⟩ := matched
    have since := follows.lawful.aims thread _ _ staked (.inr rfl)
    have aim := (follows.lawful.sound.fits thread _ _ staked).1
    have unfilled := Recording.unfilled_of staked (by
      intro phase q found
      cases found
      rfl)
    unfold submitStep
    dsimp only
    split
    next swapped =>
      have range := range_eq shape.some_bits
      have same : p = watched.ledger.queue.enqueued :=
        words_equal aim (by omega) (swapped.2.symm.trans follows.agrees.enqueue)
      subst same
      rw [← swapped.2]
      exact claims follows staked
    · exact aims follows unfilled job
  | writing pos =>
    obtain ⟨p, staked, rfl, given⟩ := matched
    exact writes shape follows staked given
  | publishing pos =>
    obtain ⟨p, staked, rfl, given⟩ := matched
    exact publishes shape follows staked given
  | posting => exact quiet follows follows.lawful rfl rfl rfl rfl rfl rfl matched
  | leaving =>
    obtain ⟨p, staked, given⟩ := matched
    exact accepts follows staked given
  | refusing =>
    exact quiet follows follows.lawful.departs rfl rfl rfl rfl rfl rfl (after_refusal_free matched)
  | uncounting group => exact quiet follows follows.lawful.pays rfl rfl rfl rfl rfl rfl matched.1

omit [DecidableEq Thread] follows in
theorem after_execute_free (caller) (found : Bool) : Matches bits queue none (afterExecute caller found) := by
  cases caller <;> cases found <;> rfl

include shape in
theorem execute_follows (brisk : Brisk (signBit bits + 1 - capacity) watched) {line : Execute}
    (here : watched.sys.place thread = .executing caller line) (weak : Bool) :
    Follows bits capacity (after watched thread (executeStep bits watched.sys thread weak caller line)) := by
  have matched := follows.places thread
  rw [here] at matched
  have pace := brisk thread (by rw [here]; rfl)
  cases line with
  | seeking => exact seeks follows (Recording.unfilled_of matched nofun) caller
  | matching pos =>
    obtain ⟨p, staked, rfl⟩ := matched
    have since := follows.lawful.seeks thread _ _ staked (.inl rfl)
    have aim : p ≤ watched.ledger.queue.dequeued := follows.lawful.sound.fits thread _ _ staked
    have unfilled := Recording.unfilled_of staked (by
      intro phase q found
      cases found
      rfl)
    unfold executeStep
    dsimp only
    rw [execute_look shape follows aim (by omega)]
    by_cases ready : watched.ledger.queue.seq capacity p = p + 1
    · rw [if_pos ready]
      refine @advances _ _ _ _ _ _ follows _ .able _ _ _ staked rfl ?_ ?_
      · exact Recording.spotted follows.lawful staked (by omega)
      · exact ⟨p, rfl, rfl⟩
    rw [if_neg ready]
    split <;> rename_i state is
    · split at is <;> cases is
    · exact drops follows unfilled (after_execute_free caller false)
    · exact drops follows unfilled rfl
  | taking pos =>
    obtain ⟨p, staked, rfl⟩ := matched
    have since := follows.lawful.seeks thread _ _ staked (.inr rfl)
    have aim := (follows.lawful.sound.fits thread _ _ staked).1
    have unfilled := Recording.unfilled_of staked (by
      intro phase q found
      cases found
      rfl)
    unfold executeStep
    dsimp only
    split
    next swapped =>
      have range := range_eq shape.some_bits
      have same : p = watched.ledger.queue.dequeued :=
        words_equal aim (by omega) (swapped.2.symm.trans follows.agrees.dequeue)
      subst same
      rw [← swapped.2]
      exact takes follows staked
    · exact seeks follows unfilled caller
  | reading pos =>
    obtain ⟨p, staked, rfl⟩ := matched
    exact reads shape follows staked
  | releasing pos job =>
    obtain ⟨p, staked, rfl, given⟩ := matched
    exact releases shape follows staked given
  | running job => exact quiet_move follows matched
  | finishing job =>
    obtain ⟨p, staked, given⟩ := matched
    unfold executeStep
    dsimp only
    split
    all_goals exact finishes follows staked rfl rfl rfl rfl rfl (after_execute_free caller true)

theorem call_follows (here : watched.sys.place thread = .idle) (act : Act) :
    Follows bits capacity (after watched thread (callStep watched.sys thread act)) := by
  have free := follows.places thread
  rw [here] at free
  have began := Lawful.begins follows.lawful free
  cases act with
  | submit job =>
    unfold callStep
    dsimp only
    split
    · exact quiet follows began rfl rfl rfl rfl rfl rfl free
    rename_i group is
    exact quiet follows began rfl rfl rfl rfl rfl rfl ⟨free, is⟩
  | execute => exact quiet follows began rfl rfl rfl rfl rfl rfl free
  | close => exact quiet_move follows free
  | go | weak => exact follows

include shape in
theorem step_follows (brisk : Brisk (signBit bits + 1 - capacity) watched) (move : Thread × Act) :
    Follows bits capacity (next bits watched move) := by
  obtain ⟨thread, act⟩ := move
  rw [next_eq]
  have free := follows.places thread
  unfold step
  split <;> rename_i here
  · exact call_follows follows here act
  · exact submit_follows shape follows brisk here _
  · exact execute_follows shape follows brisk here _
  all_goals rw [here] at free
  · exact quiet follows follows.lawful rfl rfl rfl rfl rfl rfl free
  · unfold awaitStep
    split
    · exact follows
    split
    all_goals exact quiet_move follows free
  · unfold wakeStep
    split
    · exact quiet follows follows.lawful rfl rfl rfl rfl rfl rfl free
    · exact quiet_move follows free
  · unfold parkStep
    split
    · exact quiet follows (Lawful.begins follows.lawful free) rfl rfl rfl rfl rfl rfl free
    · exact follows
  · unfold askStep
    split
    all_goals exact quiet_move follows free
  · unfold pollStep
    split
    · exact quiet follows (Lawful.begins follows.lawful free) rfl rfl rfl rfl rfl rfl free
    · exact quiet_move follows free
  · exact quiet follows follows.lawful rfl rfl rfl rfl rfl rfl free
  · exact follows

end ProvenC.Jobs.Following
