import ProvenC.Jobs.Safety

/-!
# A submitter that stalls for all but half the range

A ring of two cells. One submitter has read the position 0 and not looked at the cell yet while another
thread submits and executes `2 ^ 63 - 1` jobs.
-/

namespace ProvenC.Jobs.Stalling

open Function Lib.Runs
open Jobs.Queue Jobs.Words Jobs.Watching Jobs.Following Jobs.Safety

def job : Job := { routine := none, arg := 0, group := none }

structure Notes (ledger : Ledger (Fin 3)) (enqueued dequeued : ℕ) (since : ℕ × ℕ) : Prop where
  enqueued : ledger.queue.enqueued = enqueued
  dequeued : ledger.queue.dequeued = dequeued
  stalled : ledger.since 0 = (0, 0)
  working : ledger.since 1 = since
  position : ledger.queue.position 0 = 0

structure View (watched : Watched (Fin 3)) (enqueued dequeued admission : ℕ) (sequence : ℕ → ℕ) (since : ℕ × ℕ)
    (place : Place) : Prop where
  mask : watched.sys.bufferMask = 1
  enqueue : watched.sys.enqueuePos = enqueued
  dequeue : watched.sys.dequeuePos = dequeued
  admission : watched.sys.admissionState = admission
  sequence : ∀ i, (watched.sys.buffer i).sequence = sequence i
  stalled : watched.sys.place 0 = .submitting job (.comparing 0)
  working : watched.sys.place 1 = place
  worker : watched.sys.place 2 = .parked
  notes : Notes watched.ledger enqueued dequeued since

variable {watched : Watched (Fin 3)} {enqueued dequeued admission : ℕ} {sequence : ℕ → ℕ} {since : ℕ × ℕ} {place : Place}
variable {pos : ℕ}

theorem view_moved (view : View watched enqueued dequeued admission sequence since place) {act : Act}
    {sys : Sys (Fin 3)} {event : Event} {enqueued' dequeued' admission' : ℕ} {sequence' : ℕ → ℕ} {since' : ℕ × ℕ}
    {place' : Place} (result : step 64 watched.sys 1 act = (sys.moved 1 place', event)) (mask : sys.bufferMask = 1)
    (enqueue : sys.enqueuePos = enqueued') (dequeue : sys.dequeuePos = dequeued')
    (admission : sys.admissionState = admission') (cells : ∀ i, (sys.buffer i).sequence = sequence' i)
    (places : sys.place = watched.sys.place)
    (notes : Notes (watched.ledger.record 2 1 event) enqueued' dequeued' since') :
    View (next 64 watched (1, act)) enqueued' dequeued' admission' sequence' since' place' := by
  rw [next_eq, after, result, view.mask]
  exact
    { mask := mask
      enqueue := enqueue
      dequeue := dequeue
      admission := admission
      sequence := cells
      stalled := by
        change Function.update sys.place 1 place' 0 = _
        rw [places]
        exact view.stalled
      working := Counting.moved_place sys 1 place'
      worker := by
        change Function.update sys.place 1 place' 2 = _
        rw [places]
        exact view.worker
      notes := notes }

theorem notes_kept {ledger : Ledger (Fin 3)} (notes : Notes ledger enqueued dequeued since) (event : Event)
    (plain : event = .quiet ∨ event = .admitted ∨ event = .aimed ∨ event = .fitted ∨ event = .wrote job ∨
      event = .published ∨ event = .accepted job ∨ event = .sought ∨ event = .spotted ∨
      (∃ found, event = .read found) ∨ event = .released) : Notes (ledger.record 2 1 event) enqueued dequeued since := by
  rcases plain with rfl | rfl | rfl | rfl | rfl | rfl | rfl | rfl | rfl | ⟨found, rfl⟩ | rfl <;>
    exact ⟨notes.enqueued, notes.dequeued, notes.stalled, notes.working, notes.position⟩

theorem step_idle (view : View watched enqueued dequeued admission sequence since .idle) (act : Act) :
    step 64 watched.sys 1 act = callStep watched.sys 1 act := by
  unfold step
  rw [view.working]

theorem step_submit {line : Submit}
    (view : View watched enqueued dequeued admission sequence since (.submitting job line)) :
    step 64 watched.sys 1 .go = submitStep 64 watched.sys 1 false job line := by
  unfold step
  rw [view.working]
  rfl

theorem step_execute {line : Execute}
    (view : View watched enqueued dequeued admission sequence since (.executing .outside line)) :
    step 64 watched.sys 1 .go = executeStep 64 watched.sys 1 false .outside line := by
  unfold step
  rw [view.working]
  rfl

theorem view_plain (view : View watched enqueued dequeued admission sequence since place) {act : Act}
    {sys : Sys (Fin 3)} {event : Event} {admission' : ℕ} {place' : Place}
    (result : step 64 watched.sys 1 act = (sys.moved 1 place', event)) (mask : sys.bufferMask = watched.sys.bufferMask)
    (enqueue : sys.enqueuePos = watched.sys.enqueuePos) (dequeue : sys.dequeuePos = watched.sys.dequeuePos)
    (admission : sys.admissionState = admission') (buffer : sys.buffer = watched.sys.buffer)
    (places : sys.place = watched.sys.place)
    (plain : event = .quiet ∨ event = .admitted ∨ event = .aimed ∨ event = .fitted ∨ event = .wrote job ∨
      event = .published ∨ event = .accepted job ∨ event = .sought ∨ event = .spotted ∨
      (∃ found, event = .read found) ∨ event = .released) :
    View (next 64 watched (1, act)) enqueued dequeued admission' sequence since place' :=
  view_moved view result (mask.trans view.mask) (enqueue.trans view.enqueue) (dequeue.trans view.dequeue) admission
    (by rw [buffer]; exact view.sequence) places (notes_kept view.notes event plain)

theorem notes_began {ledger : Ledger (Fin 3)} (notes : Notes ledger enqueued dequeued since) :
    Notes (ledger.record 2 1 .began) enqueued dequeued (enqueued, dequeued) where
  enqueued := notes.enqueued
  dequeued := notes.dequeued
  stalled := notes.stalled
  working := by
    rw [← notes.enqueued, ← notes.dequeued]
    exact ledger.begins_self 1
  position := notes.position

theorem calls_submit (view : View watched enqueued dequeued admission sequence since .idle) :
    View (next 64 watched (1, .submit job)) enqueued dequeued admission sequence (enqueued, dequeued)
      (.submitting job .entering) :=
  view_moved view (step_idle view _) view.mask view.enqueue view.dequeue view.admission view.sequence rfl
    (notes_began view.notes)

theorem calls_execute (view : View watched enqueued dequeued admission sequence since .idle) :
    View (next 64 watched (1, .execute)) enqueued dequeued admission sequence (enqueued, dequeued)
      (.executing .outside .seeking) :=
  view_moved view (step_idle view _) view.mask view.enqueue view.dequeue view.admission view.sequence rfl
    (notes_began view.notes)

theorem enters (view : View watched enqueued dequeued 1 sequence since (.submitting job .entering)) :
    View (next 64 watched (1, .go)) enqueued dequeued 1 sequence since (.submitting job (.admitting 1)) := by
  have result := step_submit view
  unfold submitStep at result
  dsimp only at result
  rw [view.admission] at result
  exact view_plain view result rfl rfl rfl view.admission rfl rfl (.inl rfl)

theorem is_admitted (view : View watched enqueued dequeued 1 sequence since (.submitting job (.admitting 1))) :
    View (next 64 watched (1, .go)) enqueued dequeued 2 sequence since (.submitting job .positioning) := by
  have result := step_submit view
  unfold submitStep at result
  dsimp only at result
  have value : up 64 1 = 2 := by decide
  rw [if_neg (by decide), if_neg (by decide), if_pos ⟨by decide, view.admission⟩, value] at result
  exact view_plain view result rfl rfl rfl rfl rfl rfl (by simp)

theorem positions (view : View watched enqueued dequeued admission sequence since (.submitting job .positioning)) :
    View (next 64 watched (1, .go)) enqueued dequeued admission sequence since
      (.submitting job (.comparing enqueued)) := by
  have result := step_submit view
  unfold submitStep at result
  dsimp only at result
  rw [view.enqueue] at result
  exact view_plain view result rfl rfl rfl view.admission rfl rfl (by simp)

theorem cell_at (view : View watched enqueued dequeued admission sequence since place) (pos : ℕ) :
    (watched.sys.cell pos).sequence = sequence (pos % 2) := by
  rw [Sys.cell, view.mask, view.sequence, Nat.and_one_is_mod]

theorem ready_at : cellState 64 pos pos = .ready := by
  unfold cellState
  rw [if_pos (by omega)]

theorem up_small (small : pos + 1 < 2 ^ 64) : up 64 pos = pos + 1 := by
  rw [up, Nat.mod_eq_of_lt small]

theorem compares (view : View watched enqueued dequeued admission sequence since (.submitting job (.comparing enqueued)))
    (free : sequence (enqueued % 2) = enqueued) :
    View (next 64 watched (1, .go)) enqueued dequeued admission sequence since
      (.submitting job (.claiming enqueued)) := by
  have state : cellState 64 (watched.sys.cell enqueued).sequence enqueued = .ready := by
    rw [cell_at view, free, ready_at]
  have result : step 64 watched.sys 1 .go = (watched.sys.moved 1 (.submitting job (.claiming enqueued)), .fitted) := by
    rw [step_submit view, submitStep, state]
  exact view_plain view result rfl rfl rfl view.admission rfl rfl (by simp)

theorem claims (view : View watched enqueued dequeued admission sequence since (.submitting job (.claiming enqueued)))
    (small : enqueued + 1 < 2 ^ 64) : View (next 64 watched (1, .go)) (enqueued + 1) dequeued admission sequence since
      (.submitting job (.writing enqueued)) := by
  have result : step 64 watched.sys 1 .go =
      ((watched.sys.setEnqueue (enqueued + 1)).moved 1 (.submitting job (.writing enqueued)), .claimed job) := by
    rw [step_submit view, submitStep, if_pos ⟨rfl, view.enqueue⟩, up_small small]
  have notes : Notes (watched.ledger.record 2 1 (.claimed job)) (enqueued + 1) dequeued since :=
    { enqueued := congrArg (· + 1) view.notes.enqueued
      dequeued := view.notes.dequeued
      stalled := view.notes.stalled
      working := view.notes.working
      position := view.notes.position }
  exact view_moved view result view.mask rfl view.dequeue view.admission view.sequence rfl notes
theorem writes (view : View watched enqueued dequeued admission sequence since (.submitting job (.writing pos))) :
    View (next 64 watched (1, .go)) enqueued dequeued admission sequence since (.submitting job (.publishing pos)) := by
  have cells : ∀ i, ((watched.sys.storeJob pos job).buffer i).sequence = sequence i := by
    intro i
    rw [← view.sequence i]
    change (Function.update watched.sys.buffer (pos &&& watched.sys.bufferMask) _ i).sequence = _
    by_cases same : i = pos &&& watched.sys.bufferMask
    · rw [same, update_self]
      rfl
    · rw [update_of_ne same]
  exact view_moved view (step_submit view) view.mask view.enqueue view.dequeue view.admission cells rfl
    (notes_kept view.notes _ (by simp))

theorem stores (view : View watched enqueued dequeued admission sequence since place) (pos value i : ℕ) :
    ((watched.sys.storeSequence pos value).buffer i).sequence = Function.update sequence (pos % 2) value i := by
  change (Function.update watched.sys.buffer (pos &&& watched.sys.bufferMask) _ i).sequence = _
  rw [view.mask, Nat.and_one_is_mod]
  by_cases same : i = pos % 2
  · rw [same, update_self, update_self]
  · rw [update_of_ne same, update_of_ne same, view.sequence]

theorem publishes (view : View watched enqueued dequeued admission sequence since (.submitting job (.publishing pos)))
    (small : pos + 1 < 2 ^ 64) :
    View (next 64 watched (1, .go)) enqueued dequeued admission (Function.update sequence (pos % 2) (pos + 1)) since
      (.submitting job .posting) := by
  have result : step 64 watched.sys 1 .go =
      ((watched.sys.storeSequence pos (pos + 1)).moved 1 (.submitting job .posting), .published) := by
    rw [step_submit view, submitStep, up_small small]
  exact view_moved view result view.mask view.enqueue view.dequeue view.admission (stores view pos (pos + 1)) rfl
    (notes_kept view.notes _ (by simp))

theorem posts (view : View watched enqueued dequeued admission sequence since (.submitting job .posting)) :
    View (next 64 watched (1, .go)) enqueued dequeued admission sequence since (.submitting job .leaving) :=
  view_plain view (step_submit view) rfl rfl rfl view.admission rfl rfl (by simp)

theorem leaves (view : View watched enqueued dequeued 2 sequence since (.submitting job .leaving)) :
    View (next 64 watched (1, .go)) enqueued dequeued 1 sequence since .idle := by
  have result := step_submit view
  unfold submitStep at result
  dsimp only at result
  have value : down 64 2 = 1 := by decide
  rw [view.admission, value] at result
  exact view_plain view result rfl rfl rfl rfl rfl rfl (by simp)

theorem seeks (view : View watched enqueued dequeued admission sequence since (.executing .outside .seeking)) :
    View (next 64 watched (1, .go)) enqueued dequeued admission sequence since
      (.executing .outside (.matching dequeued)) := by
  have result := step_execute view
  unfold executeStep at result
  dsimp only at result
  rw [view.dequeue] at result
  exact view_plain view result rfl rfl rfl view.admission rfl rfl (by simp)

theorem finds (view : View watched enqueued dequeued admission sequence since (.executing .outside (.matching dequeued)))
    (small : dequeued + 1 < 2 ^ 64) (full : sequence (dequeued % 2) = dequeued + 1) :
    View (next 64 watched (1, .go)) enqueued dequeued admission sequence since
      (.executing .outside (.taking dequeued)) := by
  have state : cellState 64 (watched.sys.cell dequeued).sequence (up 64 dequeued) = .ready := by
    rw [cell_at view, full, up_small small, ready_at]
  have result : step 64 watched.sys 1 .go = (watched.sys.moved 1 (.executing .outside (.taking dequeued)), .spotted) := by
    rw [step_execute view, executeStep, state]
  exact view_plain view result rfl rfl rfl view.admission rfl rfl (by simp)

theorem takes (view : View watched enqueued dequeued admission sequence since (.executing .outside (.taking dequeued)))
    (small : dequeued + 1 < 2 ^ 64) : View (next 64 watched (1, .go)) enqueued (dequeued + 1) admission sequence since
      (.executing .outside (.reading dequeued)) := by
  have result : step 64 watched.sys 1 .go =
      ((watched.sys.setDequeue (dequeued + 1)).moved 1 (.executing .outside (.reading dequeued)), .took) := by
    rw [step_execute view, executeStep, if_pos ⟨rfl, view.dequeue⟩, up_small small]
  have notes : Notes (watched.ledger.record 2 1 .took) enqueued (dequeued + 1) since :=
    { enqueued := view.notes.enqueued
      dequeued := congrArg (· + 1) view.notes.dequeued
      stalled := view.notes.stalled
      working := view.notes.working
      position := view.notes.position }
  exact view_moved view result view.mask view.enqueue rfl view.admission view.sequence rfl notes

theorem reads (view : View watched enqueued dequeued admission sequence since (.executing .outside (.reading pos))) :
    ∃ found, View (next 64 watched (1, .go)) enqueued dequeued admission sequence since
      (.executing .outside (.releasing pos found)) :=
  ⟨_, view_plain view (step_execute view) rfl rfl rfl view.admission rfl rfl (by simp)⟩

theorem releases {found : Job}
    (view : View watched enqueued dequeued admission sequence since (.executing .outside (.releasing pos found)))
    (small : pos + 2 < 2 ^ 64) :
    View (next 64 watched (1, .go)) enqueued dequeued admission (Function.update sequence (pos % 2) (pos + 2)) since
      (.executing .outside (.running found)) := by
  have value : (pos + watched.sys.bufferMask + 1) % 2 ^ 64 = pos + 2 := by
    rw [view.mask, Nat.mod_eq_of_lt (by omega)]
  have result : step 64 watched.sys 1 .go =
      ((watched.sys.storeSequence pos (pos + 2)).moved 1 (.executing .outside (.running found)), .released) := by
    rw [step_execute view, executeStep, value]
  exact view_moved view result view.mask view.enqueue view.dequeue view.admission (stores view pos (pos + 2)) rfl
    (notes_kept view.notes _ (by simp))

theorem runs {found : Job}
    (view : View watched enqueued dequeued admission sequence since (.executing .outside (.running found))) :
    View (next 64 watched (1, .go)) enqueued dequeued admission sequence since (.executing .outside (.finishing found)) :=
  view_plain view (step_execute view) rfl rfl rfl view.admission rfl rfl (by simp)

theorem finishes {found : Job}
    (view : View watched enqueued dequeued admission sequence since (.executing .outside (.finishing found))) :
    View (next 64 watched (1, .go)) enqueued dequeued admission sequence (enqueued, dequeued) .idle := by
  have notes : Notes (watched.ledger.record 2 1 (.finished found)) enqueued dequeued (enqueued, dequeued) :=
    { enqueued := view.notes.enqueued
      dequeued := view.notes.dequeued
      stalled := view.notes.stalled
      working := by
        rw [← view.notes.enqueued, ← view.notes.dequeued]
        exact Ledger.begins_self _ 1
      position := view.notes.position }
  have result := step_execute view
  unfold executeStep at result
  dsimp only at result
  split at result
  all_goals exact view_moved view result view.mask view.enqueue view.dequeue view.admission view.sequence rfl notes

theorem brisk_of_view (view : View watched enqueued dequeued admission sequence since place) (less : enqueued < 2 ^ 63)
    (less' : dequeued < 2 ^ 63) (near : enqueued < since.1 + 2 ^ 63) (near' : dequeued < since.2 + 2 ^ 63) :
    Brisk (signBit 64) watched := by
  intro thread open_
  have half : signBit 64 = 2 ^ 63 := rfl
  rw [view.notes.enqueued, view.notes.dequeued, half]
  match thread with
  | 0 =>
    rw [view.notes.stalled, zero_add]
    exact ⟨less, less'⟩
  | 1 =>
    rw [view.notes.working]
    exact ⟨near, near'⟩
  | 2 =>
    rw [view.worker] at open_
    cases open_

def cycle : List (Fin 3 × Act) :=
  [(1, .submit job), (1, .go), (1, .go), (1, .go), (1, .go), (1, .go), (1, .go), (1, .go), (1, .go), (1, .go),
    (1, .execute), (1, .go), (1, .go), (1, .go), (1, .go), (1, .go), (1, .go), (1, .go)]

def Between (watched : Watched (Fin 3)) (count : ℕ) : Prop :=
  ∃ sequence began began', View watched count count 1 sequence (began, began') .idle ∧ sequence (count % 2) = count ∧
    sequence ((count + 1) % 2) = count + 1 ∧ count < began + 2 ^ 63 ∧ count < began' + 2 ^ 63

theorem along_step {steps : List (Fin 3 × Act)} {move : Fin 3 × Act} {began began' : ℕ}
    (view : View watched enqueued dequeued admission sequence (began, began') place) (less : enqueued < 2 ^ 63)
    (less' : dequeued < 2 ^ 63) (near : enqueued < began + 2 ^ 63) (near' : dequeued < began' + 2 ^ 63)
    (rest : Along (next 64) (fun watched _ => Brisk (signBit 64) watched) (next 64 watched move) steps) :
    Along (next 64) (fun watched _ => Brisk (signBit 64) watched) watched (move :: steps) :=
  ⟨brisk_of_view view less less' near near', rest⟩

theorem cycle_between {count : ℕ} (less : count + 1 < 2 ^ 63) (between : Between watched count) :
    Along (next 64) (fun watched _ => Brisk (signBit 64) watched) watched cycle ∧
      Between (run (next 64) watched cycle) (count + 1) := by
  obtain ⟨sequence, began, began', idle, free, other, near⟩ := between
  have cells : (count + 1) % 2 ≠ count % 2 := by omega
  have later : (count + 1 + 1) % 2 = count % 2 := by omega
  have called := calls_submit idle
  have entered := enters called
  have admitted := is_admitted entered
  have positioned := positions admitted
  have compared := compares positioned free
  have claimed := claims compared (by omega)
  have written := writes claimed
  have published := publishes written (by omega)
  have posted := posts published
  have accepted := leaves posted
  have asked := calls_execute accepted
  have sought := seeks asked
  have found := finds sought (by omega) (update_self _ _ _)
  have taken := takes found (by omega)
  obtain ⟨job', read⟩ := reads taken
  have released := releases read (by omega)
  have ran := runs released
  have finished := finishes ran
  constructor
  · refine along_step idle (by omega) (by omega) near.1 near.2 ?_
    refine along_step called (by omega) (by omega) (by omega) (by omega) ?_
    refine along_step entered (by omega) (by omega) (by omega) (by omega) ?_
    refine along_step admitted (by omega) (by omega) (by omega) (by omega) ?_
    refine along_step positioned (by omega) (by omega) (by omega) (by omega) ?_
    refine along_step compared (by omega) (by omega) (by omega) (by omega) ?_
    refine along_step claimed (by omega) (by omega) (by omega) (by omega) ?_
    refine along_step written (by omega) (by omega) (by omega) (by omega) ?_
    refine along_step published (by omega) (by omega) (by omega) (by omega) ?_
    refine along_step posted (by omega) (by omega) (by omega) (by omega) ?_
    refine along_step accepted (by omega) (by omega) (by omega) (by omega) ?_
    refine along_step asked (by omega) (by omega) (by omega) (by omega) ?_
    refine along_step sought (by omega) (by omega) (by omega) (by omega) ?_
    refine along_step found (by omega) (by omega) (by omega) (by omega) ?_
    refine along_step taken (by omega) (by omega) (by omega) (by omega) ?_
    refine along_step read (by omega) (by omega) (by omega) (by omega) ?_
    refine along_step released (by omega) (by omega) (by omega) (by omega) ?_
    refine along_step ran (by omega) (by omega) (by omega) (by omega) ?_
    exact along_nil _
  refine ⟨_, _, _, finished, ?_, ?_, ?_⟩
  · rw [update_of_ne cells, update_of_ne cells]
    exact other
  · rw [later, update_self]
  · omega

def stall : List (Fin 3 × Act) := [(0, .submit job), (0, .go), (0, .go), (0, .go)]

def first : Watched (Fin 3) := begin (newSys {2} 2)

theorem stalled : Along (next 64) (fun watched _ => Brisk (signBit 64) watched) first stall ∧
    Between (run (next 64) first stall) 0 := by
  constructor
  · refine ⟨?_, ?_, ?_, ?_, along_nil _⟩ <;> unfold Brisk <;> decide +kernel
  refine ⟨id, 0, 0, ?_, rfl, rfl, by omega, by omega⟩
  have notes : Notes (run (next 64) first stall).ledger 0 0 (0, 0) :=
    ⟨by decide +kernel, by decide +kernel, by decide +kernel, by decide +kernel, by decide +kernel⟩
  exact
    { mask := by decide +kernel
      enqueue := by decide +kernel
      dequeue := by decide +kernel
      admission := by decide +kernel
      sequence := fun _ => rfl
      stalled := by decide +kernel
      working := by decide +kernel
      worker := by decide +kernel
      notes := notes }

theorem cycles_between (count : ℕ) (less : count < 2 ^ 63) (between : Between watched 0) :
    Along (next 64) (fun watched _ => Brisk (signBit 64) watched) watched (List.replicate count cycle).flatten ∧
      Between (run (next 64) watched (List.replicate count cycle).flatten) count := by
  induction count with
  | zero => exact ⟨along_nil _, between⟩
  | succ count ih =>
    obtain ⟨along, before⟩ := ih (by omega)
    obtain ⟨along', after⟩ := cycle_between less before
    rw [List.replicate_succ', List.flatten_append, List.flatten_singleton, along_append, run_append]
    exact ⟨⟨along, along'⟩, after⟩

theorem turned_away {count : ℕ} (last : count + 1 = 2 ^ 63) (between : Between watched count) :
    Brisk (signBit 64) watched ∧ TurnsAway 64 watched 0 .go ∧ ¬ Full 2 watched 0 := by
  obtain ⟨sequence, began, began', view, -, other, near⟩ := between
  have even : (count + 1) % 2 = 0 := by omega
  rw [even, last] at other
  have state : cellState 64 (watched.sys.cell 0).sequence 0 = .behind := by
    rw [cell_at view, Nat.zero_mod, other]
    decide
  have result : step 64 watched.sys 0 .go = (watched.sys.moved 0 (.submitting job .refusing), .dropped) := by
    have line : step 64 watched.sys 0 .go = submitStep 64 watched.sys 0 false job (.comparing 0) := by
      unfold step
      rw [view.stalled]
      rfl
    rw [line, submitStep, state]
  refine ⟨brisk_of_view view (by omega) (by omega) near.1 near.2, ⟨job, 0, view.stalled, ?_⟩, ?_⟩
  · rw [result]
    exact Counting.moved_place watched.sys 0 _
  rw [Full, view.notes.position]
  omega

/-- Half the range itself is not bound enough: with every call shorter than half the range of either
counter, a submitter is turned away though the queue is empty. -/
theorem stalled_turned_away : ∃ sys : Sys (Fin 3), jobSystemInit 64 {2} 2 = some sys ∧ ¬ ∀ moves : List (Fin 3 × Act),
        Along (next 64) (fun watched _ => Brisk (signBit 64) watched) (begin sys) moves →
          Brisk (signBit 64) (run (next 64) (begin sys) moves) →
            ∀ thread act, TurnsAway 64 (run (next 64) (begin sys) moves) thread act →
              Full 2 (run (next 64) (begin sys) moves) thread := by
  refine ⟨newSys {2} 2, ?_, ?_⟩
  · rw [jobSystemInit, if_neg (by decide), if_neg (by decide)]
  intro safe
  obtain ⟨count, last⟩ : ∃ count, count + 1 = 2 ^ 63 := ⟨2 ^ 63 - 1, by omega⟩
  obtain ⟨along, between⟩ := stalled
  obtain ⟨along', between'⟩ := cycles_between count (by omega) between
  have brisk : Along (next 64) (fun watched _ => Brisk (signBit 64) watched) first
      (stall ++ (List.replicate count cycle).flatten) := along_append.mpr ⟨along, along'⟩
  rw [← run_append] at between'
  obtain ⟨pace, turned, empty⟩ := turned_away last between'
  have full := safe _ brisk pace 0 .go turned
  exact empty full

end ProvenC.Jobs.Stalling
