import ProvenC.Jobs.Groups

/-!
# Workers that leave

A worker looks a last time when it has seen the submissions closed and no submitter in progress.
-/

namespace ProvenC.Jobs.Leaving

open Lib.Ring (Queue Phase Side Sound Fits)
open Jobs.Queue Jobs.Words Jobs.Watching Jobs.Following Jobs.Counting
open Jobs.Groups

variable {Thread : Type*} {bits capacity : ℕ}

structure Leaves (bits : ℕ) (watched : Watched Thread) : Prop where
  closed : ∀ thread, lastAt (watched.sys.place thread) = true ∨ watched.sys.place thread = .polling →
    Closed bits watched.sys
  alone : ∀ thread, lastAt (watched.sys.place thread) = true → watched.ledger.admitted = ∅
  drained : ∀ thread, leftAt (watched.sys.place thread) = true →
    watched.ledger.queue.enqueued ≤ watched.ledger.queue.dequeued

structure LastEffect (bits : ℕ) (sys : Sys Thread) (thread : Thread) (after : Place) (event : Event) : Prop where
  polls : after = .polling → sys.admissionState &&& signBit bits ≠ 0
  looks : lastAt after = true → lastAt (sys.place thread) = true ∨
    sys.place thread = .polling ∧ sys.admissionState &&& activeMask bits = 0
  leaves : leftAt after = true → leftAt (sys.place thread) = true ∨
    event = .dropped ∧ ∃ pos, sys.place thread = .executing .last (.matching pos) ∧
      cellState bits (sys.cell pos).sequence (up bits pos) = .behind

theorem last_of_left {place : Place} (left : leftAt place = true) : lastAt place = true := by
  cases place with
  | handing | gone => rfl
  | idle | submitting | executing | closing | awaiting | waking | parked | asking | polling => cases left

theorem last_elsewhere {sys : Sys Thread} {thread : Thread} {after : Place} {event : Event}
    (elsewhere : lastAt after = false) (polls : after ≠ .polling) : LastEffect bits sys thread after event where
  polls := fun is => absurd is polls
  looks := by
    intro is
    rw [elsewhere] at is
    cases is
  leaves := by
    intro is
    rw [last_of_left is] at elsewhere
    cases elsewhere

theorem last_stays {sys : Sys Thread} {thread : Thread} {after : Place} {event : Event}
    (polls : after ≠ .polling) (was : lastAt after = lastAt (sys.place thread))
    (gone : leftAt after = leftAt (sys.place thread)) : LastEffect bits sys thread after event where
  polls := fun is => absurd is polls
  looks := fun is => Or.inl (was.symm.trans is)
  leaves := fun is => Or.inl (gone.symm.trans is)

variable [DecidableEq Thread]

theorem last_submit (sys : Sys Thread) (thread : Thread) (job : Job) (line : Submit) (weak : Bool) :
    LastEffect bits sys thread ((submitStep bits sys thread weak job line).1.place thread)
      (submitStep bits sys thread weak job line).2 := by
  have refused : ∀ event, LastEffect bits sys thread (afterRefusal job) event := by
    intro event
    unfold afterRefusal
    split <;> exact last_elsewhere rfl nofun
  cases line with
  | admitting state =>
    unfold submitStep
    dsimp only
    split
    · rw [moved_place]
      exact refused _
    split
    · rw [moved_place]
      exact refused _
    · split <;> rw [moved_place] <;> exact last_elsewhere rfl nofun
  | comparing | claiming =>
    unfold submitStep
    dsimp only
    split <;> rw [moved_place] <;> exact last_elsewhere rfl nofun
  | refusing =>
    unfold submitStep
    rw [moved_place]
    exact refused _
  | counting | entering | positioning | writing | publishing | posting | leaving | uncounting =>
    unfold submitStep
    rw [moved_place]
    exact last_elsewhere rfl nofun

theorem last_execute (sys : Sys Thread) (thread : Thread) {caller : Caller} {line : Execute}
    (here : sys.place thread = .executing caller line) (weak : Bool) :
    LastEffect bits sys thread ((executeStep bits sys thread weak caller line).1.place thread)
      (executeStep bits sys thread weak caller line).2 := by
  have stays : ∀ (line' : Execute) (event : Event), LastEffect bits sys thread (.executing caller line') event := by
    intro line' event
    refine last_stays nofun ?_ ?_
    · rw [here]
      cases caller <;> rfl
    rw [here]
    rfl
  have ran : ∀ event, LastEffect bits sys thread (afterExecute caller true) event := by
    intro event
    cases caller <;> exact last_elsewhere rfl nofun
  cases line with
  | matching pos =>
    unfold executeStep
    dsimp only
    split <;> rename_i state <;> rw [moved_place]
    · exact stays _ _
    · cases caller with
      | outside | draining => exact last_elsewhere rfl nofun
      | last =>
        exact
          { polls := nofun
            looks := fun _ => Or.inl (by rw [here]; rfl)
            leaves := fun _ => Or.inr ⟨rfl, pos, here, state⟩ }
    · exact stays _ _
  | taking pos =>
    unfold executeStep
    dsimp only
    split <;> rw [moved_place] <;> exact stays _ _
  | finishing job =>
    unfold executeStep
    dsimp only
    split <;> rw [moved_place] <;> exact ran _
  | seeking | reading | releasing | running =>
    unfold executeStep
    rw [moved_place]
    exact stays _ _

theorem last_step (sys : Sys Thread) (thread : Thread) (act : Act) :
    LastEffect bits sys thread ((step bits sys thread act).1.place thread) (step bits sys thread act).2 := by
  unfold step
  split <;> rename_i here
  · unfold callStep
    split
    · split <;> rw [moved_place] <;> exact last_elsewhere rfl nofun
    · rw [moved_place]
      exact last_elsewhere rfl nofun
    · rw [moved_place]
      exact last_elsewhere rfl nofun
    all_goals
      rw [here]
      exact last_elsewhere rfl nofun
  · exact last_submit sys thread _ _ _
  · exact last_execute sys thread here _
  · unfold closeStep
    rw [moved_place]
    exact last_elsewhere rfl nofun
  · unfold awaitStep
    split
    · rw [here]
      exact last_elsewhere rfl nofun
    · split <;> rw [moved_place] <;> exact last_elsewhere rfl nofun
  · unfold wakeStep
    split <;> rw [moved_place] <;> exact last_elsewhere rfl nofun
  · unfold parkStep
    split
    · rw [moved_place]
      exact last_elsewhere rfl nofun
    rw [here]
    exact last_elsewhere rfl nofun
  · unfold askStep
    split <;> rename_i asked <;> rw [moved_place]
    · exact { polls := fun _ => asked, looks := nofun, leaves := nofun }
    · exact last_elsewhere rfl nofun
  · unfold pollStep
    split <;> rename_i none_ <;> rw [moved_place]
    · exact { polls := nofun, looks := fun _ => Or.inr ⟨here, none_⟩, leaves := nofun }
    · exact last_elsewhere rfl nofun
  · rw [moved_place]
    refine last_stays nofun ?_ ?_ <;> rw [here] <;> rfl
  refine last_stays ?_ rfl rfl
  rw [here]
  nofun

section Steps

variable {watched : Watched Thread} {thread : Thread}

omit [DecidableEq Thread] in
theorem filling_admitted (follows : Follows bits capacity watched) {phase : Phase} {p : ℕ}
    (staked : watched.ledger.queue.stake thread = some (phase, p)) (filling : phase.filling = true) :
    admittedAt (watched.sys.place thread) = true := by
  have matched := follows.places thread
  rw [staked] at matched
  cases place : watched.sys.place thread with
  | submitting job line =>
    rw [place] at matched
    cases line with
    | positioning | comparing | claiming | writing | publishing | posting | leaving | refusing => rfl
    | entering | admitting => cases matched
    | counting | uncounting => cases matched.1
  | executing caller line =>
    rw [place] at matched
    cases line with
    | seeking => cases matched
    | matching | taking | reading | releasing | running | finishing =>
      obtain ⟨q, staked', -⟩ := matched
      cases staked'
      cases filling
  | idle | closing | awaiting | waking | parked | asking | polling | handing | gone =>
    rw [place] at matched
    cases matched

omit [DecidableEq Thread] in
theorem empty_of_behind (shape : Shape bits capacity) (follows : Follows bits capacity watched)
    (admits : Admits bits watched) (brisk : Brisk (signBit bits + 1 - capacity) watched)
    (alone : watched.ledger.admitted = ∅) {caller : Caller} {pos : ℕ}
    (here : watched.sys.place thread = .executing caller (.matching pos))
    (behind : cellState bits (watched.sys.cell pos).sequence (up bits pos) = .behind) :
    watched.ledger.queue.enqueued ≤ watched.ledger.queue.dequeued := by
  have matched := follows.places thread
  have pace := brisk thread (by rw [here]; rfl)
  rw [here] at matched
  obtain ⟨p, staked, rfl⟩ := matched
  have sound := follows.lawful.sound
  have since := follows.lawful.seeks thread _ _ staked (Or.inl rfl)
  have aim : p ≤ watched.ledger.queue.dequeued := sound.fits thread _ _ staked
  rw [execute_look shape follows aim (by omega)] at behind
  have unpublished : watched.ledger.queue.seq capacity p < p + 1 := by
    split at behind
    · cases behind
    split at behind
    · assumption
    · cases behind
  have published := sound.published p
  by_contra some
  have reached := sound.reached p (by omega)
  obtain ⟨owner, phase, owns, filling⟩ := sound.owned p (by omega) (by omega)
  have mem := (admits.within owner).mpr (filling_admitted follows owns filling)
  rw [alone] at mem
  cases mem

theorem record_enqueued (ledger : Ledger Thread) (event : Event) (unclaimed : ∀ job, event ≠ .claimed job) :
    (ledger.record capacity thread event).queue.enqueued = ledger.queue.enqueued := by
  cases event with
  | claimed job => exact absurd rfl (unclaimed job)
  | quiet | began | counted | admitted | aimed | fitted | dropped | wrote | published | accepted | departed
  | uncounted | sought | spotted | took | read | released | finished => rfl

theorem record_dequeued (ledger : Ledger Thread) (event : Event) :
    ledger.queue.dequeued ≤ (ledger.record capacity thread event).queue.dequeued := by
  cases event with
  | took => exact Nat.le_succ _
  | quiet | began | counted | admitted | aimed | fitted | dropped | claimed | wrote | published | accepted | departed
  | uncounted | sought | spotted | read | released | finished => exact le_refl _

theorem record_alone (ledger : Ledger Thread) (event : Event) (alone : ledger.admitted = ∅)
    (unadmitted : event ≠ .admitted) : (ledger.record capacity thread event).admitted = ∅ := by
  cases event with
  | admitted => exact absurd rfl unadmitted
  | accepted | departed =>
    change ledger.admitted.erase thread = ∅
    rw [alone]
    rfl
  | quiet | began | counted | aimed | fitted | dropped | claimed | wrote | published | uncounted | sought | spotted
  | took | read | released | finished => exact alone

theorem closed_step (shape : Shape bits capacity) (admits : Admits bits watched) (act : Act)
    (closed : Closed bits watched.sys) :
    Closed bits (step bits watched.sys thread act).1 ∧ (step bits watched.sys thread act).2 ≠ .admitted := by
  have effect := @admission_step _ _ bits watched.sys thread act
  have within := admits.within thread
  generalize step bits watched.sys thread act = result at effect
  obtain ⟨sys, event⟩ := result
  have signed := (signed_iff shape.some_bits admits.small).mpr closed
  have lessened : thread ∈ watched.ledger.admitted → sys.admissionState = down bits watched.sys.admissionState →
      Closed bits sys := by
    intro mem fell
    have some := Finset.card_pos.mpr ⟨thread, mem⟩
    have word := word_down shape.some_bits admits.small (by rw [admits.count]; exact some)
    rw [Closed, fell]
    exact word.2.2.mpr closed
  have plain : (sys.admissionState = watched.sys.admissionState ∨
      sys.admissionState = watched.sys.admissionState ||| signBit bits) → Closed bits sys := by
    rintro (equal | rose)
    · rw [Closed, equal]
      exact closed
    have upper : signBit bits ≤ watched.sys.admissionState := closed
    rw [Closed, rose, or_signBit shape.some_bits admits.small, if_pos upper]
    exact upper
  cases event with
  | admitted => exact absurd effect.1 signed
  | accepted | departed => exact ⟨lessened (within.mpr effect.2.1) effect.1, nofun⟩
  | quiet | began | counted | aimed | fitted | dropped | claimed | wrote | published | uncounted | sought | spotted
  | took | read | released | finished => exact ⟨plain effect.1, nofun⟩

theorem claimed_admitted (follows : Follows bits capacity watched) (act : Act) (job : Job)
    (claimed : (step bits watched.sys thread act).2 = .claimed job) : admittedAt (watched.sys.place thread) = true := by
  have matched := follows.places thread
  have effect := @pending_step _ bits _ watched.sys thread act (by
    intro job group here
    rw [here] at matched
    exact matched.2)
  rw [claimed] at effect
  exact effect.2.2.1

theorem leaves_step (shape : Shape bits capacity) (follows : Follows bits capacity watched)
    (admits : Admits bits watched) (brisk : Brisk (signBit bits + 1 - capacity) watched)
    (leaves : Leaves bits watched) (move : Thread × Act) : Leaves bits (next bits watched move) := by
  obtain ⟨thread, act⟩ := move
  have effect := @last_step _ bits _ watched.sys thread act
  have others := fun other => @step_others _ _ bits watched.sys thread other act
  have closes := @closed_step _ bits capacity _ watched thread shape admits act
  have claims := @claimed_admitted _ bits capacity _ watched thread follows act
  -- with nobody admitted, nobody claims
  have still : Closed bits watched.sys → watched.ledger.admitted = ∅ →
      (next bits watched (thread, act)).ledger.admitted = ∅ ∧
        (next bits watched (thread, act)).ledger.queue.enqueued = watched.ledger.queue.enqueued := by
    intro closed alone
    refine ⟨record_alone _ _ alone (closes closed).2, record_enqueued _ _ ?_⟩
    intro job claimed
    have mem := (admits.within thread).mpr (claims job claimed)
    rw [alone] at mem
    cases mem
  have dequeued : watched.ledger.queue.dequeued ≤ (next bits watched (thread, act)).ledger.queue.dequeued :=
    record_dequeued _ _
  -- what holds of a thread that looks a last time after the step
  have looking : ∀ other, lastAt ((step bits watched.sys thread act).1.place other) = true →
      Closed bits watched.sys ∧ watched.ledger.admitted = ∅ := by
    intro other last
    by_cases mine : other = thread
    · subst mine
      obtain was | ⟨polling, none_⟩ := effect.looks last
      · exact ⟨leaves.closed other (Or.inl was), leaves.alone other was⟩
      have closed := leaves.closed other (Or.inr polling)
      rw [and_activeMask, admits.count] at none_
      exact ⟨closed, Finset.card_eq_zero.mp none_⟩
    rw [others other mine] at last
    exact ⟨leaves.closed other (Or.inl last), leaves.alone other last⟩
  refine ⟨?_, ?_, ?_⟩
  · rintro other (last | polling)
    · exact (closes (looking other last).1).1
    by_cases mine : other = thread
    · subst mine
      have signed := effect.polls polling
      exact (closes ((signed_iff shape.some_bits admits.small).mp signed)).1
    rw [next_eq, after] at polling
    dsimp only at polling
    rw [others other mine] at polling
    exact (closes (leaves.closed other (Or.inr polling))).1
  · intro other last
    have looks := looking other last
    exact (still looks.1 looks.2).1
  intro other gone
  have looks := looking other (last_of_left gone)
  rw [(still looks.1 looks.2).2]
  by_cases mine : other = thread
  · subst mine
    obtain was | ⟨-, pos, here, behind⟩ := effect.leaves gone
    · exact (leaves.drained other was).trans dequeued
    · exact (empty_of_behind shape follows admits brisk looks.2 here behind).trans dequeued
  rw [next_eq, after] at gone
  dsimp only at gone
  rw [others other mine] at gone
  exact (leaves.drained other gone).trans dequeued

end Steps

end ProvenC.Jobs.Leaving
