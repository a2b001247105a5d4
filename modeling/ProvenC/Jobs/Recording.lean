import ProvenC.Jobs.Watching

/-!
# Entries that are made rightly

Each kind of entry keeps the ledger lawful when it is made in the state it belongs to.
-/

namespace ProvenC.Jobs.Recording

open Lib.Ring (Queue Phase Side Sound Fits)
open Jobs.Queue (Job)
open Jobs.Watching
open Jobs.Watching.Lawful (Welcome)

variable {Thread : Type*} [DecidableEq Thread] {capacity : ℕ} {ledger : Ledger Thread} {thread : Thread}

def Unfilled (ledger : Ledger Thread) (thread : Thread) : Prop :=
  ∀ phase p, ledger.queue.stake thread = some (phase, p) → phase.filling = false

omit [DecidableEq Thread] in
theorem unfilled_of {stake : Option (Phase × ℕ)} (staked : ledger.queue.stake thread = stake)
    (unfilled : ∀ phase p, stake = some (phase, p) → phase.filling = false) : Unfilled ledger thread := by
  intro phase p found
  exact unfilled phase p (staked.symm.trans found)

variable (lawful : Lawful capacity ledger)
include lawful

variable (unfilled : Unfilled ledger thread)
include unfilled

theorem moved {stake : Option (Phase × ℕ)}
    (fits : ∀ phase p, stake = some (phase, p) → Fits capacity ledger.queue phase p ∧ phase.side = none)
    (welcome : ∀ phase p, stake = some (phase, p) → Welcome ledger thread phase p) :
    Lawful capacity (ledger.setQueue (ledger.queue.move thread stake)) := by
  have grown : Grown capacity ledger.queue (ledger.queue.move thread stake) := grown_refl rfl rfl rfl rfl
  apply lawful.setQueue _ grown rfl welcome
  apply lawful.sound.turn fits
  intro old p staked filling
  rw [unfilled old p staked] at filling
  cases filling

theorem aimed : Lawful capacity (ledger.setQueue (ledger.queue.move thread (some (.aimed, ledger.queue.enqueued)))) := by
  apply moved lawful unfilled
  all_goals intro phase p found
  · cases found
    exact ⟨le_refl _, rfl⟩
  · cases found
    exact { aims := fun _ => (lawful.since thread).1, seeks := by simp, reads := nofun, puts := nofun, gets := nofun }

theorem sought :
    Lawful capacity (ledger.setQueue (ledger.queue.move thread (some (.sought, ledger.queue.dequeued)))) := by
  apply moved lawful unfilled
  all_goals intro phase p found
  · cases found
    exact ⟨le_refl _, rfl⟩
  · cases found
    exact { aims := by simp, seeks := fun _ => (lawful.since thread).2, reads := nofun, puts := nofun, gets := nofun }

theorem dropped : Lawful capacity (ledger.setQueue (ledger.queue.move thread none)) := by
  apply moved lawful unfilled
  all_goals intro phase p found
  · cases found
  · cases found

omit unfilled

omit lawful

variable {p : ℕ}

include lawful

theorem advanced {old : Phase} (new : Phase)
    (staked : ledger.queue.stake thread = some (old, p)) (fits : Fits capacity ledger.queue new p)
    (side : ∀ side, new.side = some side → old.side = some side)
    (fills : old.filling = true → ledger.queue.seq capacity p = p → new.filling = true)
    (welcome : Welcome ledger thread new p) : Lawful capacity (ledger.setQueue (ledger.queue.advance thread new)) := by
  have grown : Grown capacity ledger.queue (ledger.queue.advance thread new) := grown_refl rfl rfl rfl rfl
  apply lawful.setQueue (lawful.sound.advance staked fits side fills) grown rfl
  intro phase q found
  rw [staked] at found
  cases found
  exact welcome

theorem fitted (staked : ledger.queue.stake thread = some (.aimed, p)) (come : p ≤ ledger.queue.seq capacity p) :
    Lawful capacity (ledger.setQueue (ledger.queue.advance thread .ready)) := by
  have aim : p ≤ ledger.queue.enqueued := lawful.sound.fits thread _ _ staked
  apply advanced lawful .ready staked ⟨aim, come⟩ nofun nofun
  exact
    { aims := fun _ => lawful.aims thread _ _ staked (.inl rfl), seeks := by simp, reads := nofun, puts := nofun,
      gets := nofun }

theorem spotted (staked : ledger.queue.stake thread = some (.sought, p)) (come : p < ledger.queue.seq capacity p) :
    Lawful capacity (ledger.setQueue (ledger.queue.advance thread .able)) := by
  have aim : p ≤ ledger.queue.dequeued := lawful.sound.fits thread _ _ staked
  apply advanced lawful .able staked ⟨aim, come⟩ nofun nofun
  exact
    { aims := by simp, seeks := fun _ => lawful.seeks thread _ _ staked (.inl rfl), reads := nofun, puts := nofun,
      gets := nofun }

theorem claimed {job : Job} (staked : ledger.queue.stake thread = some (.ready, ledger.queue.enqueued)) :
    Lawful capacity (ledger.setQueue (ledger.queue.claim thread job)) := by
  have grown : Grown capacity ledger.queue (ledger.queue.claim thread job) :=
    { enqueued := Nat.le_succ _
      dequeued := le_refl _
      seq := fun _ => le_refl _
      given := fun p less => Function.update_of_ne (ne_of_lt less) _ _ }
  apply lawful.setQueue (lawful.sound.claim staked) grown rfl
  intro phase p found
  cases found
  have new : ledger.queue.enqueued ∉ ledger.accepted.map Prod.fst := by
    intro mem
    obtain ⟨entry, mem', same⟩ := List.mem_map.mp mem
    have less := (lawful.accepted entry mem').1
    omega
  exact { aims := by simp, seeks := by simp, reads := nofun, puts := fun _ => new, gets := nofun }

theorem took (staked : ledger.queue.stake thread = some (.able, ledger.queue.dequeued)) :
    Lawful capacity (ledger.setQueue (ledger.queue.take thread)) := by
  have grown : Grown capacity ledger.queue (ledger.queue.take thread) :=
    { enqueued := le_refl _
      dequeued := Nat.le_succ _
      seq := fun _ => le_refl _
      given := fun _ _ => rfl }
  apply lawful.setQueue (lawful.sound.take staked) grown rfl
  intro phase p found
  cases found
  have unread : some ledger.queue.dequeued ∉ ledger.taken.map Prod.fst := by
    intro mem
    obtain ⟨entry, mem', same⟩ := List.mem_map.mp mem
    obtain ⟨p, ticket, less, -⟩ := lawful.taken entry mem'
    have equal := Option.some.inj (ticket.symm.trans same)
    omega
  have unfinished : ledger.queue.dequeued ∉ ledger.finished := by
    intro mem
    exact lt_irrefl _ (lawful.finished _ mem)
  exact { aims := by simp, seeks := by simp, reads := fun _ => unread, puts := nofun, gets := fun _ => unfinished }

omit lawful

omit [DecidableEq Thread] in
theorem welcome_kept (lawful : Lawful capacity ledger) {old new : Phase} {side : Side}
    (staked : ledger.queue.stake thread = some (old, p)) (had : old.side = some side) (has : new.side = some side)
    (read : new ≠ .reading) : Welcome ledger thread new p where
  aims := by rintro (rfl | rfl) <;> cases has
  seeks := by rintro (rfl | rfl) <;> cases has
  reads := fun is => absurd is read
  puts := by
    intro putting
    cases has.symm.trans putting
    exact lawful.unaccepted thread old p staked had
  gets := by
    intro getting
    cases has.symm.trans getting
    exact lawful.unfinished thread old p staked had

theorem wrote (lawful : Lawful capacity ledger) {job : Job} (two : 2 ≤ capacity)
    (staked : ledger.queue.stake thread = some (.writing, p)) (given : ledger.queue.given p = some job) :
    Lawful capacity (ledger.setQueue (ledger.queue.write capacity thread job)) := by
  have grown : Grown capacity ledger.queue (ledger.queue.write capacity thread job) := grown_refl rfl rfl rfl rfl
  apply lawful.setQueue (lawful.sound.write two staked given) grown rfl
  intro phase q found
  change (ledger.queue.stake thread).map _ = _ at found
  rw [staked] at found
  cases found
  exact welcome_kept lawful staked rfl rfl nofun

omit [DecidableEq Thread] in
theorem grown_store {before after : Queue Thread Job} (p value : ℕ) (less : before.seq capacity p ≤ value)
    (enqueued : after.enqueued = before.enqueued) (dequeued : after.dequeued = before.dequeued)
    (given : after.given = before.given)
    (stored : after.sequence = Function.update before.sequence (p % capacity) value) : Grown capacity before after where
  enqueued := le_of_eq enqueued.symm
  dequeued := le_of_eq dequeued.symm
  seq := by
    intro q
    obtain ⟨-, now, was⟩ | ⟨-, now⟩ := Sound.seq_update stored q
    · rw [now, was]
      exact less
    · exact le_of_eq now.symm
  given := by
    intro q _
    rw [given]

include lawful

theorem published (two : 2 ≤ capacity) (staked : ledger.queue.stake thread = some (.written, p)) :
    Lawful capacity (ledger.setQueue (ledger.queue.publish capacity thread)) := by
  have place := ProvenC.Lib.Ring.Queue.position_of staked
  have here := (lawful.sound.fits thread _ _ staked).2.1
  have grown : Grown capacity ledger.queue (ledger.queue.publish capacity thread) := by
    refine grown_store (ledger.queue.position thread) (ledger.queue.position thread + 1) ?_ rfl rfl rfl rfl
    rw [place, here]
    exact Nat.le_succ p
  apply lawful.setQueue (lawful.sound.publish two staked) grown rfl
  intro phase q found
  rw [place] at found
  cases found
  exact welcome_kept lawful staked rfl rfl nofun

theorem released (two : 2 ≤ capacity) (staked : ledger.queue.stake thread = some (.holding, p)) :
    Lawful capacity ((ledger.setQueue (ledger.queue.release capacity thread)).notesLeft
      (ledger.queue.position thread)) := by
  have place := ProvenC.Lib.Ring.Queue.position_of staked
  have here := (lawful.sound.fits thread _ _ staked).2
  have grown : Grown capacity ledger.queue (ledger.queue.release capacity thread) := by
    refine grown_store (ledger.queue.position thread) (ledger.queue.position thread + capacity) ?_ rfl rfl rfl rfl
    rw [place, here]
    omega
  have stored : Lawful capacity (ledger.setQueue (ledger.queue.release capacity thread)) := by
    apply lawful.setQueue (lawful.sound.release two staked) grown rfl
    intro phase q found
    rw [place] at found
    cases found
    exact welcome_kept lawful staked rfl rfl nofun
  apply stored.notesLeft
  obtain ⟨-, now, -⟩ | ⟨other, -⟩ := @Sound.seq_update _ _ capacity ledger.queue
    (ledger.queue.release capacity thread) (ledger.queue.position thread) _ rfl (ledger.queue.position thread)
  · exact le_of_eq now.symm
  · exact absurd rfl other

theorem accepted {job : Job}
    (staked : ledger.queue.stake thread = some (.sent, p)) (given : ledger.queue.given p = some job) :
    Lawful capacity ((ledger.setQueue (ledger.queue.move thread none)).notesAccepted
      (ledger.queue.position thread) job) := by
  have less : p < ledger.queue.enqueued := lawful.sound.fits thread _ _ staked
  have moved := dropped lawful (unfilled_of staked (by
    rintro phase q found
    cases found
    rfl))
  rw [ProvenC.Lib.Ring.Queue.position_of staked]
  apply moved.notesAccepted less given (lawful.unaccepted thread _ p staked rfl)
  intro other phase found sided
  obtain ⟨-, new⟩ | ⟨away, old⟩ := ProvenC.Lib.Ring.update_stake found
  · cases new
  · exact away (lawful.sound.apart other thread phase _ p .putting old staked sided rfl)

theorem finished (staked : ledger.queue.stake thread = some (.spending, p)) :
    Lawful capacity (((ledger.setQueue (ledger.queue.move thread none)).notesFinished
      (ledger.queue.position thread)).begins thread) := by
  have less : p < ledger.queue.dequeued := lawful.sound.fits thread _ _ staked
  have moved := dropped lawful (unfilled_of staked (by
    rintro phase q found
    cases found
    rfl))
  rw [ProvenC.Lib.Ring.Queue.position_of staked]
  apply Lawful.begins
  · apply moved.notesFinished less
    intro other phase found sided
    obtain ⟨-, new⟩ | ⟨away, old⟩ := ProvenC.Lib.Ring.update_stake found
    · cases new
    · exact away (lawful.sound.apart other thread phase _ p .getting old staked sided rfl)
  · exact ledger.queue.move_self thread none

omit lawful

omit [DecidableEq Thread] in
theorem held (lawful : Lawful capacity ledger) (staked : ledger.queue.stake thread = some (.reading, p)) :
    ∃ job, ledger.queue.given p = some job ∧ ledger.queue.content (p % capacity) = some (p, job) :=
  lawful.sound.held p (lawful.sound.fits thread _ _ staked).2

theorem read (lawful : Lawful capacity ledger) {job : Job} (staked : ledger.queue.stake thread = some (.reading, p))
    (content : ledger.queue.content (p % capacity) = some (p, job)) (given : ledger.queue.given p = some job) :
    Lawful capacity ((ledger.setQueue (ledger.queue.advance thread .holding)).notesTaken
      (ledger.ticket capacity thread) job) := by
  have fits := lawful.sound.fits thread _ _ staked
  have ticket : ledger.ticket capacity thread = some p := by
    rw [Ledger.ticket, ProvenC.Lib.Ring.Queue.position_of staked, content]
    rfl
  rw [ticket]
  have moved : Lawful capacity (ledger.setQueue (ledger.queue.advance thread .holding)) :=
    advanced lawful .holding staked fits (fun _ sided => sided) nofun (welcome_kept lawful staked rfl rfl nofun)
  apply moved.notesTaken fits.1 given (lawful.unread thread p staked)
  intro other found
  obtain ⟨-, new⟩ | ⟨away, old⟩ := ProvenC.Lib.Ring.update_stake found
  · rw [staked] at new
    cases new
  · exact away (lawful.sound.apart other thread _ _ p .getting old staked rfl rfl)

end ProvenC.Jobs.Recording
