import ProvenC.Jobs.Counting

/-!
# What a group's counter counts

A group's pending count is the number of its jobs that are counted and have no position yet, and of its
positions that are not finished.
-/

namespace ProvenC.Jobs.Groups

open Lib.Ring (Queue Phase Side Sound Fits)
open Jobs.Queue Jobs.Words Jobs.Watching Jobs.Following Jobs.Counting

variable {Thread : Type*} {bits capacity : ℕ}

def groupAt (ledger : Ledger Thread) (p : ℕ) : Option ℕ := (ledger.queue.given p).bind Job.group

def unsettled (ledger : Ledger Thread) (group : ℕ) : Finset ℕ :=
  (Finset.range ledger.queue.enqueued).filter fun p => groupAt ledger p = some group ∧ p ∉ ledger.finished

theorem mem_unsettled {ledger : Ledger Thread} {group p : ℕ} : p ∈ unsettled ledger group ↔
      p < ledger.queue.enqueued ∧ groupAt ledger p = some group ∧ p ∉ ledger.finished := by
  rw [unsettled, Finset.mem_filter, Finset.mem_range]

def unfinished (ledger : Ledger Thread) (group : ℕ) : ℕ :=
  ledger.accepted.countP fun entry => entry.2.group = some group ∧ entry.1 ∉ ledger.finished

theorem unfinished_le (ledger : Ledger Thread) (lawful : Lawful capacity ledger) (group : ℕ) :
    unfinished ledger group ≤ (unsettled ledger group).card := by
  let kept := ledger.accepted.filter fun entry => decide (entry.2.group = some group ∧ entry.1 ∉ ledger.finished)
  have once : (kept.map Prod.fst).Nodup :=
    lawful.acceptedOnce.sublist (List.Sublist.map _ (List.filter_sublist))
  have within : (kept.map Prod.fst).toFinset ⊆ unsettled ledger group := by
    intro p mem
    obtain ⟨entry, mem', rfl⟩ := List.mem_map.mp (List.mem_toFinset.mp mem)
    obtain ⟨accepted, of_⟩ := List.mem_filter.mp mem'
    obtain ⟨less, given⟩ := lawful.accepted entry accepted
    have is := of_decide_eq_true of_
    rw [mem_unsettled]
    refine ⟨less, ?_, is.2⟩
    rw [groupAt, given]
    exact is.1
  calc unfinished ledger group
    _ = kept.length := List.countP_eq_length_filter
    _ = (kept.map Prod.fst).toFinset.card := by rw [List.toFinset_card_of_nodup once, List.length_map]
    _ ≤ (unsettled ledger group).card := Finset.card_le_card within

structure Balanced (watched : Watched Thread) : Prop where
  count : ∀ group, watched.sys.pending group = (watched.ledger.owing group).card + (unsettled watched.ledger group).card
  owing : ∀ group thread, thread ∈ watched.ledger.owing group ↔ owedAt (watched.sys.place thread) = some group

def PendingEffect (before after : ℕ → ℕ) (place : Place) (now : Option ℕ) : Event → Prop
  | .counted group => after = Function.update before group (before group + 1) ∧ owedAt place = none ∧ now = some group
  | .claimed job => after = before ∧ owedAt place = job.group ∧ admittedAt place = true ∧ now = none
  | .uncounted group =>
    after = Function.update before group (before group - 1) ∧ owedAt place = some group ∧ now = none
  | .finished job =>
    (match job.group with
      | none => after = before
      | some group => after = Function.update before group (before group - 1)) ∧
      (∃ caller, place = .executing caller (.finishing job)) ∧ now = none
  | _ => after = before ∧ now = owedAt place

theorem after_refusal_owed (job : Job) : owedAt (afterRefusal job) = job.group := by
  unfold afterRefusal
  split <;> rename_i is <;> rw [is] <;> rfl

theorem after_execute_owed (caller : Caller) (found : Bool) : owedAt (afterExecute caller found) = none := by
  cases caller <;> cases found <;> rfl

variable [DecidableEq Thread]

theorem pending_submit (sys : Sys Thread) (thread : Thread) {job : Job} {line : Submit}
    (here : sys.place thread = .submitting job line) (weak : Bool)
    (counts : ∀ group, line = .counting group → job.group = some group) :
    PendingEffect sys.pending (submitStep bits sys thread weak job line).1.pending (sys.place thread)
      (owedAt ((submitStep bits sys thread weak job line).1.place thread))
      (submitStep bits sys thread weak job line).2 := by
  rw [here]
  cases line with
  | counting group =>
    unfold submitStep
    rw [moved_place]
    exact ⟨rfl, rfl, counts group rfl⟩
  | admitting state =>
    unfold submitStep
    dsimp only
    split
    · rw [moved_place, after_refusal_owed]
      exact ⟨rfl, rfl⟩
    split
    · rw [moved_place, after_refusal_owed]
      exact ⟨rfl, rfl⟩
    · split <;> rw [moved_place] <;> exact ⟨rfl, rfl⟩
  | comparing pos =>
    unfold submitStep
    dsimp only
    split <;> rw [moved_place] <;> exact ⟨rfl, rfl⟩
  | claiming pos =>
    unfold submitStep
    dsimp only
    split <;> rw [moved_place]
    · exact ⟨rfl, rfl, rfl, rfl⟩
    · exact ⟨rfl, rfl⟩
  | refusing =>
    unfold submitStep
    rw [moved_place, after_refusal_owed]
    exact ⟨rfl, rfl⟩
  | uncounting group =>
    unfold submitStep
    rw [moved_place]
    exact ⟨rfl, rfl, rfl⟩
  | entering | positioning | writing | publishing | posting | leaving =>
    unfold submitStep
    rw [moved_place]
    exact ⟨rfl, rfl⟩

theorem pending_execute (sys : Sys Thread) (thread : Thread) {caller : Caller} {line : Execute}
    (here : sys.place thread = .executing caller line) (weak : Bool) :
    PendingEffect sys.pending (executeStep bits sys thread weak caller line).1.pending (sys.place thread)
      (owedAt ((executeStep bits sys thread weak caller line).1.place thread))
      (executeStep bits sys thread weak caller line).2 := by
  rw [here]
  cases line with
  | matching pos =>
    unfold executeStep
    dsimp only
    split <;> rw [moved_place]
    · exact ⟨rfl, rfl⟩
    · rw [after_execute_owed]
      exact ⟨rfl, rfl⟩
    · exact ⟨rfl, rfl⟩
  | taking pos =>
    unfold executeStep
    dsimp only
    split <;> rw [moved_place] <;> exact ⟨rfl, rfl⟩
  | finishing job =>
    unfold executeStep
    dsimp only
    split <;> rename_i is <;> rw [moved_place, after_execute_owed]
    all_goals
      refine ⟨?_, ⟨caller, rfl⟩, rfl⟩
      rw [is]
      rfl
  | seeking | reading | releasing | running =>
    unfold executeStep
    rw [moved_place]
    exact ⟨rfl, rfl⟩

theorem pending_step (sys : Sys Thread) (thread : Thread) (act : Act)
    (counts : ∀ job group, sys.place thread = .submitting job (.counting group) → job.group = some group) :
    PendingEffect sys.pending (step bits sys thread act).1.pending (sys.place thread)
      (owedAt ((step bits sys thread act).1.place thread)) (step bits sys thread act).2 := by
  unfold step
  split <;> rename_i here
  · unfold callStep
    split
    · split
      next none_ =>
        rw [moved_place, here]
        exact ⟨rfl, none_⟩
      rw [moved_place, here]
      exact ⟨rfl, rfl⟩
    all_goals first | (rw [moved_place, here]; exact ⟨rfl, rfl⟩) | exact ⟨rfl, rfl⟩
  · apply pending_submit sys thread here
    rintro group rfl
    exact counts _ group here
  · exact pending_execute sys thread here _
  · unfold closeStep
    rw [moved_place, here]
    exact ⟨rfl, rfl⟩
  · unfold awaitStep
    split
    · exact ⟨rfl, rfl⟩
    · split <;> rw [moved_place, here] <;> exact ⟨rfl, rfl⟩
  · unfold wakeStep
    split <;> rw [moved_place, here] <;> exact ⟨rfl, rfl⟩
  · unfold parkStep
    split
    · rw [moved_place, here]
      exact ⟨rfl, rfl⟩
    · exact ⟨rfl, rfl⟩
  · unfold askStep
    split <;> rw [moved_place, here] <;> exact ⟨rfl, rfl⟩
  · unfold pollStep
    split <;> rw [moved_place, here] <;> exact ⟨rfl, rfl⟩
  · rw [moved_place, here]
    exact ⟨rfl, rfl⟩
  · exact ⟨rfl, rfl⟩

section Steps

variable {watched : Watched Thread} {thread : Thread}

theorem owing_insert {sys : Sys Thread} (balanced : Balanced watched) {group : ℕ}
    (others : ∀ other, other ≠ thread → sys.place other = watched.sys.place other)
    (was : owedAt (watched.sys.place thread) = none) (now : owedAt (sys.place thread) = some group) (which : ℕ) :
    ∀ other, other ∈ Function.update watched.ledger.owing group (insert thread (watched.ledger.owing group)) which ↔
      owedAt (sys.place other) = some which := by
  intro other
  have before := balanced.owing which other
  by_cases same : which = group
  · subst same
    rw [Function.update_self]
    by_cases mine : other = thread
    · rw [mine, now]
      simp
    rw [Finset.mem_insert, others other mine, before]
    simp [mine]
  rw [Function.update_of_ne same]
  by_cases mine : other = thread
  · rw [before, mine, was, now]
    simp [Ne.symm same]
  · rw [others other mine, before]

theorem owing_erase {sys : Sys Thread} (balanced : Balanced watched)
    (others : ∀ other, other ≠ thread → sys.place other = watched.sys.place other)
    (now : owedAt (sys.place thread) = none) (which : ℕ) :
    ∀ other, other ∈ (watched.ledger.owing which).erase thread ↔ owedAt (sys.place other) = some which := by
  intro other
  by_cases mine : other = thread
  · rw [mine, now]
    simp
  rw [Finset.mem_erase, others other mine, balanced.owing]
  simp [mine]

theorem owing_card_erase (balanced : Balanced watched) (which : ℕ) :
    ((watched.ledger.owing which).erase thread).card + (if owedAt (watched.sys.place thread) = some which then 1 else 0) =
      (watched.ledger.owing which).card := by
  have member := balanced.owing which thread
  split
  next owes =>
    have mem := member.mpr owes
    have positive := Finset.card_pos.mpr ⟨thread, mem⟩
    rw [Finset.card_erase_of_mem mem]
    omega
  rename_i owes
  rw [Finset.erase_eq_of_notMem (fun mem => owes (member.mp mem)), add_zero]

theorem unsettled_claim {ledger : Ledger Thread} (lawful : Lawful capacity ledger) (job : Job) (which : ℕ) :
    (unsettled (ledger.setQueue (ledger.queue.claim thread job)) which).card =
      (unsettled ledger which).card + (if job.group = some which then 1 else 0) := by
  have sound := lawful.sound
  have kept : ∀ p < ledger.queue.enqueued,
      groupAt (ledger.setQueue (ledger.queue.claim thread job)) p = groupAt ledger p := by
    intro p less
    change (Function.update ledger.queue.given ledger.queue.enqueued (some job) p).bind Job.group = _
    rw [Function.update_of_ne (ne_of_lt less)]
    rfl
  have new : groupAt (ledger.setQueue (ledger.queue.claim thread job)) ledger.queue.enqueued = job.group := by
    change (Function.update ledger.queue.given ledger.queue.enqueued (some job) ledger.queue.enqueued).bind Job.group = _
    rw [Function.update_self]
    rfl
  have fresh : ledger.queue.enqueued ∉ ledger.finished := by
    intro mem
    have less := lawful.finished _ mem
    have order := sound.order
    omega
  have whole : unsettled (ledger.setQueue (ledger.queue.claim thread job)) which =
      if job.group = some which then insert ledger.queue.enqueued (unsettled ledger which) else unsettled ledger which := by
    ext p
    rw [mem_unsettled]
    change p < ledger.queue.enqueued + 1 ∧ _ ∧ p ∉ ledger.finished ↔ _
    rcases Nat.lt_trichotomy p ledger.queue.enqueued with before | equal | after
    · rw [kept p before]
      split
      · rw [Finset.mem_insert, mem_unsettled]
        constructor
        · exact fun is => .inr ⟨before, is.2⟩
        rintro (equal | is)
        · omega
        · exact ⟨Nat.lt_succ_of_lt before, is.2⟩
      rw [mem_unsettled]
      constructor
      · exact fun is => ⟨before, is.2⟩
      · exact fun is => ⟨Nat.lt_succ_of_lt before, is.2⟩
    · subst equal
      rw [new]
      split
      next of_ =>
        exact ⟨fun _ => Finset.mem_insert_self _ _, fun _ => ⟨Nat.lt_succ_self _, of_, fresh⟩⟩
      rename_i other
      rw [mem_unsettled]
      exact ⟨fun is => absurd is.2.1 other, fun is => absurd is.1 (lt_irrefl _)⟩
    constructor
    · intro is
      omega
    intro mem
    split at mem
    · obtain equal | old := Finset.mem_insert.mp mem
      · omega
      have less := (mem_unsettled.mp old).1
      omega
    have less := (mem_unsettled.mp mem).1
    omega
  rw [whole]
  split
  · exact Finset.card_insert_of_notMem fun mem => lt_irrefl _ (mem_unsettled.mp mem).1
  · rfl

theorem unsettled_finish {ledger : Ledger Thread} (lawful : Lawful capacity ledger) {p : ℕ} {job : Job}
    (staked : ledger.queue.stake thread = some (.spending, p)) (given : ledger.queue.given p = some job) (which : ℕ) :
    (unsettled (((ledger.setQueue (ledger.queue.move thread none)).notesFinished
        (ledger.queue.position thread)).begins thread) which).card + (if job.group = some which then 1 else 0) =
      (unsettled ledger which).card := by
  have less := claimed_of_side lawful.sound staked rfl
  have fresh := lawful.unfinished thread _ p staked rfl
  have group : groupAt ledger p = job.group := by
    rw [groupAt, given]
    rfl
  have whole : unsettled (((ledger.setQueue (ledger.queue.move thread none)).notesFinished
      (ledger.queue.position thread)).begins thread) which = (unsettled ledger which).erase p := by
    ext q
    rw [Finset.mem_erase, mem_unsettled, mem_unsettled]
    change q < ledger.queue.enqueued ∧ groupAt ledger q = some which ∧ q ∉ ledger.queue.position thread :: ledger.finished ↔ _
    rw [ProvenC.Lib.Ring.Queue.position_of staked, List.mem_cons, not_or]
    tauto
  have member : p ∈ unsettled ledger which ↔ job.group = some which := by
    rw [mem_unsettled, group]
    tauto
  rw [whole]
  split
  next of_ =>
    have mem := member.mpr of_
    have positive := Finset.card_pos.mpr ⟨p, mem⟩
    rw [Finset.card_erase_of_mem mem]
    omega
  rename_i other
  rw [Finset.erase_eq_of_notMem (fun mem => other (member.mp mem)), add_zero]

theorem balanced_step (follows : Follows bits capacity watched) (balanced : Balanced watched) (move : Thread × Act) :
    Balanced (next bits watched move) := by
  obtain ⟨thread, act⟩ := move
  have matched := follows.places thread
  have effect := @pending_step _ bits _ watched.sys thread act (by
    intro job group here
    rw [here] at matched
    exact matched.2)
  have others := fun other => @step_others _ _ bits watched.sys thread other act
  rw [next_eq, after]
  generalize step bits watched.sys thread act = result at effect others
  obtain ⟨sys, event⟩ := result
  have same : owedAt (sys.place thread) = owedAt (watched.sys.place thread) →
      ∀ group other, other ∈ watched.ledger.owing group ↔ owedAt (sys.place other) = some group := by
    intro equal group other
    by_cases mine : other = thread
    · rw [mine, equal, balanced.owing]
    · rw [others other mine, balanced.owing]
  cases event with
  | counted group =>
    obtain ⟨rose, was, now⟩ := effect
    refine ⟨?_, fun which => owing_insert balanced others was now which⟩
    intro which
    change sys.pending which = (Function.update watched.ledger.owing group
      (insert thread (watched.ledger.owing group)) which).card + (unsettled watched.ledger which).card
    have before := balanced.count which
    rw [show sys.pending = _ from rose]
    by_cases same : which = group
    · subst same
      have out : thread ∉ watched.ledger.owing which := by
        rw [balanced.owing, was]
        simp
      rw [Function.update_self, Function.update_self, Finset.card_insert_of_notMem out]
      omega
    · rw [Function.update_of_ne same, Function.update_of_ne same, before]
  | claimed job =>
    obtain ⟨kept, was, -, now⟩ := effect
    refine ⟨?_, fun which => owing_erase balanced others now which⟩
    intro which
    change sys.pending which = ((watched.ledger.owing which).erase thread).card +
      (unsettled (watched.ledger.setQueue (watched.ledger.queue.claim thread job)) which).card
    have card := @owing_card_erase _ _ watched thread balanced which
    rw [show sys.pending = _ from kept, balanced.count, unsettled_claim follows.lawful, ← card, was]
    omega
  | uncounted group =>
    obtain ⟨fell, was, now⟩ := effect
    refine ⟨?_, fun which => owing_erase balanced others now which⟩
    intro which
    change sys.pending which = ((watched.ledger.owing which).erase thread).card + (unsettled watched.ledger which).card
    have card := @owing_card_erase _ _ watched thread balanced which
    have before := balanced.count which
    rw [show sys.pending = _ from fell]
    rw [was] at card
    by_cases same : which = group
    · subst same
      rw [if_pos rfl] at card
      rw [Function.update_self]
      omega
    rw [if_neg (fun equal => same (Option.some.inj equal).symm)] at card
    rw [Function.update_of_ne same]
    omega
  | finished job =>
    obtain ⟨fell, ⟨caller, here⟩, now⟩ := effect
    rw [here] at matched
    obtain ⟨p, staked, given⟩ := matched
    have nothing : owedAt (watched.sys.place thread) = none := by rw [here]; rfl
    refine ⟨?_, same (now.trans nothing.symm)⟩
    intro which
    have card := unsettled_finish follows.lawful staked given which
    have before := balanced.count which
    change sys.pending which = (watched.ledger.owing which).card + (unsettled (((watched.ledger.setQueue
      (watched.ledger.queue.move thread none)).notesFinished (watched.ledger.queue.position thread)).begins thread) which).card
    split at fell <;> rename_i is
    · rw [is, if_neg (fun wrong => by cases wrong)] at card
      rw [show sys.pending = _ from fell]
      omega
    rename_i group
    rw [show sys.pending = _ from fell]
    by_cases equal : which = group
    · subst equal
      rw [if_pos is] at card
      rw [Function.update_self]
      omega
    rw [is, if_neg (fun found => equal (Option.some.inj found).symm)] at card
    rw [Function.update_of_ne equal]
    omega
  | quiet | began | admitted | departed | aimed | fitted | dropped | wrote | published | accepted | sought | spotted
  | took | read | released =>
    obtain ⟨kept, now⟩ := effect
    refine ⟨?_, same now⟩
    intro which
    exact (congrFun kept which).trans (balanced.count which)

end Steps

end ProvenC.Jobs.Groups
