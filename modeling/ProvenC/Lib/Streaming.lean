import Mathlib

/-!
# Decoders fed in pieces

A machine reads its input letter by letter.
-/

namespace ProvenC.Lib.Streaming

open List

variable {State Letter Item Err : Type}

inductive Reaction (State Item Err : Type) where
  | on (st : State) (items : List Item)
  | ended (st : State) (items : List Item)
  | failed (st : State) (err : Err)

@[ext] structure Ran (State Item Err : Type) where
  err : Option Err
  ended : Bool
  state : State
  items : List Item
  used : Nat

def Ran.after (ran : Ran State Item Err) (items : List Item) (used : Nat) : Ran State Item Err :=
  { ran with items := items ++ ran.items, used := used + ran.used }

def run (step : State → Letter → Reaction State Item Err) (st : State) : List Letter → Ran State Item Err
  | [] => { err := none, ended := false, state := st, items := [], used := 0 }
  | letter :: rest =>
    match step st letter with
    | .on st items => (run step st rest).after items 1
    | .ended st items => { err := none, ended := true, state := st, items := items, used := 1 }
    | .failed st err => { err := some err, ended := false, state := st, items := [], used := 0 }

variable {step : State → Letter → Reaction State Item Err}

theorem after_after (ran : Ran State Item Err) (first second : List Item) (n m : Nat) :
    (ran.after second m).after first n = ran.after (first ++ second) (n + m) := by
  unfold Ran.after
  rw [append_assoc, add_assoc]

theorem after_nothing (ran : Ran State Item Err) : ran.after [] 0 = ran := by
  unfold Ran.after
  rw [nil_append, zero_add]

variable {ran : Ran State Item Err}

theorem with_used {n : Nat} (used : ran.used = n) : { ran with used := n } = ran := by
  subst used
  rfl

variable {st : State} {front : List Letter}

theorem run_append (step : State → Letter → Reaction State Item Err) (back : List Letter) (fine : (run step st front).err = none)
    (goes : (run step st front).ended = false) : run step st (front ++ back) =
      (run step (run step st front).state back).after (run step st front).items (run step st front).used := by
  induction front generalizing st with
  | nil => exact (after_nothing _).symm
  | cons letter front ih =>
    rw [cons_append, run, run] at *
    cases stepped : step st letter with
    | failed st err =>
      rw [stepped] at fine
      cases fine
    | ended st items =>
      rw [stepped] at goes
      cases goes
    | on next items =>
      rw [stepped] at fine goes
      dsimp only at fine goes ⊢
      rw [ih fine goes, after_after]
      rfl

theorem run_stopped (step : State → Letter → Reaction State Item Err) (back : List Letter)
    (stopped : (run step st front).err ≠ none ∨ (run step st front).ended = true) :
    run step st (front ++ back) = run step st front := by
  induction front generalizing st with
  | nil =>
    rcases stopped with wrong | wrong
    · exact absurd rfl wrong
    · cases wrong
  | cons letter front ih =>
    rw [cons_append, run, run] at *
    cases stepped : step st letter with
    | failed st err => rfl
    | ended st items => rfl
    | on next items =>
      rw [stepped] at stopped
      dsimp only
      rw [ih stopped]

theorem run_used_le (st : State) (input : List Letter) : (run step st input).used ≤ input.length := by
  induction input generalizing st with
  | nil => exact le_refl 0
  | cons letter rest ih =>
    rw [run, length_cons]
    cases step st letter with
    | failed st err => exact Nat.zero_le _
    | ended st items => exact Nat.le_add_left 1 _
    | on next items =>
      have shorter := ih next
      unfold Ran.after
      dsimp only
      omega

theorem ended_fine {input : List Letter} (ended : (run step st input).ended = true) : (run step st input).err = none := by
  induction input generalizing st with
  | nil => cases ended
  | cons letter rest ih =>
    rw [run] at ended ⊢
    cases stepped : step st letter with
    | failed next err => rw [stepped] at ended; cases ended
    | ended next items => rfl
    | on next items =>
      rw [stepped] at ended
      exact ih ended

theorem run_take (step : State → Letter → Reaction State Item Err) (st : State) (input : List Letter)
    (fine : (run step st input).err = none) : run step st (input.take (run step st input).used) = run step st input := by
  induction input generalizing st with
  | nil => rfl
  | cons letter rest ih =>
    rw [run] at fine ⊢
    cases stepped : step st letter with
    | failed next err => rw [stepped] at fine; cases fine
    | ended next items =>
      dsimp only
      rw [take_succ_cons, take_zero, run, stepped]
    | on next items =>
      rw [stepped] at fine
      dsimp only at fine ⊢
      have used : ((run step next rest).after items 1).used = (run step next rest).used + 1 := add_comm 1 _
      rw [used, take_succ_cons, run, stepped]
      dsimp only
      rw [ih next fine]

theorem run_keeps {Kept : State → Prop} (keeps : ∀ st letter next items, Kept st → step st letter = .on next items → Kept next)
    {st : State} (input : List Letter) (start : Kept st) (fine : (run step st input).err = none)
    (goes : (run step st input).ended = false) : Kept (run step st input).state := by
  induction input generalizing st with
  | nil => exact start
  | cons letter rest ih =>
    rw [run] at fine goes ⊢
    cases stepped : step st letter with
    | failed next err => rw [stepped] at fine; cases fine
    | ended next items => rw [stepped] at goes; cases goes
    | on next items =>
      rw [stepped] at fine goes
      exact ih (keeps st letter next items start stepped) fine goes

/-- A call does what the machine does with the letters it takes; where it fails it may keep back
some of what came out before. -/
structure Follows (step : State → Letter → Reaction State Item Err) (good : State → Prop)
    (feed : State → List Letter → Ran State Item Err) : Prop where
  taken : ∀ st input, good st → (feed st input).err = none →
    (feed st input).used ≤ input.length ∧ run step st (input.take (feed st input).used) = feed st input
  moves : ∀ st input, good st → input ≠ [] → (feed st input).err = none → 0 < (feed st input).used
  keeps : ∀ st input, good st → (feed st input).err = none → (feed st input).ended = false → good (feed st input).state
  fails : ∀ st input, good st → ∀ err, (feed st input).err = some err →
    (run step st input).err = some err ∧ (feed st input).items <+: (run step st input).items

def calls (feed : State → List Letter → Ran State Item Err) (st : State) (stream : List Letter) :
    List Nat → Option (Ran State Item Err)
  | [] => if stream = [] then some { err := none, ended := false, state := st, items := [], used := 0 } else none
  | offer :: offers =>
    if stream = [] then some { err := none, ended := false, state := st, items := [], used := 0 }
    else
      let fed := feed st (stream.take offer)
      if fed.err.isSome ∨ fed.ended then some fed
      else (calls feed fed.state (stream.drop fed.used) offers).map fun ran => ran.after fed.items fed.used

variable {good : State → Prop} {feed : State → List Letter → Ran State Item Err}

variable (follows : Follows step good feed)
include follows

theorem fails_whole (isGood : good st) (back : List Letter) {err : Err} (failed : (feed st front).err = some err) :
    run step st (front ++ back) = run step st front := by
  have failing := (follows.fails st front isGood err failed).1
  exact run_stopped step back (Or.inl (by rw [failing]; exact nofun))

theorem calls_reach (offers : List Nat) :
    ∀ {st : State} {stream : List Letter} {ran : Ran State Item Err}, good st → calls feed st stream offers = some ran →
      ran = run step st stream ∨ ∃ at_ front back items used err, good at_ ∧ (feed at_ front).err = some err ∧
        ran = (feed at_ front).after items used ∧ run step st stream = (run step at_ (front ++ back)).after items used := by
  induction offers with
  | nil =>
    intro st stream ran _ called
    rw [calls] at called
    by_cases empty : stream = []
    · rw [if_pos empty] at called
      cases called
      rw [empty]
      exact Or.inl rfl
    rw [if_neg empty] at called
    cases called
  | cons offer offers ih =>
    intro st stream ran isGood called
    rw [calls] at called
    by_cases empty : stream = []
    · rw [if_pos empty] at called
      cases called
      rw [empty]
      exact Or.inl rfl
    rw [if_neg empty] at called
    dsimp only at called
    have whole : stream.take offer ++ stream.drop offer = stream := take_append_drop offer stream
    cases failed : (feed st (stream.take offer)).err with
    | some err =>
      rw [failed, Option.isSome_some, if_pos (Or.inl rfl)] at called
      cases called
      refine Or.inr ⟨st, stream.take offer, stream.drop offer, [], 0, err, isGood, failed, (after_nothing _).symm, ?_⟩
      rw [whole, after_nothing]
    | none =>
      obtain ⟨within, took⟩ := follows.taken st _ isGood failed
      rw [failed, Option.isSome_none] at called
      have shorter : (feed st (stream.take offer)).used ≤ offer :=
        le_trans within (by rw [length_take]; exact Nat.min_le_left _ _)
      rw [take_take, min_eq_left shorter] at took
      have split : stream.take (feed st (stream.take offer)).used ++ stream.drop (feed st (stream.take offer)).used =
          stream := take_append_drop _ _
      cases finished : (feed st (stream.take offer)).ended with
      | true =>
        rw [finished, if_pos (Or.inr rfl)] at called
        cases called
        have same := run_stopped step (stream.drop (feed st (stream.take offer)).used)
          (Or.inr (by rw [took]; exact finished))
        rw [split, took] at same
        exact Or.inl same.symm
      | false =>
        have neither : ¬ (false = true ∨ false = true) := fun either => either.elim nofun nofun
        rw [finished, if_neg neither] at called
        obtain ⟨later, laterCalled, rfl⟩ := Option.map_eq_some_iff.mp called
        have goodNext := follows.keeps st _ isGood failed finished
        have joined := run_append step (stream.drop (feed st (stream.take offer)).used)
          (by rw [took]; exact failed) (by rw [took]; exact finished)
        rw [split, took] at joined
        rcases ih goodNext laterCalled with same | ⟨at_, front, back, items, used, err, isGood', failing, rfl, from_⟩
        · rw [same]
          exact Or.inl joined.symm
        refine Or.inr ⟨at_, front, back, _, _, err, isGood', failing, after_after _ _ _ _ _, ?_⟩
        rw [joined, from_, after_after]

theorem calls_follow {offers : List Nat} {stream : List Letter} (isGood : good st) (called : calls feed st stream offers = some ran) :
    ran.err = (run step st stream).err ∧ ran.items <+: (run step st stream).items ∧
      (ran.err = none → ran = run step st stream) := by
  rcases calls_reach follows offers isGood called with same | ⟨at_, front, back, items, used, err, isGood', failing, rfl, from_⟩
  · rw [same]
    exact ⟨rfl, prefix_refl _, fun _ => rfl⟩
  obtain ⟨sameErr, before⟩ := follows.fails at_ front isGood' err failing
  rw [from_, fails_whole follows isGood' back failing]
  unfold Ran.after
  rw [failing, sameErr]
  exact ⟨rfl, (prefix_append_right_inj items).mpr before, nofun⟩

theorem calls_exactly (whole : ∀ st input, good st → ∀ err, (feed st input).err = some err →
      (feed st input).items = (run step st input).items ∧ (feed st input).state = (run step st input).state)
    {offers : List Nat} {stream : List Letter} (isGood : good st) (called : calls feed st stream offers = some ran) :
    ran.items = (run step st stream).items ∧ ran.state = (run step st stream).state := by
  rcases calls_reach follows offers isGood called with same | ⟨at_, front, back, items, used, err, isGood', failing, rfl, from_⟩
  · rw [same]
    exact ⟨rfl, rfl⟩
  obtain ⟨sameItems, sameState⟩ := whole at_ front isGood' err failing
  rw [from_, fails_whole follows isGood' back failing]
  unfold Ran.after
  rw [sameItems, sameState]
  exact ⟨rfl, rfl⟩

theorem calls_end (offers : List Nat) :
    ∀ {st : State} {stream : List Letter}, good st → (∀ offer ∈ offers, 0 < offer) → stream.length ≤ offers.length →
      ∃ ran, calls feed st stream offers = some ran := by
  induction offers with
  | nil =>
    intro st stream _ _ enough
    rw [calls, if_pos (eq_nil_of_length_eq_zero (Nat.le_zero.mp enough))]
    exact ⟨_, rfl⟩
  | cons offer offers ih =>
    intro st stream isGood positive enough
    rw [calls]
    by_cases empty : stream = []
    · rw [if_pos empty]
      exact ⟨_, rfl⟩
    rw [if_neg empty]
    by_cases stops : (feed st (stream.take offer)).err.isSome = true ∨ (feed st (stream.take offer)).ended = true
    · rw [if_pos stops]
      exact ⟨_, rfl⟩
    rw [if_neg stops]
    obtain ⟨fine, goes⟩ := not_or.mp stops
    have failed : (feed st (stream.take offer)).err = none := Option.not_isSome_iff_eq_none.mp fine
    have offered := positive offer mem_cons_self
    have some_ : stream.take offer ≠ [] := by
      intro none_
      rcases take_eq_nil_iff.mp none_ with zero | nothing
      · omega
      · exact empty nothing
    have moved := follows.moves st _ isGood some_ failed
    have goodNext := follows.keeps st _ isGood failed (Bool.eq_false_iff.mpr goes)
    rw [length_cons] at enough
    obtain ⟨ran, called⟩ := @ih (feed st (stream.take offer)).state
      (stream.drop (feed st (stream.take offer)).used) goodNext
      (fun other among => positive other (mem_cons_of_mem offer among)) (by rw [length_drop]; omega)
    rw [called]
    exact ⟨_, rfl⟩

omit follows

end ProvenC.Lib.Streaming
