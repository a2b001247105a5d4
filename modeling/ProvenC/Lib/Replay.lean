import Mathlib

/-!
# Calls on a state, and what they may answer

A component is a step from a call and a state to an answer and a new state. What it is for is a
relation on abstract values that says which answers a call may get.
-/

namespace ProvenC.Lib.Replay

variable {Call Answer State Abstract : Type}

def replay (step : Call → State → Answer × State) : List Call → State → List Answer × State
  | [], state => ([], state)
  | call :: rest, state =>
    ((step call state).1 :: (replay step rest (step call state).2).1, (replay step rest (step call state).2).2)

/-- The abstract value may go from `before` to `after` through these calls and answers. -/
def Admits (spec : Call → Answer → Abstract → Abstract → Prop) : List Call → List Answer → Abstract → Abstract → Prop
  | [], [], before, after => after = before
  | call :: calls, answer :: answers, before, after =>
    ∃ between, spec call answer before between ∧ Admits spec calls answers between after
  | _, _, _, _ => False

variable {step : Call → State → Answer × State} {spec : Call → Answer → Abstract → Abstract → Prop}

theorem replay_admitted (Linked : State → Abstract → Prop) (one : ∀ call state value, Linked state value →
      ∃ value', spec call (step call state).1 value value' ∧ Linked (step call state).2 value')
    (calls : List Call) : ∀ (state : State) (value : Abstract), Linked state value →
      ∃ value', Admits spec calls (replay step calls state).1 value value' ∧ Linked (replay step calls state).2 value' := by
  induction calls with
  | nil =>
    intro state value linked
    exact ⟨value, rfl, linked⟩
  | cons call rest ih =>
    intro state value linked
    obtain ⟨between, first, linkedBetween⟩ := one call state value linked
    obtain ⟨after, others, linkedAfter⟩ := ih _ between linkedBetween
    exact ⟨after, ⟨between, first, others⟩, linkedAfter⟩

theorem replay_last (calls : List Call) (call : Call) (state : State) : replay step (calls ++ [call]) state =
      ((replay step calls state).1 ++ [(step call (replay step calls state).2).1],
        (step call (replay step calls state).2).2) := by
  induction calls generalizing state with
  | nil => rfl
  | cons first rest ih =>
    change (_ :: (replay step (rest ++ [call]) _).1, (replay step (rest ++ [call]) _).2) = _
    rw [ih]
    rfl

theorem replay_append (first second : List Call) (state : State) :
    (replay step (first ++ second) state).2 = (replay step second (replay step first state).2).2 := by
  induction first generalizing state with
  | nil => rfl
  | cons call rest ih => exact ih _

theorem replay_answer {n : Nat} {call : Call} (calls : List Call) (there : calls[n]? = some call) (state : State) :
    (replay step calls state).1[n]? = some (step call (replay step (calls.take n) state).2).1 := by
  induction calls generalizing state n with
  | nil => cases there
  | cons first rest ih =>
    cases n with
    | zero =>
      cases there
      rfl
    | succ n => exact ih there _

theorem replay_length (calls : List Call) (state : State) : (replay step calls state).1.length = calls.length := by
  induction calls generalizing state with
  | nil => rfl
  | cons call rest ih =>
    change (replay step rest _).1.length + 1 = rest.length + 1
    rw [ih]

theorem replay_kept (Kept : State → Prop) (one : ∀ call state, Kept state → Kept (step call state).2)
    (calls : List Call) : ∀ state, Kept state → Kept (replay step calls state).2 := by
  induction calls with
  | nil =>
    intro state kept
    exact kept
  | cons call rest ih =>
    intro state kept
    exact ih _ (one call state kept)

/-- What no step raises by more than one, no run raises by more than its calls. -/
theorem replay_climbs (Kept : State → Prop) (measure : State → Nat)
    (one : ∀ call state, Kept state → Kept (step call state).2 ∧ measure (step call state).2 ≤ measure state + 1)
    (calls : List Call) : ∀ state, Kept state → measure (replay step calls state).2 ≤ measure state + calls.length := by
  induction calls with
  | nil =>
    intro state kept
    exact le_refl _
  | cons call rest ih =>
    intro state kept
    obtain ⟨still, little⟩ := one call state kept
    have later := ih _ still
    rw [List.length_cons]
    change measure (replay step rest _).2 ≤ _
    omega

end ProvenC.Lib.Replay
