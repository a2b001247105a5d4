import Mathlib

/-!
# Programs that may fault

A program with a state that may fault is a function to an optional value and state.
-/

namespace ProvenC.Lib.Outcome

variable {State Value Next : Type}

/-- Started in `before`, the program ends without a fault, with a value and a state that meet
`after`. -/
def Reaches (program : StateT State Option Value) (before : State) (after : Value → State → Prop) : Prop :=
  ∃ value state, program before = some (value, state) ∧ after value state

variable {before : State}

theorem reaches_pure {value : Value} {after : Value → State → Prop}
    (holds : after value before) : Reaches (pure value) before after :=
  ⟨value, before, rfl, holds⟩

theorem reaches_bind {first : StateT State Option Value} {rest : Value → StateT State Option Next} {between : Value → State → Prop} {after : Next → State → Prop}
    (reaches : Reaches first before between)
    (further : ∀ value state, between value state → Reaches (rest value) state after) :
    Reaches (first >>= rest) before after := by
  obtain ⟨value, state, ran, holds⟩ := reaches
  obtain ⟨next, final, finished, done⟩ := further value state holds
  refine ⟨next, final, ?_, done⟩
  change (first before >>= fun outcome => rest outcome.1 outcome.2) = some (next, final)
  rw [ran]
  exact finished

theorem reaches_mono {program : StateT State Option Value} {stronger after : Value → State → Prop}
    (reaches : Reaches program before stronger) (weaker : ∀ value state, stronger value state → after value state) :
    Reaches program before after := by
  obtain ⟨value, state, ran, holds⟩ := reaches
  exact ⟨value, state, ran, weaker value state holds⟩

section Faults

variable {Fault : Type}

theorem bind_ok {first : Except Fault Value} {later : Value → Except Fault Next} {last : Next}
    (ran : (first >>= later) = .ok last) : ∃ middle, first = .ok middle ∧ later middle = .ok last := by
  cases first with
  | error fault => cases ran
  | ok middle => exact ⟨middle, rfl, ran⟩

theorem bind_fault {first : Except Fault Value} {later : Value → Except Fault Next} {fault : Fault}
    (failed : (first >>= later) = .error fault) :
    first = .error fault ∨ ∃ middle, first = .ok middle ∧ later middle = .error fault := by
  cases first with
  | error fault' =>
    cases failed
    exact Or.inl rfl
  | ok middle => exact Or.inr ⟨middle, rfl, failed⟩

theorem ok_bind (middle : Value) (later : Value → Except Fault Next) : (Except.ok middle >>= later) = later middle := rfl

theorem error_bind (fault : Fault) (later : Value → Except Fault Next) : (Except.error fault >>= later) = .error fault := rfl

end Faults

end ProvenC.Lib.Outcome
