import Mathlib

/-!
# Runs and what they keep

A run is a list of steps, each a function of the state before it.
-/

namespace ProvenC.Lib.Runs

variable {State Step : Type*} (next : State → Step → State)

def run (state : State) (steps : List Step) : State := steps.foldl next state

@[simp] theorem run_nil (state : State) : run next state [] = state := rfl

@[simp] theorem run_cons (state : State) (step : Step) (steps : List Step) :
    run next state (step :: steps) = run next (next state step) steps := rfl

theorem run_append (state : State) (first second : List Step) :
    run next state (first ++ second) = run next (run next state first) second :=
  List.foldl_append

def Along (allowed : State → Step → Prop) : State → List Step → Prop
  | _, [] => True
  | state, step :: steps => allowed state step ∧ Along allowed (next state step) steps

variable {next} {allowed : State → Step → Prop}

@[simp] theorem along_nil (state : State) : Along next allowed state [] := True.intro

theorem along_cons {state : State} {step : Step} {steps : List Step} :
    Along next allowed state (step :: steps) ↔ allowed state step ∧ Along next allowed (next state step) steps :=
  Iff.rfl

theorem along_append {state : State} {first second : List Step} : Along next allowed state (first ++ second) ↔
      Along next allowed state first ∧ Along next allowed (run next state first) second := by
  induction first generalizing state with
  | nil => simp
  | cons step first ih =>
    rw [List.cons_append, along_cons, along_cons, ih, run_cons, and_assoc]

theorem run_keeps {Holds : State → Prop} (kept : ∀ state step, Holds state → allowed state step → Holds (next state step))
    {state : State} {steps : List Step} (start : Holds state) (along : Along next allowed state steps) :
    Holds (run next state steps) := by
  induction steps generalizing state with
  | nil => exact start
  | cons step steps ih => exact ih (kept state step start along.1) along.2

theorem run_invariant {Holds : State → Prop} (kept : ∀ state step, Holds state → Holds (next state step))
    {state : State} (start : Holds state) (steps : List Step) : Holds (run next state steps) := by
  induction steps generalizing state with
  | nil => exact start
  | cons step steps ih => exact ih (kept state step start)

end ProvenC.Lib.Runs
